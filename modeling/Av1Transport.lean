import Av1Transport.Aggregation.Packet
import Av1Transport.Leb128
import Av1Transport.Rtp.BufferWriter
import Av1Transport.Rtp.Header
import Av1Transport.Sdp
import Av1Transport.Session
import Av1Transport.Proofs.Bytes.ItemReadings
import Av1Transport.Proofs.Leb128.ShortestForm
import Av1Transport.Proofs.Leb128.WordForms
import Av1Transport.Proofs.Leb128.AcceptedNumbers
import Av1Transport.Proofs.Obu.WrittenHeaders
import Av1Transport.Proofs.Obu.WrittenUnits
import Av1Transport.Proofs.Obu.StreamNormalForms
import Av1Transport.Proofs.Aggregation.WrittenPackets
import Av1Transport.Proofs.Aggregation.Fragments
import Av1Transport.Proofs.Aggregation.GroupInvariants
import Av1Transport.Proofs.Aggregation.GroupBoundaries
import Av1Transport.Proofs.Aggregation.PackerRuns
import Av1Transport.Proofs.Aggregation.FrameConcatenation
import Av1Transport.Proofs.Aggregation.Carriage
import Av1Transport.Proofs.Aggregation.HeaderDiscipline
import Av1Transport.Proofs.Aggregation.SharedPackets
import Av1Transport.Proofs.Aggregation.ConformingPackets
import Av1Transport.Proofs.Aggregation.ReadPackets
import Av1Transport.Proofs.Aggregation.Divisions
import Av1Transport.Proofs.Aggregation.AcceptedPayloads
import Av1Transport.Proofs.Reassembly.StreamRuns
import Av1Transport.Proofs.Reassembly.RoundTrip
import Av1Transport.Proofs.Reassembly.ConformingSenders
import Av1Transport.Proofs.Reassembly.Resynchronization
import Av1Transport.Proofs.Reassembly.Agreement
import Av1Transport.Proofs.Reassembly.Losses
import Av1Transport.Proofs.Reassembly.ElementRuns
import Av1Transport.Proofs.Reassembly.CanonicalOutputs
import Av1Transport.Proofs.Reassembly.OversizedUnits
import Av1Transport.Proofs.Reassembly.AssembledElements
import Av1Transport.Proofs.Rtp.ExtensionRegions
import Av1Transport.Proofs.Rtp.ReadHeaders
import Av1Transport.Proofs.Rtp.PacketRoundTrip
import Av1Transport.Proofs.Rtp.StableForms
import Av1Transport.Proofs.Rtp.BufferWriting
import Av1Transport.Proofs.Rtp.EditedHeaders
import Av1Transport.Proofs.Rtp.SentPackets
import Av1Transport.Proofs.Rtp.HeaderExtents
import Av1Transport.Proofs.Rtp.InPlaceReading
import Av1Transport.Proofs.Rtp.PaddedRegions
import Av1Transport.Proofs.Rtp.RawExtensions
import Av1Transport.Proofs.Sdp.Segments
import Av1Transport.Proofs.Sdp.ReadTexts
import Av1Transport.Proofs.Session.Delivery
import Av1Transport.Proofs.Session.Numbering
