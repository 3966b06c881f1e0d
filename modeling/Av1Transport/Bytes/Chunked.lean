import Av1Transport.Bytes

/-! Byte strings held as the pieces they arrived in.
Joining two of them copies no byte and their length is at hand, so that a fragment of a
hundred million bytes can grow piece by piece. Every operation is described through `bytes`.
-/

namespace Av1Transport

/-- A byte string in pieces, with its length. -/
structure Chunked where
  /-- The pieces, the last one first. -/
  chunks : List Bytes
  size : Nat
  size_eq : size = chunks.reverse.flatten.length

namespace Chunked

/-- The byte string itself. -/
def bytes (chunked : Chunked) : Bytes :=
  chunked.chunks.reverse.flatten

/-- The stored size is the length of the byte string. -/
theorem size_eq_length (chunked : Chunked) : chunked.size = chunked.bytes.length :=
  chunked.size_eq

/-- No bytes. -/
def empty : Chunked :=
  ⟨[], 0, rfl⟩

instance : Inhabited Chunked :=
  ⟨empty⟩

/-- Holds no byte. -/
def isEmpty (chunked : Chunked) : Bool :=
  chunked.size == 0

/-- A further piece at the end. -/
def push (chunked : Chunked) (piece : Bytes) : Chunked :=
  ⟨piece :: chunked.chunks, chunked.size + piece.length, by simp [chunked.size_eq]⟩

/-- A byte string in one piece. -/
def ofBytes (bytes : Bytes) : Chunked :=
  empty.push bytes

/-- One byte string followed by another. -/
def append (front back : Chunked) : Chunked :=
  ⟨back.chunks ++ front.chunks, front.size + back.size, by
    simp [front.size_eq, back.size_eq]⟩

instance : Append Chunked :=
  ⟨append⟩

/-- Puts pieces on those taken before until `count` bytes are taken, and cuts the last one. -/
def takeChunks (count : Nat) (taken : List Bytes) : List Bytes → List Bytes
  | [] => taken
  | chunk :: chunks =>
      if chunk.length ≤ count then
        takeChunks (count - chunk.length) (chunk :: taken) chunks
      else
        chunk.take count :: taken

/-- Passes over pieces until `count` bytes are gone, and cuts the next one. -/
def dropChunks (count : Nat) : List Bytes → List Bytes
  | [] => []
  | chunk :: chunks =>
      if chunk.length ≤ count then
        dropChunks (count - chunk.length) chunks
      else
        chunk.drop count :: chunks

/-- The pieces taken hold the first bytes, by induction on the pieces. -/
theorem flatten_takeChunks (count : Nat) (taken chunks : List Bytes)
    : (takeChunks count taken chunks).reverse.flatten
      = taken.reverse.flatten ++ chunks.flatten.take count := by
  induction chunks generalizing count taken with
  | nil => simp [takeChunks]
  | cons chunk chunks ih =>
      rw [takeChunks]
      split
      next h => simp [ih, List.take_append, List.take_of_length_le h]
      next h =>
        simp [List.take_append,
          Nat.sub_eq_zero_of_le (Nat.le_of_lt (Nat.not_le.mp h))]

/-- The pieces left hold the bytes after the first ones, by induction on the pieces. -/
theorem flatten_dropChunks (count : Nat) (chunks : List Bytes)
    : (dropChunks count chunks).flatten = chunks.flatten.drop count := by
  induction chunks generalizing count with
  | nil => simp [dropChunks]
  | cons chunk chunks ih =>
      rw [dropChunks]
      split
      next h => simp [ih, List.drop_append, List.drop_eq_nil_of_le h]
      next h =>
        simp [List.drop_append,
          Nat.sub_eq_zero_of_le (Nat.le_of_lt (Nat.not_le.mp h))]

/-- The first `count` bytes, or all if there are fewer. -/
def take (count : Nat) (chunked : Chunked) : Chunked :=
  ⟨takeChunks count [] chunked.chunks.reverse, min count chunked.size, by
    rw [flatten_takeChunks, chunked.size_eq]
    simp⟩

/-- The bytes after the first `count`. -/
def drop (count : Nat) (chunked : Chunked) : Chunked :=
  ⟨(dropChunks count chunked.chunks.reverse).reverse, chunked.size - count, by
    rw [List.reverse_reverse, flatten_dropChunks, List.length_drop, chunked.size_eq]⟩

@[simp]
theorem bytes_empty : empty.bytes = [] :=
  rfl

@[simp]
theorem bytes_push (chunked : Chunked) (piece : Bytes)
    : (chunked.push piece).bytes = chunked.bytes ++ piece := by
  simp [bytes, push]

@[simp]
theorem bytes_ofBytes (bytes : Bytes) : (ofBytes bytes).bytes = bytes := by
  simp [ofBytes]

@[simp]
theorem bytes_append (front back : Chunked)
    : (front ++ back).bytes = front.bytes ++ back.bytes := by
  show (append front back).bytes = _
  simp [bytes, append]

@[simp]
theorem bytes_take (count : Nat) (chunked : Chunked)
    : (chunked.take count).bytes = chunked.bytes.take count := by
  simp [bytes, take, flatten_takeChunks]

@[simp]
theorem bytes_drop (count : Nat) (chunked : Chunked)
    : (chunked.drop count).bytes = chunked.bytes.drop count := by
  simp [bytes, drop, flatten_dropChunks]

/-- Empty means that there is no byte. -/
theorem isEmpty_iff (chunked : Chunked) : chunked.isEmpty = true ↔ chunked.bytes = [] := by
  simp [isEmpty, size_eq_length]

end Chunked

end Av1Transport
