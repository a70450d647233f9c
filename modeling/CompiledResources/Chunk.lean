import CompiledResources.Bytes

/-!
Chunks: the blocks of a compiled table. Every chunk starts with its kind, the size of its header and
its whole size, eight bytes together, and cannot be smaller than that.
-/

namespace CompiledResources

/-- The place and the first three fields of a chunk. -/
structure Chunk where
  start : Int
  kind : Nat
  headerSize : Nat
  size : Nat
  size_ge : 8 ≤ size

namespace Chunk

/-- Just past the chunk. -/
def stop (chunk : Chunk) : Int := chunk.start + chunk.size

/-- Kind of a string pool. -/
def stringPool : Nat := 0x0001

/-- Kind of a whole table. -/
def table : Nat := 0x0002

/-- Kind of a package. -/
def package : Nat := 0x0200

/-- Kind of the entries of a type under one configuration. -/
def typeEntries : Nat := 0x0201

/-- Kind of the declaration of a type. -/
def typeSpec : Nat := 0x0202

/-- Reads the chunk header at `offset`. -/
def readAt (data : ByteArray) (offset : Int) : Except Fault Chunk := do
  let kind ← Bytes.u16At data offset
  let headerSize ← Bytes.u16At data (offset + 2)
  let size ← Bytes.u32At data (offset + 4)
  if size_ge : 8 ≤ size then return { start := offset, kind, headerSize, size, size_ge }
  else throw (.layout (.chunkTooSmall kind size) offset)

/-- A chunk starts where its header was read, and the header lies inside the buffer. -/
theorem start_of_readAt {data : ByteArray} {offset : Int} {chunk : Chunk}
    (h : readAt data offset = .ok chunk) :
    chunk.start = offset ∧ Bytes.Fits data.size offset 8 := by
  obtain ⟨kind, hkind, h⟩ := exists_of_bind_eq_ok h
  obtain ⟨headerSize, -, h⟩ := exists_of_bind_eq_ok h
  obtain ⟨size, hsize, h⟩ := exists_of_bind_eq_ok h
  have first := (Bytes.fits_of_numberAt hkind).1
  have last := (Bytes.fits_of_numberAt hsize).1
  split at h
  · cases h
    unfold Bytes.Fits at *
    exact ⟨rfl, by omega⟩
  · cases h

/-- The sequence of chunks found by a walk, and the fault that cut it short, if there was one. -/
structure Walk where
  chunks : List Chunk
  fault : Option Fault

/-- Reads one chunk after another from `offset`, each where the one before stops, as long as at
least `room` bytes are left before `limit`. No chunk is empty, so the walk ends whatever sizes the
chunks declare. -/
def walk (data : ByteArray) (room limit offset : Int) : Walk :=
  if offset + room ≤ limit then
    match readAt data offset with
    | .ok chunk =>
      let rest := walk data room limit (offset + chunk.size)
      { rest with chunks := chunk :: rest.chunks }
    | .error fault => ⟨[], some fault⟩
  else ⟨[], none⟩
termination_by (limit - room + 1 - offset).toNat
decreasing_by have := chunk.size_ge; omega

end Chunk
end CompiledResources
