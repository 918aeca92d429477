import DistFs.Error
/-!
# The contents of files

Contents are sequences of bytes, addressed by 64-bit offsets. A range is valid only if its end does
not go past the contents and can itself be written as an offset.
-/

namespace DistFs

abbrev Bytes := List UInt8

namespace Bytes

def size (d : Bytes) : UInt64 := UInt64.ofNat d.length

def slice (d : Bytes) (p : Path) (offset length : UInt64) : Except Error Bytes :=
  if offset.toNat + length.toNat < UInt64.size ∧ offset.toNat + length.toNat ≤ d.length then
    .ok ((d.drop offset.toNat).take length.toNat)
  else .error (.outOfBounds p offset length d.size)

/-- Puts `w` at a position. A gap before it is filled with zeros. -/
def overwrite (d : Bytes) (start : Nat) (w : Bytes) : Bytes :=
  (d ++ List.replicate (start - d.length) 0).take start ++ w ++ d.drop (start + w.length)

end Bytes

end DistFs
