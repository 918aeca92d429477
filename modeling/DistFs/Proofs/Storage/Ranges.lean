import DistFs.Proofs.Storage.Memory

namespace DistFs

namespace Bytes

variable {d w : Bytes} {p : Path} {offset length : UInt64} {i : Nat}

theorem getElem?_overwrite (d : Bytes) (start : Nat) (w : Bytes) (i : Nat) :
    (d.overwrite start w)[i]? =
      if start ≤ i ∧ i < start + w.length then w[i - start]?
      else if i < d.length then d[i]? else if i < start then some 0 else none := by
  -- What comes before the range, with zeros in the gap, is as long as the offset says.
  have front : ((d ++ List.replicate (start - d.length) 0).take start).length = start := by
    rw [List.length_take, List.length_append, List.length_replicate]
    omega
  rw [overwrite, List.append_assoc]
  by_cases before : i < start
  · rw [List.getElem?_append_left (by rwa [front]), List.getElem?_take_of_lt before,
      if_neg (by omega), if_pos before]
    split
    next inside => rw [List.getElem?_append_left inside]
    next gap =>
      rw [List.getElem?_append_right (by omega), List.getElem?_replicate_of_lt (by omega)]
  · rw [List.getElem?_append_right (by omega), front, if_neg before]
    by_cases within : i < start + w.length
    · rw [List.getElem?_append_left (by omega), if_pos ⟨by omega, within⟩]
    · rw [List.getElem?_append_right (by omega), List.getElem?_drop, if_neg (by omega)]
      have position : start + w.length + (i - start - w.length) = i := by omega
      rw [position]
      split
      · rfl
      · rw [List.getElem?_eq_none (by omega)]

theorem slice_within (short : d.length < UInt64.size)
    (within : offset.toNat + length.toNat ≤ d.length) :
    d.slice p offset length = .ok ((d.drop offset.toNat).take length.toNat) := by
  rw [slice, if_pos ⟨by omega, within⟩]

theorem slice_beyond (beyond : d.length < offset.toNat + length.toNat) :
    d.slice p offset length = .error (.outOfBounds p offset length d.size) := by
  rw [slice, if_neg]
  exact fun within => Nat.not_lt.mpr within.2 beyond

theorem getElem?_slice (inside : i < length.toNat) :
    ((d.drop offset.toNat).take length.toNat)[i]? = d[offset.toNat + i]? := by
  rw [List.getElem?_take_of_lt inside, List.getElem?_drop]

theorem slice_overwrite (fits : offset.toNat + w.length < UInt64.size) :
    (d.overwrite offset.toNat w).slice p offset w.size = .ok w := by
  have size : w.size.toNat = w.length := toNat_size (by omega)
  rw [slice, size, if_pos ⟨fits, by rw [MemoryStore.length_overwrite]; omega⟩]
  congr 1
  refine List.ext_getElem? fun i => ?_
  by_cases inside : i < w.length
  · rw [List.getElem?_take_of_lt inside, List.getElem?_drop, getElem?_overwrite,
      if_pos (by omega), Nat.add_sub_cancel_left]
  · rw [List.getElem?_eq_none (by rw [List.length_take]; omega), List.getElem?_eq_none (by omega)]

end Bytes

namespace MemoryStore

variable {s : MemoryStore} {p : Path} {d : Bytes} {offset : UInt64} {w : Bytes}

theorem read_of_held (there : s.files.get? p = some d) (offset length : UInt64) :
    s.read p offset length = d.slice p offset length := by
  rw [read, file_eq_ok.mpr there]
  rfl

theorem write_of_held (there : s.files.get? p = some d) (offset : UInt64) (w : Bytes) :
    s.write p offset w =
      if offset.toNat + w.length < UInt64.size then .ok (s.putFile p (d.overwrite offset.toNat w))
      else .error (.outOfBounds p offset w.size d.size) := by
  rw [write, file_eq_ok.mpr there]
  rfl

end MemoryStore

end DistFs
