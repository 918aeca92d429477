import DistFs.Storage.Memory
import DistFs.Proofs.PathMap

namespace DistFs

theorem Bytes.toNat_size {d : Bytes} (short : d.length < UInt64.size) :
    d.size.toNat = d.length := by
  rw [Bytes.size, UInt64.toNat_ofNat']
  exact Nat.mod_eq_of_lt short

namespace MemoryStore

variable {s s' : MemoryStore} {p q : Path} {d : Bytes}

theorem files_makeParents (made : s.makeParents p = some s') : s'.files = s.files := by
  unfold makeParents at made
  split at made
  · cases made
  · cases made
    rfl

theorem file_eq_ok : s.file p = .ok d ↔ s.files.get? p = some d := by
  unfold file
  cases s.files.get? p <;> simp

theorem get?_create (s : MemoryStore) (p q : Path) :
    (s.create p).2.files.get? q =
      if (s.create p).1 = true ∧ q = p then some [] else s.files.get? q := by
  unfold create
  split
  · simp
  · cases made : s.makeParents p with
    | none => simp
    | some s' => simp [putFile, files_makeParents made]

theorem get?_receive (s : MemoryStore) (p q : Path) (d : Bytes) :
    (s.receive p d).2.files.get? q =
      if (s.receive p d).1 = true ∧ q = p then some d else s.files.get? q := by
  unfold receive
  split
  · simp
  · cases made : s.makeParents p with
    | none => simp
    | some s' => simp [putFile, files_makeParents made]

theorem get?_delete_file (there : s.files.get? p = some d) (other : q ≠ p) :
    (s.delete p).2.files.get? q = s.files.get? q := by
  unfold delete
  split
  · rfl
  · simp [PathMap.contains, there, other]

theorem get?_delete_apart (s : MemoryStore) (apart : q.isUnder p = false) :
    (s.delete p).2.files.get? q = s.files.get? q := by
  have other : q ≠ p := by
    intro same
    rw [same, Path.isUnder_refl] at apart
    cases apart
  unfold delete
  split
  · rfl
  · split
    · simp [other]
    · split
      · simp [apart]
      · rfl

theorem get?_delete_some (kept : (s.delete p).2.files.get? q = some d) :
    s.files.get? q = some d := by
  unfold delete at kept
  split at kept
  · exact kept
  · split at kept
    · by_cases same : q = p
      · simp [same] at kept
      · simpa [same] using kept
    · split at kept
      · cases apart : q.isUnder p <;> simp [apart] at kept
        exact kept
      · exact kept

theorem length_overwrite (d w : Bytes) (start : Nat) :
    (d.overwrite start w).length = max d.length (start + w.length) := by
  unfold Bytes.overwrite
  simp only [List.length_append, List.length_take, List.length_drop, List.length_replicate]
  omega

theorem write_eq_ok {offset : UInt64} {w : Bytes} (written : s.write p offset w = .ok s') :
    ∃ d, s.files.get? p = some d ∧ offset.toNat + w.length < UInt64.size ∧
      s' = s.putFile p (d.overwrite offset.toNat w) := by
  unfold write at written
  cases there : s.file p with
  | error e => simp [there, Except.bind] at written
  | ok d =>
      rw [there] at written
      simp only [Except.bind] at written
      split at written
      next short => exact ⟨d, file_eq_ok.mp there, short, (Except.ok.inj written).symm⟩
      next => cases written

theorem read_size (there : s.files.get? p = some d) (short : d.length < UInt64.size) :
    s.size p = .ok d.size ∧ s.read p 0 d.size = .ok d := by
  have file := file_eq_ok.mpr there
  have size := Bytes.toNat_size short
  constructor
  · rw [MemoryStore.size, file]
    rfl
  · have within : (0 : UInt64).toNat + d.size.toNat < UInt64.size ∧
        (0 : UInt64).toNat + d.size.toNat ≤ d.length := by
      rw [size, UInt64.toNat_zero, Nat.zero_add]
      exact ⟨short, Nat.le_refl _⟩
    have slice : d.slice p 0 d.size = .ok d := by
      rw [Bytes.slice, if_pos within, size, UInt64.toNat_zero, List.drop_zero, List.take_length]
    rw [read, file]
    exact slice

end MemoryStore

end DistFs
