import DistFs.PathMap
import DistFs.Proofs.Keyed
import DistFs.Proofs.Path

namespace DistFs

namespace PathMap

variable {α : Type} {m : PathMap α} {p q : Path} {a : α}

@[simp] theorem get?_empty (p : Path) : (empty : PathMap α).get? p = none := rfl

theorem find?_insertInto (p q : Path) (a : α) (l : List (Path × α)) :
    ((insertInto p a l).find? (·.1 = q)).map Prod.snd =
      if q = p then some a else (l.find? (·.1 = q)).map Prod.snd := by
  induction l with
  | nil =>
      by_cases same : p = q
      · simp [insertInto, same]
      · simp [insertInto, same, Ne.symm same]
  | cons entry rest ih =>
      obtain ⟨r, b⟩ := entry
      unfold insertInto
      split
      next =>
        by_cases same : p = q
        · simp [same]
        · simp [List.find?_cons, same, Ne.symm same]
      next =>
        split
        next after =>
          by_cases here : r = q
          · have other : q ≠ p := by
              intro same
              subst here same
              exact Std.lt_irrefl after
            simp [here, other]
          · simpa [List.find?_cons, here] using ih
        next before after =>
          obtain rfl : p = r := Std.le_antisymm (Std.not_lt.mp after) (Std.not_lt.mp before)
          by_cases same : p = q
          · simp [same]
          · simp [same, Ne.symm same]

@[simp] theorem get?_insert (m : PathMap α) (p q : Path) (a : α) :
    (m.insert p a).get? q = if q = p then some a else m.get? q :=
  find?_insertInto p q a m.toList

@[simp] theorem get?_filter (m : PathMap α) (keep : Path → Bool) (q : Path) :
    (m.filter keep).get? q = if keep q then m.get? q else none := by
  unfold get? filter
  rw [find?_filter_key]
  cases keep q <;> rfl

@[simp] theorem get?_erase (m : PathMap α) (p q : Path) :
    (m.erase p).get? q = if q = p then none else m.get? q := by
  unfold erase
  rw [get?_filter]
  by_cases same : q = p <;> simp [same]

@[simp] theorem contains_insert (m : PathMap α) (p q : Path) (a : α) :
    (m.insert p a).contains q = true ↔ q = p ∨ m.contains q = true := by
  rw [contains, get?_insert]
  split <;> simp_all [contains]

@[simp] theorem contains_filter (m : PathMap α) (keep : Path → Bool) (q : Path) :
    (m.filter keep).contains q = true ↔ keep q = true ∧ m.contains q = true := by
  rw [contains, get?_filter]
  split <;> simp_all [contains]

@[simp] theorem contains_erase (m : PathMap α) (p q : Path) :
    (m.erase p).contains q = true ↔ q ≠ p ∧ m.contains q = true := by
  rw [contains, get?_erase]
  split <;> simp_all [contains]

theorem contains_iff : m.contains p = true ↔ ∃ a, m.get? p = some a := Option.isSome_iff_exists

theorem mem_keys : p ∈ m.keys ↔ ∃ a, m.get? p = some a := by
  unfold keys get?
  simp only [List.mem_map, Option.map_eq_some_iff]
  constructor
  · intro listed
    obtain ⟨entry, member, rfl⟩ := listed
    cases found : m.toList.find? (·.1 = entry.1) with
    | some other => exact ⟨other.2, other, rfl, rfl⟩
    | none => simpa using List.find?_eq_none.mp found entry member
  · intro there
    obtain ⟨a, entry, found, -⟩ := there
    exact ⟨entry, List.mem_of_find?_eq_some found, by simpa using List.find?_some found⟩

theorem mem_keys_iff_contains : p ∈ m.keys ↔ m.contains p = true :=
  mem_keys.trans contains_iff.symm

theorem sorted_keys (m : PathMap α) : m.keys.Pairwise (· < ·) := m.sorted

theorem nodup_keys (m : PathMap α) : m.keys.Nodup :=
  m.sorted_keys.imp fun before => Std.ne_of_lt before

end PathMap

end DistFs
