import DistFs.Path
/-!
# Finite maps on paths

A map from paths to values, listed in the order of the paths. As no path is listed twice, a map is
determined by what it answers.
-/

namespace DistFs

structure PathMap (α : Type) where
  toList : List (Path × α) := []
  sorted : (toList.map Prod.fst).Pairwise (· < ·) := by simp

namespace PathMap

variable {α : Type}

def empty : PathMap α := ⟨[], .nil⟩

def keys (m : PathMap α) : List Path := m.toList.map Prod.fst

def get? (m : PathMap α) (p : Path) : Option α := (m.toList.find? (·.1 = p)).map Prod.snd

def contains (m : PathMap α) (p : Path) : Bool := (m.get? p).isSome

def insertInto (p : Path) (a : α) : List (Path × α) → List (Path × α)
  | [] => [(p, a)]
  | (q, b) :: rest =>
    if p < q then (p, a) :: (q, b) :: rest
    else if q < p then (q, b) :: insertInto p a rest
    else (p, a) :: rest

theorem mem_insertInto {p q : Path} {a b : α} :
    ∀ {l : List (Path × α)}, (q, b) ∈ insertInto p a l → q = p ∨ (q, b) ∈ l
  | [], h => by simp_all [insertInto]
  | (r, c) :: rest, h => by
    unfold insertInto at h
    split at h
    · simp_all
      grind
    · split at h
      · rcases List.mem_cons.mp h with same | later
        · exact .inr (same ▸ List.mem_cons_self)
        · exact (mem_insertInto later).imp_right (List.mem_cons_of_mem _)
      · rcases List.mem_cons.mp h with same | later
        · exact .inl (Prod.mk.inj same).1
        · exact .inr (List.mem_cons_of_mem _ later)

theorem sorted_insertInto (p : Path) (a : α) :
    ∀ {l : List (Path × α)}, (l.map Prod.fst).Pairwise (· < ·) →
      ((insertInto p a l).map Prod.fst).Pairwise (· < ·)
  | [], _ => by simp [insertInto]
  | (q, b) :: rest, h => by
    rw [List.map_cons, List.pairwise_cons] at h
    unfold insertInto
    split
    next before =>
      simp only [List.map_cons, List.pairwise_cons]
      refine ⟨?_, h.1, h.2⟩
      intro r member
      rcases List.mem_cons.mp member with same | later
      · exact same ▸ before
      · exact Std.lt_trans before (h.1 r later)
    next =>
      split
      next after =>
        rw [List.map_cons, List.pairwise_cons]
        refine ⟨?_, sorted_insertInto p a h.2⟩
        intro r member
        obtain ⟨⟨r', c⟩, placed, same⟩ := List.mem_map.mp member
        obtain rfl : r' = r := same
        rcases mem_insertInto placed with same | later
        · exact same ▸ after
        · exact h.1 r' (List.mem_map.mpr ⟨_, later, rfl⟩)
      next before after =>
        have same : p = q := by
          have := Std.not_lt.mp before
          have := Std.not_lt.mp after
          exact Std.le_antisymm ‹_› ‹_›
        subst same
        rw [List.map_cons, List.pairwise_cons]
        exact h

def insert (m : PathMap α) (p : Path) (a : α) : PathMap α :=
  ⟨insertInto p a m.toList, sorted_insertInto p a m.sorted⟩

def filter (m : PathMap α) (keep : Path → Bool) : PathMap α :=
  ⟨m.toList.filter fun entry => keep entry.1,
    m.sorted.sublist (List.filter_sublist.map _)⟩

def erase (m : PathMap α) (p : Path) : PathMap α := m.filter (· ≠ p)

end PathMap

end DistFs
