import DistFs.Proofs.Path

namespace DistFs

namespace Path

theorem isPrefixOf_eq_zip (names names' : List Name) :
    names'.isPrefixOf names = true ↔
      names'.length ≤ names.length ∧ ∀ pair ∈ names.zip names', pair.1 = pair.2 := by
  induction names' generalizing names with
  | nil => simp
  | cons b names' ih =>
    cases names with
    | nil => simp
    | cons a names =>
      rw [List.isPrefixOf_cons_cons, Bool.and_eq_true, ih, List.zip_cons_cons, List.forall_mem_cons,
        List.length_cons, List.length_cons, Nat.add_le_add_iff_right, beq_iff_eq, eq_comm,
        and_left_comm]

theorem isUnder_iff_zip {p q : Path} :
    p.isUnder q = true ↔
      q.depth ≤ p.depth ∧ ∀ pair ∈ p.names.zip q.names, pair.1 = pair.2 :=
  isPrefixOf_eq_zip p.names q.names

theorem le_of_isUnder {p q : Path} (under : q.isUnder p = true) : p ≤ q := by
  by_cases same : q = p
  · exact same ▸ Std.le_refl q
  · exact Std.le_of_lt (lt_of_isUnder under same)

theorem prefix_between {start low high : List Name} (prefixed : start <+: high)
    (after : start ≤ low) (before : low ≤ high) : start <+: low := by
  induction start generalizing low high with
  | nil => exact List.nil_prefix
  | cons a start ih =>
    obtain ⟨rest, rfl⟩ := prefixed
    cases low with
    | nil => exact absurd after (List.not_le.mpr (List.nil_lt_cons a start))
    | cons b low =>
      rw [List.cons_append, List.cons_le_cons_iff] at before
      rcases List.cons_le_cons_iff.mp after with first | ⟨rfl, after'⟩
      · rcases before with first' | ⟨rfl, -⟩
        · exact absurd (Std.lt_trans first first') Std.lt_irrefl
        · exact absurd first Std.lt_irrefl
      · rcases before with first' | ⟨-, before⟩
        · exact absurd first' Std.lt_irrefl
        · exact List.cons_prefix_cons.mpr ⟨rfl, ih (List.prefix_append start rest) after' before⟩

theorem isUnder_between {p q r : Path} (under : q.isUnder p = true) (after : p ≤ r)
    (before : r ≤ q) : r.isUnder p = true :=
  isUnder_iff.mpr (prefix_between (isUnder_iff.mp under) after before)

theorem filter_eq_takeWhile {P : Path → Bool} {l : List Path}
    (falling : l.Pairwise fun q r => P r = true → P q = true) : l.filter P = l.takeWhile P := by
  induction l with
  | nil => rfl
  | cons q l ih =>
    obtain ⟨first, falling⟩ := List.pairwise_cons.mp falling
    by_cases holds : P q = true
    · rw [List.filter_cons_of_pos holds, List.takeWhile_cons_of_pos holds, ih falling]
    · rw [List.filter_cons_of_neg holds, List.takeWhile_cons_of_neg holds, List.filter_eq_nil_iff]
      exact fun r later holds' => holds (first r later holds')

theorem exists_block (p : Path) {l : List Path} (sorted : l.Pairwise (· ≤ ·)) :
    ∃ before after, l = before ++ l.filter (·.isUnder p) ++ after := by
  induction l with
  | nil => exact ⟨[], [], rfl⟩
  | cons q l ih =>
    obtain ⟨least, sorted'⟩ := List.pairwise_cons.mp sorted
    by_cases under : q.isUnder p = true
    · -- From the first path below `p` on, whatever comes before one of these is one of them.
      have falling : (q :: l).Pairwise fun r r' => r'.isUnder p = true → r.isUnder p = true := by
        refine sorted.imp_of_mem fun {r r'} member _ before under' => ?_
        have after : q ≤ r := (List.mem_cons.mp member).elim (· ▸ Std.le_refl q) (least r)
        exact isUnder_between under' (Std.le_trans (le_of_isUnder under) after) before
      refine ⟨[], (q :: l).dropWhile (·.isUnder p), ?_⟩
      rw [filter_eq_takeWhile falling, List.nil_append, List.takeWhile_append_dropWhile]
    · obtain ⟨before, after, parts⟩ := ih sorted'
      refine ⟨q :: before, after, ?_⟩
      rw [List.filter_cons_of_neg (p := (isUnder · p)) under, List.cons_append, List.cons_append,
        ← parts]

theorem sorted_ancestors (p : Path) : p.ancestors.Pairwise (· < ·) := by
  refine List.pairwise_map.mpr (List.pairwise_lt_range.imp_of_mem fun {n m} _ within longer => ?_)
  have short : m < p.names.length := List.mem_range.mp within
  have length : (p.names.take n).length ≠ (p.names.take m).length := by
    rw [List.length_take, List.length_take]
    omega
  refine lt_of_isUnder (isUnder_iff.mpr (List.take_prefix_take_left (Nat.le_of_lt longer))) ?_
  exact fun same => length (congrArg (·.names.length) same).symm

/-- Being below a path, which is found out name by name, is an order, and the order of paths extends
it: a path comes before what is below it, what is below it stands together, and what it is below
itself, beside itself, are its ancestors, which are listed in order. -/
theorem below_in_order :
    (∀ p q : Path, p.isUnder q = true ↔
      q.depth ≤ p.depth ∧ ∀ pair ∈ p.names.zip q.names, pair.1 = pair.2) ∧
    (∀ p : Path, p.isUnder p = true) ∧
    (∀ p q : Path, p.isUnder q = true → q.isUnder p = true → p = q) ∧
    (∀ p q r : Path, p.isUnder q = true → q.isUnder r = true → p.isUnder r = true) ∧
    (∀ p q : Path, q.isUnder p = true → p ≤ q) ∧
    (∀ p q r : Path, q.isUnder p = true → p ≤ r → r ≤ q → r.isUnder p = true) ∧
    (∀ (p : Path) (l : List Path), l.Pairwise (· ≤ ·) →
      ∃ before after, l = before ++ l.filter (·.isUnder p) ++ after) ∧
    ∀ p : Path, p.ancestors.Pairwise (· < ·) ∧
      ∀ a, a ∈ p.ancestors ↔ a ≠ p ∧ p.isUnder a = true :=
  ⟨fun _ _ => isUnder_iff_zip, isUnder_refl, fun _ _ => isUnder_antisymm,
    fun _ _ _ => isUnder_trans, fun _ _ => le_of_isUnder, fun _ _ _ => isUnder_between,
    fun p _ => exists_block p,
    fun p => ⟨sorted_ancestors p, fun _ => mem_ancestors.trans and_comm⟩⟩

theorem below_in_order_neighbour :
    sole ≤ inner ∧ inner ≤ neighbour ∧ neighbour.isUnder sole = false ∧
      inner.isUnder sole = true ∧ sole ∈ inner.ancestors := by
  obtain ⟨-, -, -, -, before, between, -, above⟩ := below_in_order
  have deeper : (inner.child ⟨"d", by decide, by decide, by decide⟩).isUnder sole = true := by
    decide +kernel
  have under := between sole _ inner deeper (by decide +kernel) (by decide +kernel)
  exact ⟨before sole inner under, by decide +kernel, by decide +kernel, under,
    ((above inner).2 sole).mpr ⟨by decide +kernel, under⟩⟩

end Path

end DistFs
