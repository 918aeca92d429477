import DistFs.Path
import Mathlib.Data.List.Induction

namespace DistFs

namespace Path

@[simp] theorem names_child (p : Path) (a : Name) : (p.child a).names = p.names ++ [a] := rfl

@[simp] theorem names_root : root.names = [] := rfl

@[simp] theorem last?_child (p : Path) (a : Name) : (p.child a).last? = some a := by
  simp [last?]

@[simp] theorem parent?_child (p : Path) (a : Name) : (p.child a).parent? = some p := by
  simp [parent?]

theorem child_ne_root (p : Path) (a : Name) : p.child a ≠ root := by
  simp [child, root]

@[simp] theorem isRoot_iff {p : Path} : p.isRoot = true ↔ p = root := by
  cases p
  simp [isRoot, root]

theorem eq_root_or_child (p : Path) : p = root ∨ ∃ (q : Path) (a : Name), p = q.child a := by
  cases p with
  | mk names =>
    cases names using List.reverseRecOn with
    | nil => exact .inl rfl
    | append_singleton names a => exact .inr ⟨⟨names⟩, a, rfl⟩

theorem child_of_parent?_last? {p q : Path} {a : Name} (hq : p.parent? = some q)
    (ha : p.last? = some a) : p = q.child a := by
  rcases p.eq_root_or_child with rfl | ⟨r, b, rfl⟩
  · simp [parent?] at hq
  · simp only [parent?_child, last?_child, Option.some.injEq] at hq ha
    rw [hq, ha]

theorem child_lt_child {p : Path} {a b : Name} : p.child a < p.child b ↔ a < b := by
  have shared (names : List Name) : names ++ [a] < names ++ [b] ↔ a < b := by
    induction names with
    | nil => simp [List.cons_lt_cons_iff]
    | cons c names ih => simp [ih]
  exact shared p.names

@[simp] theorem ancestors_root : root.ancestors = [] := rfl

theorem ancestors_child (p : Path) (a : Name) : (p.child a).ancestors = p.ancestors ++ [p] := by
  have depth : (p.child a).depth = p.depth + 1 := by simp [depth]
  rw [ancestors, depth, List.range_succ, List.map_append, List.map_singleton, names_child]
  congr 1
  · refine List.map_congr_left fun n before => ?_
    rw [List.take_append_of_le_length (Nat.le_of_lt (List.mem_range.mp before))]
  · simp [Path.depth]

theorem depth_lt_of_mem_ancestors {p q : Path} (above : q ∈ p.ancestors) : q.depth < p.depth := by
  obtain ⟨n, before, rfl⟩ := List.mem_map.mp above
  have short := List.mem_range.mp before
  rw [depth, List.length_take]
  exact Nat.lt_of_le_of_lt (Nat.min_le_left ..) short

def steps (p : Path) : List Name → List Path
  | [] => []
  | a :: names => p.child a :: (p.child a).steps names

theorem steps_concat (p : Path) (names : List Name) (a : Name) :
    p.steps (names ++ [a]) = p.steps names ++ [⟨p.names ++ names ++ [a]⟩] := by
  induction names generalizing p with
  | nil => simp [steps, child]
  | cons b names ih => simp [steps, ih]

theorem ancestors_child_eq_steps (p : Path) (a : Name) :
    (p.child a).ancestors = root :: root.steps p.names := by
  obtain ⟨names⟩ := p
  induction names using List.reverseRecOn generalizing a with
  | nil => rfl
  | append_singleton names b ih =>
    have last : (⟨names ++ [b]⟩ : Path) = child ⟨names⟩ b := rfl
    rw [ancestors_child, last, ih b, names_child, steps_concat]
    simp [child]

theorem isUnder_iff {p q : Path} : p.isUnder q = true ↔ q.names <+: p.names := by
  simp [isUnder]

theorem isUnder_refl (p : Path) : p.isUnder p = true := isUnder_iff.mpr (List.prefix_refl _)

theorem isUnder_trans {p q r : Path} (h : p.isUnder q = true) (h' : q.isUnder r = true) :
    p.isUnder r = true :=
  isUnder_iff.mpr ((isUnder_iff.mp h').trans (isUnder_iff.mp h))

theorem isUnder_antisymm {p q : Path} (h : p.isUnder q = true) (h' : q.isUnder p = true) :
    p = q := by
  have names := (isUnder_iff.mp h').eq_of_length_le (isUnder_iff.mp h).length_le
  cases p
  exact congrArg mk names

theorem isUnder_root (p : Path) : p.isUnder root = true := isUnder_iff.mpr List.nil_prefix

theorem mem_ancestors {p q : Path} : q ∈ p.ancestors ↔ p.isUnder q = true ∧ q ≠ p := by
  constructor
  · intro above
    have shorter := depth_lt_of_mem_ancestors above
    obtain ⟨n, -, rfl⟩ := List.mem_map.mp above
    exact ⟨isUnder_iff.mpr (List.take_prefix n _), fun same => Nat.lt_irrefl _ (same ▸ shorter)⟩
  · rintro ⟨under, other⟩
    have start := isUnder_iff.mp under
    refine List.mem_map.mpr ⟨q.depth, List.mem_range.mpr ?_, ?_⟩
    · refine Nat.lt_of_le_of_ne start.length_le fun same => other ?_
      cases q
      exact congrArg mk (start.eq_of_length same)
    · cases q
      exact congrArg mk (List.prefix_iff_eq_take.mp start).symm

theorem isUnder_child_iff {p q : Path} {a : Name} :
    (p.child a).isUnder q = true ↔ q = p.child a ∨ p.isUnder q = true := by
  obtain ⟨names⟩ := q
  simp [isUnder_iff, List.prefix_concat_iff, child]

theorem isUnder_or_isUnder {p q r : Path} (h : p.isUnder q = true) (h' : p.isUnder r = true) :
    q.isUnder r = true ∨ r.isUnder q = true := by
  have either := List.prefix_or_prefix_of_prefix (isUnder_iff.mp h) (isUnder_iff.mp h')
  rw [isUnder_iff, isUnder_iff]
  exact either.symm

theorem child_isUnder_child {dir : Path} {a b : Name}
    (under : (dir.child a).isUnder (dir.child b) = true) : dir.child a = dir.child b := by
  rcases isUnder_child_iff.mp under with same | under
  · exact same.symm
  · have shorter := (isUnder_iff.mp under).length_le
    rw [names_child, List.length_append, List.length_singleton] at shorter
    omega

theorem exists_child_of_isUnder {p dir : Path} (under : p.isUnder dir = true) (other : p ≠ dir) :
    ∃ a, p.isUnder (dir.child a) = true := by
  obtain ⟨rest, same⟩ := isUnder_iff.mp under
  cases rest with
  | nil =>
    rw [List.append_nil] at same
    cases p
    cases dir
    exact absurd (congrArg mk same.symm) other
  | cons a rest =>
    refine ⟨a, isUnder_iff.mpr ⟨rest, ?_⟩⟩
    rw [names_child, List.append_assoc, List.singleton_append, same]

theorem mem_ancestors_child {p q : Path} {a : Name} :
    q ∈ (p.child a).ancestors ↔ p.isUnder q = true := by
  rw [mem_ancestors, isUnder_child_iff]
  refine ⟨fun h => h.1.resolve_left h.2, fun under => ⟨.inr under, ?_⟩⟩
  rintro rfl
  have shorter := (isUnder_iff.mp under).length_le
  rw [names_child, List.length_append, List.length_singleton] at shorter
  omega

theorem mem_ancestors_trans {p q r : Path} (h : r ∈ q.ancestors) (h' : q ∈ p.ancestors) :
    r ∈ p.ancestors := by
  have shorter := Nat.lt_trans (depth_lt_of_mem_ancestors h) (depth_lt_of_mem_ancestors h')
  obtain ⟨under, -⟩ := mem_ancestors.mp h
  obtain ⟨under', -⟩ := mem_ancestors.mp h'
  exact mem_ancestors.mpr ⟨isUnder_trans under' under, fun same => Nat.lt_irrefl _ (same ▸ shorter)⟩

theorem isUnder_child (p : Path) (a : Name) : (p.child a).isUnder p = true :=
  isUnder_iff.mpr ⟨[a], rfl⟩

theorem lt_of_isUnder {p q : Path} (under : q.isUnder p = true) (other : q ≠ p) : p < q := by
  obtain ⟨rest, names⟩ := isUnder_iff.mp under
  cases rest with
  | nil =>
    rw [List.append_nil] at names
    cases p
    cases q
    exact absurd (congrArg mk names.symm) other
  | cons a rest =>
    change p.names < q.names
    have longer : p.names ++ [] < p.names ++ a :: rest :=
      List.append_left_lt (List.nil_lt_cons a rest)
    rwa [List.append_nil, names] at longer

theorem lt_child (p : Path) (a : Name) : p < p.child a := by
  refine lt_of_isUnder (isUnder_child p a) fun same => ?_
  have shorter := congrArg (·.names.length) same
  simp at shorter

theorem lt_of_isUnder_child {dir p q : Path} {a b : Name} (before : dir.child a < dir.child b)
    (under : p.isUnder (dir.child a) = true) (under' : q.isUnder (dir.child b) = true) : p < q := by
  obtain ⟨rest, names⟩ := isUnder_iff.mp under
  obtain ⟨rest', names'⟩ := isUnder_iff.mp under'
  change p.names < q.names
  rw [← names, ← names', names_child, names_child, List.append_assoc, List.append_assoc]
  exact List.append_left_lt (List.cons_lt_cons_iff.mpr (.inl (child_lt_child.mp before)))

theorem below_of_mem_steps {p q : Path} {names : List Name} (member : q ∈ p.steps names) :
    q.isUnder p = true ∧ q ≠ p := by
  induction names generalizing p with
  | nil => cases member
  | cons a names ih =>
    have longer : p.names.length < (p.child a).names.length := by simp
    rcases List.mem_cons.mp member with rfl | later
    · exact ⟨isUnder_child p a, fun same => Nat.lt_irrefl _ (same ▸ longer)⟩
    · obtain ⟨under, -⟩ := ih later
      refine ⟨isUnder_trans under (isUnder_child p a), fun same => ?_⟩
      have shorter := (isUnder_iff.mp under).length_le
      rw [same] at shorter
      exact Nat.not_lt.mpr shorter longer

theorem mem_sort {l : List Path} {p : Path} : p ∈ sort l ↔ p ∈ l :=
  (List.mergeSort_perm l _).mem_iff

theorem sorted_sort {l : List Path} (unique : l.Nodup) : (sort l).Pairwise (· < ·) := by
  have ordered : (sort l).Pairwise fun p q => decide (p ≤ q) = true := by
    refine List.pairwise_mergeSort (fun p q r before after => ?_) (fun p q => ?_) l
    · rw [decide_eq_true_eq] at before after ⊢
      exact Std.le_trans before after
    · rw [Bool.or_eq_true, decide_eq_true_eq, decide_eq_true_eq]
      exact Std.le_total
  have apart : (sort l).Pairwise (· ≠ ·) := (List.mergeSort_perm l _).nodup_iff.mpr unique
  exact (ordered.and apart).imp fun ⟨before, other⟩ =>
    Std.lt_of_le_of_ne (decide_eq_true_eq.mp before) other

theorem eq_of_sorted {l l' : List Path} (sorted : l.Pairwise (· < ·))
    (sorted' : l'.Pairwise (· < ·))
    (same : ∀ p, p ∈ l ↔ p ∈ l') : l = l' := by
  refine List.Perm.eq_of_pairwise (fun p q _ _ before after => Std.le_antisymm before after)
    (sorted.imp Std.le_of_lt) (sorted'.imp Std.le_of_lt) ?_
  exact (List.perm_ext_iff_of_nodup (sorted.imp fun before => Std.ne_of_lt before)
    (sorted'.imp fun before => Std.ne_of_lt before)).mpr same

def sole : Path := .child .root ⟨"a", by decide, by decide, by decide⟩

def inner : Path := sole.child ⟨"c", by decide, by decide, by decide⟩

def neighbour : Path := .child .root ⟨"a-b", by decide, by decide, by decide⟩

end Path

end DistFs
