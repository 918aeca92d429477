import DistFs.Tree
import DistFs.Proofs.Path
/-!
# The shape of the directory tree

Every node but the root was made as an entry of a directory, and two entries that a directory lists
at one time differ in their names. So a path leads to at most one node, and a node is found at its
path exactly if no directory on the way has unlinked it (`find?_eq_some_iff`).
-/

namespace DistFs

namespace Tree

variable {t u : Tree} {n m k : Nat}

/-! ## Nodes after a change -/

theorem node_of_size_le (h : t.size ≤ n) : t.node n = default := by
  simp only [node, size] at h ⊢
  simp [h]

@[simp] theorem size_modify (t : Tree) (k : Nat) (change : Node → Node) :
    (t.modify k change).size = t.size := by
  simp [modify, size]

theorem node_modify (t : Tree) (k n : Nat) (change : Node → Node) :
    (t.modify k change).node n = if n = k ∧ n < t.size then change (t.node n) else t.node n := by
  simp only [modify, node, size, Array.getD_eq_getD_getElem?, Array.getElem?_modify]
  by_cases same : k = n
  · subst same
    by_cases known : k < t.nodes.size <;> simp [known]
  · simp [same, Ne.symm same]

@[simp] theorem size_insert (t : Tree) (m : Nat) (x : Node) :
    (t.insert m x).2.size = t.size + 1 := by
  simp [insert, push, size]

@[simp] theorem fst_insert (t : Tree) (m : Nat) (x : Node) : (t.insert m x).1 = t.size := rfl

@[simp] theorem pool_insert (t : Tree) (m : Nat) (x : Node) :
    (t.insert m x).2.pool = t.pool := rfl

theorem node_insert (t : Tree) (m n : Nat) (x : Node) :
    (t.insert m x).2.node n =
      if n = t.size then { x with lineage := (t.node m).lineage ++ [m] } else t.node n := by
  simp only [insert, push, node, size, Array.getD_eq_getD_getElem?, Array.getElem?_push]
  by_cases same : n = t.nodes.size <;> simp [same]

/-! ## Well-formed trees -/

/-- The node `n` was made as an entry of the directory `m`. -/
structure EntryOf (t : Tree) (m n : Nat) : Prop where
  younger : m < n
  lineage : (t.node n).lineage = (t.node m).lineage ++ [m]
  path : ∃ a, (t.node n).path = (t.node m).path.child a
  directory : (t.node m).isFile = false
  kind : (t.node n).kind ≠ .root

structure WellFormed (t : Tree) : Prop where
  nonempty : 0 < t.size
  root_path : (t.node rootId).path = .root
  root_kind : (t.node rootId).kind = .root
  root_lineage : (t.node rootId).lineage = []
  root_linked : (t.node rootId).linked = true
  entry : ∀ n, n < t.size → n ≠ rootId → ∃ m, t.EntryOf m n
  unique : ∀ m n, m < t.size → n < t.size → (t.node m).linked = true → (t.node n).linked = true →
    (t.node m).parent? = (t.node n).parent? → (t.node m).path = (t.node n).path → m = n

theorem wellFormed_empty (threshold : Nat) : (empty threshold).WellFormed := by
  refine ⟨Nat.one_pos, rfl, rfl, rfl, rfl, ?_, ?_⟩ <;>
    simp only [size, empty, List.size_toArray, List.length_singleton, Nat.lt_one_iff, rootId]
  · intro n first other
    exact absurd first other
  · intro m n first first' _ _ _ _
    exact first.trans first'.symm

namespace EntryOf

theorem parent? (h : t.EntryOf m n) : (t.node n).parent? = some m := by
  simp [Node.parent?, h.lineage]

theorem mem_lineage (h : t.EntryOf m n) : m ∈ (t.node n).lineage := by
  simp [h.lineage]

theorem of_parent? (wf : t.WellFormed) (known : n < t.size)
    (h : (t.node n).parent? = some m) : t.EntryOf m n := by
  by_cases root : n = rootId
  · subst root
    simp [Node.parent?, wf.root_lineage] at h
  · obtain ⟨k, entry⟩ := wf.entry n known root
    rw [entry.parent?, Option.some.injEq] at h
    exact h ▸ entry

end EntryOf

namespace WellFormed

theorem induct (wf : t.WellFormed) {motive : Nat → Prop} (root : motive rootId)
    (entry : ∀ m n, n < t.size → t.EntryOf m n → motive m → motive n) :
    ∀ n, n < t.size → motive n := by
  intro n known
  induction n using Nat.strongRecOn with
  | _ n ih =>
    by_cases first : n = rootId
    · exact first ▸ root
    · obtain ⟨m, h⟩ := wf.entry n known first
      exact entry m n known h (ih m h.younger (Nat.lt_trans h.younger known))

theorem lineage_lt (wf : t.WellFormed) (known : n < t.size) :
    ∀ m ∈ (t.node n).lineage, m < n := by
  refine wf.induct (motive := fun n => ∀ m ∈ (t.node n).lineage, m < n) ?_ ?_ n known
  · simp [wf.root_lineage]
  · intro m n _ h ih k member
    rw [h.lineage, List.mem_append, List.mem_singleton] at member
    rcases member with above | rfl
    · exact Nat.lt_trans (ih k above) h.younger
    · exact h.younger

theorem lineage_known (wf : t.WellFormed) (known : n < t.size) (member : m ∈ (t.node n).lineage) :
    m < t.size :=
  Nat.lt_trans (wf.lineage_lt known m member) known

theorem lineage_trans (wf : t.WellFormed) (known : n < t.size) :
    ∀ m ∈ (t.node n).lineage, ∀ k ∈ (t.node m).lineage, k ∈ (t.node n).lineage := by
  refine wf.induct (motive := fun n => ∀ m ∈ (t.node n).lineage, ∀ k ∈ (t.node m).lineage,
    k ∈ (t.node n).lineage) ?_ ?_ n known
  · simp [wf.root_lineage]
  · intro m n _ h ih l member k above
    rw [h.lineage, List.mem_append, List.mem_singleton] at member ⊢
    rcases member with higher | rfl
    · exact .inl (ih l higher k above)
    · exact .inl above

theorem isUnder_of_mem_lineage (wf : t.WellFormed) (known : n < t.size) :
    ∀ m ∈ (t.node n).lineage, (t.node n).path.isUnder (t.node m).path = true := by
  refine wf.induct (motive := fun n => ∀ m ∈ (t.node n).lineage,
    (t.node n).path.isUnder (t.node m).path = true) ?_ ?_ n known
  · simp [wf.root_lineage]
  · intro m n _ h ih k member
    obtain ⟨a, path⟩ := h.path
    rw [path]
    rw [h.lineage, List.mem_append, List.mem_singleton] at member
    rcases member with above | rfl
    · exact Path.isUnder_trans (Path.isUnder_child _ _) (ih k above)
    · exact Path.isUnder_child _ _

theorem directory_of_mem_lineage (wf : t.WellFormed) (known : n < t.size) :
    ∀ m ∈ (t.node n).lineage, (t.node m).isFile = false := by
  refine wf.induct (motive := fun n => ∀ m ∈ (t.node n).lineage, (t.node m).isFile = false)
    ?_ ?_ n known
  · simp [wf.root_lineage]
  · intro m n _ h ih k member
    rw [h.lineage, List.mem_append, List.mem_singleton] at member
    cases member with
    | inl above => exact ih k above
    | inr same => exact same ▸ h.directory

theorem eq_rootId (wf : t.WellFormed) (known : n < t.size) (path : (t.node n).path = .root) :
    n = rootId := by
  by_contra other
  obtain ⟨m, h⟩ := wf.entry n known other
  obtain ⟨a, child⟩ := h.path
  exact Path.child_ne_root _ _ (child.symm.trans path)

end WellFormed

/-! ## Lookup -/

theorem lists_iff (wf : t.WellFormed) (known : n < t.size) :
    t.lists m n = true ↔ (t.node n).linked = true ∧ t.EntryOf m n := by
  simp only [lists, Bool.and_eq_true, decide_eq_true_eq]
  constructor
  · rintro ⟨⟨-, linked⟩, parent⟩
    exact ⟨linked, .of_parent? wf known parent⟩
  · rintro ⟨linked, h⟩
    exact ⟨⟨h.younger, linked⟩, h.parent?⟩

theorem mem_children (wf : t.WellFormed) :
    m ∈ t.children n ↔ m < t.size ∧ (t.node m).linked = true ∧ t.EntryOf n m := by
  simp only [children, List.mem_mergeSort, List.mem_filter, List.mem_range]
  constructor
  · rintro ⟨known, listed⟩
    exact ⟨known, (lists_iff wf known).mp listed⟩
  · rintro ⟨known, listed⟩
    exact ⟨known, (lists_iff wf known).mpr listed⟩

theorem nodup_children (t : Tree) (n : Nat) : (t.children n).Nodup :=
  (List.mergeSort_perm _ _).nodup_iff.mpr (List.nodup_range.filter _)

theorem children_sorted (wf : t.WellFormed) (n : Nat) :
    (t.children n).Pairwise fun m k => (t.node m).path < (t.node k).path := by
  have sorted : (t.children n).Pairwise fun m k => (t.node m).path ≤ (t.node k).path := by
    refine (List.pairwise_mergeSort ?_ ?_ _).imp of_decide_eq_true
    · intro a b c h h'
      exact decide_eq_true (Std.le_trans (of_decide_eq_true h) (of_decide_eq_true h'))
    · intro a b
      simpa using Std.le_total
  apply (sorted.and (nodup_children t n)).imp_of_mem
  rintro m k listed listed' ⟨le, other⟩
  obtain ⟨known, linked, entry⟩ := (mem_children wf).mp listed
  obtain ⟨known', linked', entry'⟩ := (mem_children wf).mp listed'
  refine Std.lt_of_le_of_ne le fun same => other ?_
  exact wf.unique m k known known' linked linked' (entry.parent?.trans entry'.parent?.symm) same

theorem child?_eq_some_iff (wf : t.WellFormed) {a : Name} :
    t.child? m a = some n ↔ n < t.size ∧ (t.node n).linked = true ∧ t.EntryOf m n ∧
      (t.node n).path = (t.node m).path.child a := by
  constructor
  · intro found
    have holds := List.find?_some found
    have known := List.mem_range.mp (List.mem_of_find?_eq_some found)
    simp only [Bool.and_eq_true, decide_eq_true_eq] at holds
    obtain ⟨linked, h⟩ := (lists_iff wf known).mp holds.1
    obtain ⟨b, path⟩ := h.path
    have same : b = a := by simpa [path] using holds.2
    exact ⟨known, linked, h, same ▸ path⟩
  · rintro ⟨known, linked, h, path⟩
    have listed : (t.lists m n && (t.node n).path.last? = some a) = true := by
      simp [(lists_iff wf known).mpr ⟨linked, h⟩, path]
    cases found : t.child? m a with
    | none =>
      have absent := List.find?_eq_none.mp found n (List.mem_range.mpr known)
      exact absurd listed absent
    | some k =>
      have holds := List.find?_some found
      have bound := List.mem_range.mp (List.mem_of_find?_eq_some found)
      simp only [Bool.and_eq_true, decide_eq_true_eq] at holds
      obtain ⟨linked', h'⟩ := (lists_iff wf bound).mp holds.1
      obtain ⟨b, path'⟩ := h'.path
      have name : b = a := by simpa [path'] using holds.2
      have same : k = n := wf.unique k n bound known linked' linked
        (h'.parent?.trans h.parent?.symm) (by rw [path', path, name])
      rw [same]

@[simp] theorem find?_root (t : Tree) : t.find? .root = some rootId := rfl

theorem find?_child (t : Tree) (p : Path) (a : Name) :
    t.find? (p.child a) = (t.find? p).bind (t.child? · a) := by
  simp only [find?, Path.names_child, List.foldlM_append, List.foldlM_cons, List.foldlM_nil]
  cases List.foldlM t.child? rootId p.names with
  | none => rfl
  | some n => cases h : t.child? n a <;> simp [h, bind, pure]

theorem find?_eq_none_of_isUnder {p q : Path} (absent : t.find? p = none)
    (under : q.isUnder p = true) : t.find? q = none := by
  obtain ⟨rest, names⟩ := Path.isUnder_iff.mp under
  unfold find? at absent ⊢
  rw [← names, List.foldlM_append, absent]
  rfl

/-- The node is in the tree: neither it nor a directory above it was removed. -/
structure Attached (t : Tree) (n : NodeId) : Prop where
  known : n < t.size
  linked : (t.node n).linked = true
  above : ∀ m ∈ (t.node n).lineage, (t.node m).linked = true

theorem WellFormed.attached_root (wf : t.WellFormed) : t.Attached rootId :=
  ⟨wf.nonempty, wf.root_linked, by simp [wf.root_lineage]⟩

theorem EntryOf.attached_iff (wf : t.WellFormed) (known : n < t.size) (h : t.EntryOf m n) :
    t.Attached n ↔ (t.node n).linked = true ∧ t.Attached m := by
  constructor
  · intro attached
    refine ⟨attached.linked, Nat.lt_trans h.younger known, attached.above m h.mem_lineage, ?_⟩
    intro k member
    exact attached.above k (wf.lineage_trans known m h.mem_lineage k member)
  · rintro ⟨linked, attached⟩
    refine ⟨known, linked, ?_⟩
    intro k member
    rw [h.lineage, List.mem_append, List.mem_singleton] at member
    rcases member with above | rfl
    · exact attached.above k above
    · exact attached.linked

theorem find?_eq_some_iff (wf : t.WellFormed) {p : Path} :
    t.find? p = some n ↔ t.Attached n ∧ (t.node n).path = p := by
  constructor
  · intro found
    induction hp : p.names using List.reverseRecOn generalizing p n with
    | nil =>
      obtain rfl : p = .root := by cases p; simp_all [Path.root]
      obtain rfl : rootId = n := by simpa using found
      exact ⟨wf.attached_root, wf.root_path⟩
    | append_singleton names a ih =>
      obtain rfl : p = (⟨names⟩ : Path).child a := by cases p; simp_all [Path.child]
      rw [find?_child, Option.bind_eq_some_iff] at found
      obtain ⟨m, above, here⟩ := found
      obtain ⟨known, linked, h, path⟩ := (child?_eq_some_iff wf).mp here
      obtain ⟨attached, place⟩ := ih above rfl
      exact ⟨(h.attached_iff wf known).mpr ⟨linked, attached⟩, by rw [path, place]⟩
  · rintro ⟨attached, rfl⟩
    refine wf.induct (motive := fun n => t.Attached n → t.find? (t.node n).path = some n)
      ?_ ?_ n attached.known attached
    · intro _
      rw [wf.root_path, find?_root]
    · intro m n known h ih attached
      obtain ⟨linked, above⟩ := (h.attached_iff wf known).mp attached
      obtain ⟨a, path⟩ := h.path
      rw [path, find?_child, ih above]
      exact (child?_eq_some_iff wf).mpr ⟨known, linked, h, path⟩

theorem find?_lineage (wf : t.WellFormed) (attached : t.Attached n) :
    (t.node n).lineage.map some = (t.node n).path.ancestors.map t.find? := by
  refine wf.induct (motive := fun n => t.Attached n →
    (t.node n).lineage.map some = (t.node n).path.ancestors.map t.find?)
    ?_ ?_ n attached.known attached
  · simp [wf.root_lineage, wf.root_path]
  · intro m n known h ih attached
    have above := ((h.attached_iff wf known).mp attached).2
    obtain ⟨a, path⟩ := h.path
    rw [path, Path.ancestors_child, h.lineage, List.map_append, List.map_append, ih above,
      List.map_singleton, List.map_singleton, (find?_eq_some_iff wf).mpr ⟨above, rfl⟩]

theorem mem_lineage_iff (wf : t.WellFormed) {p : Path} (found : t.find? p = some n) :
    m ∈ (t.node n).lineage ↔ ∃ q ∈ p.ancestors, t.find? q = some m := by
  obtain ⟨attached, rfl⟩ := (find?_eq_some_iff wf).mp found
  rw [← List.mem_map, ← find?_lineage wf attached]
  simp

theorem Attached.eq_of_path (wf : t.WellFormed) (attached : t.Attached m) (attached' : t.Attached n)
    (path : (t.node m).path = (t.node n).path) : m = n := by
  have found := (find?_eq_some_iff wf).mpr ⟨attached, path⟩
  rw [(find?_eq_some_iff wf).mpr ⟨attached', rfl⟩, Option.some.injEq] at found
  exact found.symm

theorem get_eq_ok_iff {p : Path} : t.get p = .ok n ↔ t.find? p = some n := by
  unfold get
  cases t.find? p <;> simp

end Tree

end DistFs
