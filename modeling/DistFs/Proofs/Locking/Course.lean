import DistFs.Proofs.Locking.Table
import DistFs.Proofs.Tree.Growth
/-!
# The order in which nodes are taken

A request takes nodes by depth, and by path within one depth: first what lies above its target, then
the target, then level by level what lies below. The children of a node come last, and after every
other node that is still to be taken, as the parents of these were taken before it.
-/

namespace DistFs

namespace Path

variable {p q r : Path} {a b : Name}

def Before (p q : Path) : Prop := p.depth < q.depth ∨ p.depth = q.depth ∧ p < q

namespace Before

theorem irrefl (p : Path) : ¬ p.Before p := by
  rintro (deeper | ⟨-, later⟩)
  · exact Nat.lt_irrefl _ deeper
  · exact Std.lt_irrefl later

theorem trans (h : p.Before q) (h' : q.Before r) : p.Before r := by
  rcases h with deeper | ⟨level, later⟩ <;> rcases h' with deeper' | ⟨level', later'⟩
  · exact .inl (Nat.lt_trans deeper deeper')
  · exact .inl (level' ▸ deeper)
  · exact .inl (level ▸ deeper')
  · exact .inr ⟨level.trans level', Std.lt_trans later later'⟩

theorem depth_le (h : p.Before q) : p.depth ≤ q.depth := by
  rcases h with deeper | ⟨level, -⟩
  · exact Nat.le_of_lt deeper
  · exact Nat.le_of_eq level

theorem of_depth_lt (h : p.depth < q.depth) : p.Before q := .inl h

end Before

theorem depth_child (p : Path) (a : Name) : (p.child a).depth = p.depth + 1 := by
  simp [depth]

theorem append_lt_append {l l' : List Name} (level : l.length = l'.length) (later : l < l')
    (r r' : List Name) : l ++ r < l' ++ r' := by
  induction l generalizing l' with
  | nil =>
    cases l' with
    | nil => exact absurd later (List.lt_irrefl _)
    | cons => simp at level
  | cons x l ih =>
    cases l' with
    | nil => simp at level
    | cons y l' =>
      rw [List.cons_lt_cons_iff] at later
      rw [List.cons_append, List.cons_append, List.cons_lt_cons_iff]
      exact later.imp_right fun h => ⟨h.1, ih (by simpa using level) h.2⟩

theorem Before.child (h : p.Before q) : (p.child a).Before (q.child b) := by
  rcases h with deeper | ⟨level, later⟩
  · exact .inl (by simpa only [depth_child, Nat.add_lt_add_iff_right] using deeper)
  · exact .inr ⟨by simp only [depth_child, level], append_lt_append level later _ _⟩

end Path

namespace Tree

variable {t u : Tree} {n m : Nat}

theorem EntryOf.depth (h : t.EntryOf m n) :
    (t.node n).path.depth = (t.node m).path.depth + 1 := by
  obtain ⟨a, path⟩ := h.path
  rw [path, Path.depth_child]

theorem WellFormed.depth_lt (wf : t.WellFormed) (known : n < t.size)
    (member : m ∈ (t.node n).lineage) : (t.node m).path.depth < (t.node n).path.depth := by
  refine wf.induct (motive := fun n => ∀ m ∈ (t.node n).lineage,
    (t.node m).path.depth < (t.node n).path.depth) ?_ ?_ n known m member
  · simp [wf.root_lineage]
  · intro m n _ h ih k member
    rw [h.depth]
    rw [h.lineage, List.mem_append, List.mem_singleton] at member
    rcases member with above | rfl
    · exact Nat.lt_succ_of_lt (ih k above)
    · exact Nat.lt_succ_self _

theorem known_of_mem_lineage (member : m ∈ (t.node n).lineage) : n < t.size := by
  by_contra unknown
  rw [node_of_size_le (Nat.not_lt.mp unknown)] at member
  cases member

theorem lineage_ordered (wf : t.WellFormed) (known : n < t.size) :
    ((t.node n).lineage).Pairwise fun m k => (t.node m).path.Before (t.node k).path := by
  refine wf.induct (motive := fun n => ((t.node n).lineage).Pairwise
    fun m k => (t.node m).path.Before (t.node k).path) ?_ ?_ n known
  · simp [wf.root_lineage]
  · intro m n known h ih
    rw [h.lineage]
    refine List.pairwise_append.mpr ⟨ih, List.pairwise_singleton .., ?_⟩
    intro k above l last
    rw [List.mem_singleton.mp last]
    exact .of_depth_lt (wf.depth_lt (Nat.lt_trans h.younger known) above)

theorem children_ordered (wf : t.WellFormed) (n : Nat) :
    (t.children n).Pairwise fun m k => (t.node m).path.Before (t.node k).path := by
  apply (children_sorted wf n).imp_of_mem
  intro m k listed listed' before
  obtain ⟨-, -, entry⟩ := (mem_children wf).mp listed
  obtain ⟨-, -, entry'⟩ := (mem_children wf).mp listed'
  exact .inr ⟨by rw [entry.depth, entry'.depth], before⟩

end Tree

namespace Acquisition

variable {t u : Tree} {a b : Acquisition} {n m : Nat} {mode : LockMode}

def nodes (a : Acquisition) : List (NodeId × LockMode) := a.taken ++ a.pending

theorem nodes_take {rest : List (NodeId × LockMode)} (t : Tree)
    (pending : a.pending = (n, mode) :: rest) : (a.take t n mode rest).nodes =
      a.nodes ++ match mode with
        | .shared => []
        | .exclusive => (t.children n).map (·, .exclusive) := by
  cases mode <;> simp [nodes, take, pending]

structure OnCourse (t : Tree) (a : Acquisition) : Prop where
  known : a.target < t.size
  path : (t.node a.target).path = a.path
  reader : a.mode = .shared → a.nodes = [(a.target, .shared)]
  above : a.mode = .exclusive → ∀ n, (n, .shared) ∈ a.nodes ↔ n ∈ (t.node a.target).lineage
  below : ∀ n, (n, .exclusive) ∈ a.nodes → n = a.target ∨ a.target ∈ (t.node n).lineage
  target : a.mode = .exclusive → (a.target, .exclusive) ∈ a.nodes
  ordered : a.nodes.Pairwise fun x y => (t.node x.1).path.Before (t.node y.1).path
  parents : ∀ n, (n, .exclusive) ∈ a.pending →
    n = a.target ∨ ∃ m, (m, .exclusive) ∈ a.taken ∧ t.EntryOf m n

theorem onCourse_start (wf : t.WellFormed) {p : Path} (found : t.find? p = some n)
    (mode : LockMode) : (Acquisition.start t p mode n).OnCourse t := by
  obtain ⟨attached, path⟩ := (Tree.find?_eq_some_iff wf).mp found
  have known := attached.known
  cases mode with
  | shared =>
    refine ⟨known, path, fun _ => rfl, ?_, ?_, ?_, ?_, ?_⟩ <;> simp [start, nodes]
  | exclusive =>
    refine ⟨known, path, ?_, ?_, ?_, ?_, ?_, ?_⟩
    · simp [start]
    · simp [start, nodes]
    · simp [start, nodes]
    · simp [start, nodes]
    · simp only [start, nodes, List.nil_append]
      refine List.pairwise_append.mpr ⟨?_, List.pairwise_singleton .., ?_⟩
      · exact List.pairwise_map.mpr (Tree.lineage_ordered wf known)
      · intro x above y last
        obtain ⟨m, member, rfl⟩ := List.mem_map.mp above
        rw [List.mem_singleton.mp last]
        exact .of_depth_lt (wf.depth_lt known member)
    · simp [start]

namespace OnCourse

theorem nodes_known (h : a.OnCourse t) (wf : t.WellFormed) {x : NodeId × LockMode}
    (member : x ∈ a.nodes) : x.1 < t.size := by
  obtain ⟨n, mode⟩ := x
  cases mode with
  | exclusive =>
    rcases h.below n member with rfl | under
    · exact h.known
    · exact Tree.known_of_mem_lineage under
  | shared =>
    cases mode : a.mode with
    | shared =>
      rw [h.reader mode, List.mem_singleton] at member
      rw [member]
      exact h.known
    | exclusive => exact wf.lineage_known h.known ((h.above mode n).mp member)

theorem nodup_nodes (h : a.OnCourse t) : (a.nodes.map Prod.fst).Nodup := by
  refine List.pairwise_map.mpr (h.ordered.imp fun {x y} before same => ?_)
  rw [same] at before
  exact Path.Before.irrefl _ before

theorem extend (h : a.OnCourse t) (wf : t.WellFormed) (ext : t.Extends u) : a.OnCourse u := by
  refine ⟨ext.known h.known, (ext.same _ h.known).path.trans h.path, h.reader, ?_, ?_, h.target,
    ?_, ?_⟩
  · intro mode n
    rw [(ext.same _ h.known).lineage]
    exact h.above mode n
  · intro n member
    rw [(ext.same n (h.nodes_known wf member)).lineage]
    exact h.below n member
  · apply h.ordered.imp_of_mem
    intro x y member member' before
    rw [(ext.same _ (h.nodes_known wf member)).path, (ext.same _ (h.nodes_known wf member')).path]
    exact before
  · intro n member
    apply (h.parents n member).imp_right
    rintro ⟨m, taken, entry⟩
    have known := h.nodes_known wf (List.mem_append_right a.taken member)
    exact ⟨m, taken, ext.entryOf known entry⟩

theorem mode_exclusive (h : a.OnCourse t) (member : (n, .exclusive) ∈ a.nodes) :
    a.mode = .exclusive := by
  cases mode : a.mode with
  | exclusive => rfl
  | shared => simp [h.reader mode] at member

theorem target_depth_le (h : a.OnCourse t) (wf : t.WellFormed)
    (member : (n, .exclusive) ∈ a.nodes) :
    (t.node a.target).path.depth ≤ (t.node n).path.depth := by
  rcases h.below n member with rfl | under
  · exact Nat.le_refl _
  · exact Nat.le_of_lt (wf.depth_lt (h.nodes_known wf member) under)

theorem before_children {rest : List (NodeId × LockMode)} (h : a.OnCourse t) (wf : t.WellFormed)
    (pending : a.pending = (n, .exclusive) :: rest) (entry : t.EntryOf n m)
    {x : NodeId × LockMode} (member : x ∈ a.nodes) :
    (t.node x.1).path.Before (t.node m).path := by
  have head : (n, .exclusive) ∈ a.nodes := by simp [nodes, pending]
  have bound := h.target_depth_le wf head
  have order := h.ordered
  rw [nodes, pending, List.pairwise_append] at order
  obtain ⟨-, -, taken_before⟩ := order
  have depth := entry.depth
  obtain ⟨y, mode⟩ := x
  change (t.node y).path.Before (t.node m).path
  rw [nodes, List.mem_append] at member
  rcases member with taken | later
  · have bound' : (t.node y).path.depth ≤ (t.node n).path.depth :=
      (taken_before _ taken (n, .exclusive) List.mem_cons_self).depth_le
    exact .of_depth_lt (by omega)
  · cases mode with
    | shared =>
      have above := (h.above (h.mode_exclusive head) y).mp (List.mem_append_right a.taken later)
      have := wf.depth_lt h.known above
      exact .of_depth_lt (by omega)
    | exclusive =>
      rcases h.parents y later with rfl | ⟨q, taken, parent⟩
      · exact .of_depth_lt (by omega)
      · -- The parent of `y` was taken before `n`, so its children come before those of `n`.
        have before := taken_before _ taken (n, .exclusive) List.mem_cons_self
        obtain ⟨c, path⟩ := parent.path
        obtain ⟨d, path'⟩ := entry.path
        rw [path, path']
        exact before.child

theorem take {rest : List (NodeId × LockMode)} (h : a.OnCourse t) (wf : t.WellFormed)
    (pending : a.pending = (n, mode) :: rest) : (a.take t n mode rest).OnCourse t := by
  have head : (n, mode) ∈ a.nodes := by simp [nodes, pending]
  have parents (m : Nat) (later : (m, .exclusive) ∈ rest) :
      m = a.target ∨ ∃ k, (k, .exclusive) ∈ a.taken ++ [(n, mode)] ∧ t.EntryOf k m :=
    (h.parents m (by simp [pending, later])).imp_right fun ⟨k, taken, entry⟩ =>
      ⟨k, List.mem_append_left _ taken, entry⟩
  cases mode with
  | shared =>
    have same : (a.take t n .shared rest).nodes = a.nodes :=
      (nodes_take t pending).trans (List.append_nil _)
    exact ⟨h.known, h.path, same ▸ h.reader, same ▸ h.above, same ▸ h.below, same ▸ h.target,
      same ▸ h.ordered,
      fun m later => parents m (by simpa [Acquisition.take] using later)⟩
  | exclusive =>
    have more := nodes_take t pending
    have writer := h.mode_exclusive head
    refine ⟨h.known, h.path, ?_, ?_, ?_, ?_, ?_, ?_⟩
    · intro reader
      exact absurd (writer.symm.trans reader) (by simp)
    · intro _ m
      rw [more]
      refine .trans ?_ (h.above writer m)
      simp
    · intro m member
      rw [more, List.mem_append] at member
      rcases member with old | new
      · exact h.below m old
      · obtain ⟨k, listed, same⟩ := List.mem_map.mp new
        obtain rfl : k = m := (Prod.mk.inj same).1
        obtain ⟨-, -, entry⟩ := (Tree.mem_children wf).mp listed
        change k = a.target ∨ a.target ∈ (t.node k).lineage
        rw [entry.lineage, List.mem_append, List.mem_singleton]
        exact .inr ((h.below n head).symm.imp_right Eq.symm)
    · intro _
      rw [more]
      exact List.mem_append_left _ (h.target writer)
    · rw [more, List.pairwise_append]
      refine ⟨h.ordered, List.pairwise_map.mpr (Tree.children_ordered wf n), ?_⟩
      intro x old y new
      obtain ⟨m, listed, rfl⟩ := List.mem_map.mp new
      exact h.before_children wf pending ((Tree.mem_children wf).mp listed).2.2 old
    · intro m member
      simp only [Acquisition.take, List.mem_append] at member
      rcases member with later | new
      · exact parents m later
      · obtain ⟨k, listed, same⟩ := List.mem_map.mp new
        obtain rfl : k = m := (Prod.mk.inj same).1
        exact .inr ⟨n, by simp [Acquisition.take], ((Tree.mem_children wf).mp listed).2.2⟩

theorem reaches (h : a.OnCourse t) (wf : t.WellFormed) (reached : a.Reaches t b) :
    b.OnCourse t := by
  induction reached with
  | refl => exact h
  | tail _ step ih =>
    obtain ⟨n, mode, rest, pending, rfl⟩ := step
    exact ih.take wf pending

end OnCourse

theorem Reaches.same (reached : a.Reaches t b) :
    b.path = a.path ∧ b.mode = a.mode ∧ b.target = a.target := by
  induction reached with
  | refl => exact ⟨rfl, rfl, rfl⟩
  | tail _ step ih =>
    obtain ⟨n, mode, rest, -, rfl⟩ := step
    exact ih

end Acquisition

end DistFs
