import DistFs.Proofs.Tree.Operations
import DistFs.Proofs.Tree.Walk
import Mathlib.Data.List.Sort
/-!
# The order of a walk

A walk keeps a list of what it has yet to visit. It comes to the nodes in the order of the recursive
traversal, which visits a node first and then, entry by entry, everything below it
(`walk_eq_flatMap`); and that is the order of their paths (`preorder_sorted`).
-/

namespace DistFs

namespace Tree

variable {t : Tree} {n m k : Nat}

theorem known_of_mem_children (member : m ∈ t.children n) : n < m ∧ m < t.size := by
  simp only [children, List.mem_mergeSort, List.mem_filter, List.mem_range, lists, Bool.and_eq_true,
    decide_eq_true_eq] at member
  exact ⟨member.2.1.1, member.1⟩

def preorder (t : Tree) (n : NodeId) : List NodeId :=
  n :: (t.children n).attach.flatMap fun m => t.preorder m.1
termination_by t.size - n
decreasing_by
  have := known_of_mem_children m.2
  omega

theorem preorder_eq (t : Tree) (n : NodeId) :
    t.preorder n = n :: (t.children n).flatMap t.preorder := by
  rw [preorder, List.flatMap_def, List.attach_map_val, List.flatMap_def]

theorem walk_eq_flatMap (t : Tree) (todo : List NodeId) :
    t.walk todo = todo.flatMap t.preorder := by
  induction todo using Tree.walk.induct t with
  | case1 => simp [walk]
  | case2 n rest ih =>
    rw [walk, ih, List.flatMap_append, List.flatMap_cons, preorder_eq t n, List.cons_append]

theorem walk_singleton (t : Tree) (n : NodeId) : t.walk [n] = t.preorder n := by
  rw [walk_eq_flatMap, List.flatMap_singleton]

theorem mem_preorder_iff_below : m ∈ t.preorder n ↔ t.Below n m := by
  rw [← walk_singleton, mem_walk]
  simp

theorem Below.isUnder (wf : t.WellFormed) (below : t.Below n m) :
    (t.node m).path.isUnder (t.node n).path = true := by
  induction below with
  | refl => exact Path.isUnder_refl _
  | tail _ child ih =>
    obtain ⟨-, -, entry⟩ := (mem_children wf).mp child
    obtain ⟨a, path⟩ := entry.path
    rw [path]
    exact Path.isUnder_trans (Path.isUnder_child _ a) ih

theorem below_iff (wf : t.WellFormed) (attached : t.Attached n) :
    t.Below n m ↔ t.Attached m ∧ (t.node m).path.isUnder (t.node n).path = true := by
  constructor
  · intro below
    refine ⟨?_, Below.isUnder wf below⟩
    induction below with
    | refl => exact attached
    | tail _ child ih =>
      obtain ⟨known, linked, entry⟩ := (mem_children wf).mp child
      exact (entry.attached_iff wf known).mpr ⟨linked, ih⟩
  · rintro ⟨there, under⟩
    -- A node below another one is a child of it, or its directory is below that one.
    apply wf.induct (motive := fun m => t.Attached m →
      (t.node m).path.isUnder (t.node n).path = true → t.Below n m) _ _ m there.known there under
    · intro there under
      rcases wf.mem_lineage_of_isUnder attached rootId there.known there under with rfl | member
      · exact .refl
      · rw [wf.root_lineage] at member
        cases member
    · intro k m known entry ih there under
      obtain ⟨linked, above⟩ := (entry.attached_iff wf known).mp there
      have child : m ∈ t.children k := (mem_children wf).mpr ⟨known, linked, entry⟩
      rcases wf.mem_lineage_of_isUnder attached m known there under with rfl | member
      · exact .refl
      · rw [entry.lineage] at member
        rcases List.mem_append.mp member with higher | parent
        · exact (ih above (wf.isUnder_of_mem_lineage above.known n higher)).tail child
        · obtain rfl := List.mem_singleton.mp parent
          exact .single child

theorem mem_preorder (wf : t.WellFormed) (attached : t.Attached n) :
    m ∈ t.preorder n ↔ t.Attached m ∧ (t.node m).path.isUnder (t.node n).path = true := by
  rw [mem_preorder_iff_below, below_iff wf attached]

theorem mem_preorder_root (wf : t.WellFormed) : m ∈ t.preorder rootId ↔ t.Attached m := by
  rw [← walk_singleton]
  exact mem_reachable wf

theorem preorder_sorted (wf : t.WellFormed) (n : NodeId) :
    (t.preorder n).Pairwise fun m k => (t.node m).path < (t.node k).path := by
  induction n using Tree.preorder.induct t with
  | case1 n ih =>
    have here {m k : Nat} (child : m ∈ t.children n) (visited : k ∈ t.preorder m) :
        (t.node k).path.isUnder (t.node m).path = true :=
      Below.isUnder wf (mem_preorder_iff_below.mp visited)
    rw [preorder_eq, List.pairwise_cons, List.pairwise_flatMap]
    refine ⟨fun k visited => ?_, fun m child => ih ⟨m, child⟩,
      (children_sorted wf n).imp_of_mem fun {m k} child child' before => ?_⟩
    · -- What is below an entry comes no sooner than the entry, and that after the node.
      obtain ⟨m, child, visited⟩ := List.mem_flatMap.mp visited
      obtain ⟨-, -, entry⟩ := (mem_children wf).mp child
      obtain ⟨a, path⟩ := entry.path
      have first : (t.node n).path < (t.node m).path := by
        rw [path]
        exact Path.lt_child _ a
      by_cases same : (t.node k).path = (t.node m).path
      · exact same ▸ first
      · exact Std.lt_trans first (Path.lt_of_isUnder (here child visited) same)
    · -- All that is below one entry comes before all that is below a later one.
      obtain ⟨-, -, entry⟩ := (mem_children wf).mp child
      obtain ⟨-, -, entry'⟩ := (mem_children wf).mp child'
      obtain ⟨a, path⟩ := entry.path
      obtain ⟨b, path'⟩ := entry'.path
      intro x visited y visited'
      have under := here child visited
      have under' := here child' visited'
      rw [path] at under before
      rw [path'] at under' before
      exact Path.lt_of_isUnder_child before under under'

theorem nodup_preorder (wf : t.WellFormed) (n : NodeId) : (t.preorder n).Nodup :=
  (preorder_sorted wf n).imp fun {m k} before same => by
    rw [same] at before
    exact Std.lt_irrefl before

theorem eq_preorder (wf : t.WellFormed) {l : List NodeId}
    (sorted : l.Pairwise fun m k => (t.node m).path < (t.node k).path)
    (same : ∀ m, m ∈ l ↔ m ∈ t.preorder n) : l = t.preorder n := by
  have : Std.Irrefl fun m k : Nat => (t.node m).path < (t.node k).path := ⟨fun _ => Std.lt_irrefl⟩
  have : Std.Antisymm fun m k : Nat => (t.node m).path < (t.node k).path :=
    ⟨fun _ _ before after => absurd after (Std.not_gt_of_lt before)⟩
  exact sorted.eq_of_mem_iff (preorder_sorted wf n) same

theorem preorder_of_sorted (wf : t.WellFormed)
    (sorted : ((List.range t.size).filter fun m => t.find? (t.node m).path = some m).Pairwise
      fun m k => (t.node m).path < (t.node k).path) :
    t.preorder rootId = (List.range t.size).filter fun m => t.find? (t.node m).path = some m := by
  refine (eq_preorder wf sorted fun m => ?_).symm
  rw [mem_preorder_root wf, List.mem_filter, List.mem_range, decide_eq_true_eq,
    find?_eq_some_iff wf]
  exact ⟨fun there => there.2.1, fun attached => ⟨attached.known, attached, rfl⟩⟩

end Tree

end DistFs
