import DistFs.Proofs.Tree.Refinement
import DistFs.Proofs.Tree.Walk

namespace DistFs

namespace Tree

variable {t : Tree} {l : Listing} {p : Path}

def entry? (t : Tree) (p : Path) : Option Entry := (t.find? p).map fun n => (t.node n).entry

def listNodes (t : Tree) (nodes : List NodeId) : Listing :=
  nodes.foldr (fun n l => PathMap.insert l (t.node n).path (t.node n).entry) PathMap.empty

theorem get?_listNodes (t : Tree) (nodes : List NodeId) (p : Path) :
    (t.listNodes nodes).get? p =
      (nodes.find? fun n => (t.node n).path = p).map fun n => (t.node n).entry := by
  induction nodes with
  | nil => rfl
  | cons n rest ih =>
    rw [listNodes, List.foldr_cons, ← listNodes, PathMap.get?_insert, List.find?_cons, ih]
    by_cases here : (t.node n).path = p
    · simp [here]
    · simp [here, Ne.symm here]

theorem find?_reachable (wf : t.WellFormed) (p : Path) :
    (t.reachable.find? fun n => (t.node n).path = p) = t.find? p := by
  cases found : t.find? p with
  | none =>
    refine List.find?_eq_none.mpr fun n visited same => ?_
    have there := (find?_eq_some_iff wf).mpr ⟨(mem_reachable wf).mp visited, of_decide_eq_true same⟩
    rw [found] at there
    cases there
  | some n =>
    obtain ⟨attached, path⟩ := (find?_eq_some_iff wf).mp found
    cases first : t.reachable.find? fun n => (t.node n).path = p with
    | none =>
      have visited := (mem_reachable wf).mpr attached
      exact absurd (decide_eq_true path) (List.find?_eq_none.mp first n visited)
    | some m =>
      have visited := (mem_reachable wf).mp (List.mem_of_find?_eq_some first)
      have same : (t.node m).path = p := by simpa using List.find?_some first
      rw [visited.eq_of_path wf attached (same.trans path.symm)]

theorem exists_shows (wf : t.WellFormed) : ∃ l, t.Shows l :=
  ⟨t.listNodes t.reachable, wf, fun p => by rw [get?_listNodes, find?_reachable wf]⟩

theorem Shows.entry? (h : t.Shows l) (p : Path) : t.entry? p = l.get? p := (h.entries p).symm

end Tree

end DistFs
