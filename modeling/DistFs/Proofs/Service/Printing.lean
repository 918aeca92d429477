import DistFs.Proofs.Service.Reachable
import DistFs.Proofs.Storage.Contents
import DistFs.Proofs.Tree.Preorder
import DistFs.Session
import Mathlib.Data.List.Perm.Subperm

namespace DistFs

namespace Command

variable {c : Cluster} {n : NodeId} {p : Path}

def shown (x : Node) : String :=
  if x.isFile then x.path.text else if x.path = .root then "/" else x.path.text ++ "/"

theorem line_eq_shown (x : Node) : line x.path (!x.isFile) = shown x := by
  unfold line shown
  cases x.isFile with
  | true => rfl
  | false =>
    by_cases root : x.path = .root
    · rw [root]
      rfl
    · simp [root]

/-! ## The walk -/

theorem isDirectory_of_found (found : c.tree.find? p = some n) :
    c.isDirectory p = .ok (!(c.tree.node n).isFile) := by
  rw [Cluster.isDirectory, Tree.get_eq_ok_iff.mpr found]
  rfl

theorem list_of_found (wf : c.tree.WellFormed) (found : c.tree.find? p = some n)
    (directory : (c.tree.node n).isFile = false) :
    ∃ names, c.list p = .ok names ∧
      names.map p.child = (c.tree.children n).map fun m => (c.tree.node m).path := by
  obtain ⟨-, rfl⟩ := (Tree.find?_eq_some_iff wf).mp found
  refine ⟨(c.tree.children n).filterMap fun m => (c.tree.node m).path.last?, ?_, ?_⟩
  · rw [Cluster.list, Tree.entries, Tree.get_eq_ok_iff.mpr found]
    simp [directory, Bind.bind, Except.bind, pure, Except.pure]
  · rw [List.map_filterMap, ← List.filterMap_eq_map]
    refine List.filterMap_congr fun m child => ?_
    obtain ⟨-, -, entry⟩ := (Tree.mem_children wf).mp child
    obtain ⟨a, path⟩ := entry.path
    simp [path]

theorem printTree_directory {names : List Name} {fuel : Nat} (todo : List Path)
    (directory : c.isDirectory p = .ok true) (listed : c.list p = .ok names) :
    printTree c (fuel + 1) (p :: todo) =
      (printTree c fuel (names.map p.child ++ todo)).map (line p true :: ·) := by
  rw [printTree]
  simp only [directory, listed, Bind.bind, Except.bind, if_true]
  cases printTree c fuel (names.map p.child ++ todo) <;> rfl

theorem printTree_file {fuel : Nat} (todo : List Path) (file : c.isDirectory p = .ok false) :
    printTree c (fuel + 1) (p :: todo) = (printTree c fuel todo).map (line p false :: ·) := by
  rw [printTree]
  simp only [file, Bind.bind, Except.bind, Bool.false_eq_true, if_false]
  cases printTree c fuel todo <;> rfl

/-- What is printed for some nodes is all that is below them, in the order of a traversal. -/
theorem printTree_eq_ok (wf : c.tree.WellFormed) (fuel : Nat) (ns : List NodeId)
    (attached : ∀ n ∈ ns, c.tree.Attached n)
    (enough : (ns.flatMap c.tree.preorder).length ≤ fuel) :
    printTree c fuel (ns.map fun n => (c.tree.node n).path) =
      .ok ((ns.flatMap c.tree.preorder).map fun m => shown (c.tree.node m)) := by
  induction fuel generalizing ns with
  | zero =>
    cases ns with
    | nil => rfl
    | cons n rest => simp [Tree.preorder_eq c.tree n] at enough
  | succ fuel ih =>
    cases ns with
    | nil => rfl
    | cons n rest =>
      obtain ⟨here, later⟩ := List.forall_mem_cons.mp attached
      have found : c.tree.find? (c.tree.node n).path = some n :=
        (Tree.find?_eq_some_iff wf).mpr ⟨here, rfl⟩
      have isDirectory := isDirectory_of_found found
      -- A node is taken off the list and its entries are put there: together they are the same
      -- traversal, and one node less is left to print.
      have order : (n :: rest).flatMap c.tree.preorder =
          n :: (c.tree.children n ++ rest).flatMap c.tree.preorder := by
        rw [List.flatMap_cons, Tree.preorder_eq c.tree n, List.flatMap_append, List.cons_append]
      rw [order, List.length_cons, Nat.add_le_add_iff_right] at enough
      have below (m : NodeId) (member : m ∈ c.tree.children n ++ rest) : c.tree.Attached m := by
        rcases List.mem_append.mp member with child | waiting
        · obtain ⟨known, linked, entry⟩ := (Tree.mem_children wf).mp child
          exact (entry.attached_iff wf known).mpr ⟨linked, here⟩
        · exact later m waiting
      have printed := ih (c.tree.children n ++ rest) below enough
      rw [order, List.map_cons, List.map_cons, ← line_eq_shown]
      cases file : (c.tree.node n).isFile with
      | false =>
        obtain ⟨names, listed, paths⟩ := list_of_found wf found file
        rw [file] at isDirectory
        rw [printTree_directory _ isDirectory listed, paths, ← List.map_append, printed]
        rfl
      | true =>
        have bare : c.tree.children n = [] := by
          refine List.eq_nil_iff_forall_not_mem.mpr fun m child => ?_
          obtain ⟨-, -, entry⟩ := (Tree.mem_children wf).mp child
          rw [entry.directory] at file
          cases file
        rw [bare, List.nil_append] at printed
        rw [file] at isDirectory
        rw [printTree_file _ isDirectory, printed, bare, List.nil_append]
        rfl

theorem length_preorder_le (wf : c.tree.WellFormed) :
    (c.tree.preorder Tree.rootId).length ≤ c.tree.size := by
  have known : c.tree.preorder Tree.rootId ⊆ List.range c.tree.size := fun n visited =>
    List.mem_range.mpr ((Tree.mem_preorder_root wf).mp visited).known
  have fits := ((Tree.nodup_preorder wf Tree.rootId).subperm known).length_le
  rwa [List.length_range] at fits

theorem work_tree (wf : c.tree.WellFormed) : tree.work c =
    (.ok (.output (.lines ((c.tree.preorder Tree.rootId).map fun m => shown (c.tree.node m)))),
      c) := by
  have printed := printTree_eq_ok wf (c.tree.size + 1) [Tree.rootId]
    (by simpa using wf.attached_root)
    (by simpa using Nat.le_succ_of_le (length_preorder_le wf))
  rw [List.map_singleton, wf.root_path, List.flatMap_singleton] at printed
  rw [work, printed]
  rfl

theorem complete_tree {c' : Cluster} (wf : c.tree.WellFormed)
    (unlocked : c.unlock .root .shared = (.ok (), c')) : tree.complete .root .shared c =
    (.ok (.lines ((c.tree.preorder Tree.rootId).map fun m => shown (c.tree.node m))), c') := by
  rw [complete_of_work (work_tree wf) unlocked]
  rfl

end Command

theorem LockTable.get_restored (table : LockTable) (n : NodeId) (l : Lock) (m : NodeId) :
    ((table.set n l).set n (table.get n)).get m = table.get m := by
  rw [get_set, get_set]
  split
  next here => rw [here]
  next => rfl

namespace Catalog

variable {c : Catalog} {p : Path} {n m : NodeId} {ticket : Ticket} {l : Lock}

/-! ## A lock for a reader -/

theorem lock_reader (stalled : c.locks.Stalled) (found : c.tree.find? p = some n)
    (granted : (c.lock p .shared ticket).1 = .granted m) :
    (c.locks.get n).queue = [] ∧ c.lock p .shared ticket =
      (.granted n, { c with locks := c.locks.set n ((c.locks.get n).hold .shared) }) := by
  have answer : c.lock p .shared ticket =
      c.conclude (c.locks.advance c.tree ticket (.start c.tree p .shared n)) := by
    rw [lock, Tree.get_eq_ok_iff.mpr found]
  have pending : (Acquisition.start c.tree p .shared n).pending = (n, .shared) :: [] := rfl
  rw [answer, LockTable.advance_of_cons pending] at granted
  rw [answer, LockTable.advance_of_cons pending]
  cases admission : (c.locks.get n).acquire .shared ticket with
  | mk admitted l =>
    rw [admission] at granted
    cases admitted with
    | waiting => cases granted
    | refused => cases granted
    | granted =>
      obtain ⟨-, -, empty, rfl⟩ := Lock.acquire_eq_granted (stalled n) admission
      refine ⟨empty, ?_⟩
      dsimp only
      rw [LockTable.advance_of_nil rfl]
      rfl

theorem unlock_last_reader (found : c.tree.find? p = some n) (empty : l.queue = [])
    (held : c.locks.get n = l.hold .shared) :
    c.unlock p .shared = (.ok (), { c with locks := c.locks.set n l }) := by
  rw [unlock_shared_of_found found, giveUp, List.reverse_singleton, LockTable.releaseAll, held,
    Lock.release_hold empty]
  rfl

end Catalog

namespace Cluster

variable {c : Cluster} {catalog : Catalog} {p : Path} {n m : NodeId} {ticket : Ticket}

theorem answer_conclude_reader (c : Cluster) (p : Path) (result : LockAnswer × Catalog) :
    (c.conclude p .shared result).1 = result.1 := by
  obtain ⟨answer, catalog⟩ := result
  cases answer <;> rfl

theorem conclude_directory (directory : (catalog.tree.node n).isFile = false) :
    c.conclude p .shared (.granted n, catalog) = (.granted n, c.setCatalog catalog) := by
  have same : (c.setCatalog catalog).tree.recordRead n (c.setCatalog catalog).servers =
      (none, catalog.tree, c.servers) := by
    rw [tree_setCatalog, Tree.recordRead, directory]
    rfl
  simp only [conclude, afterGrant, same]
  rfl

theorem lock_directory (stalled : c.catalog.locks.Stalled) (found : c.tree.find? p = some n)
    (directory : (c.tree.node n).isFile = false)
    (granted : (c.lock p .shared ticket).1 = .granted m) :
    (c.catalog.locks.get n).queue = [] ∧ c.lock p .shared ticket =
      (.granted n, c.setCatalog { c.catalog with
        locks := c.catalog.locks.set n ((c.catalog.locks.get n).hold .shared) }) := by
  have locked : c.lock p .shared ticket =
      c.conclude p .shared (c.catalog.lock p .shared ticket) := by
    unfold lock at granted ⊢
    split at granted
    · cases granted
    next running => rw [if_neg running]
  rw [locked, answer_conclude_reader] at granted
  obtain ⟨empty, answer⟩ := Catalog.lock_reader stalled found granted
  refine ⟨empty, ?_⟩
  rw [locked, answer]
  exact conclude_directory directory

theorem unlock_last_reader {l : Lock} (found : c.tree.find? p = some n) (empty : l.queue = [])
    (held : c.catalog.locks.get n = l.hold .shared) :
    c.unlock p .shared =
      (.ok (), c.setCatalog { c.catalog with locks := c.catalog.locks.set n l }) := by
  rw [unlock, Catalog.unlock_last_reader found empty held]

end Cluster

namespace Session

variable {r : Session} {config : NamingConfig} {calls : Calls} {ticket : Ticket} {n : NodeId}

/-- The tree is printed as soon as the root is locked: each node once, in the order of the paths.
The naming server is left as it was found. -/
theorem tree_printed (reached : Service.Reachable config ⟨r.cluster, calls⟩)
    (granted : (r.cluster.lock .root .shared ticket).1 = .granted n) :
    let t := r.cluster.tree
    let order := t.preorder Tree.rootId
    (∃ locks : LockTable, r.startCommand .tree ticket =
        (some (.printed (.lines (order.map fun m =>
          if (t.node m).isFile then (t.node m).path.text
          else if (t.node m).path = .root then "/" else (t.node m).path.text ++ "/"))),
        { r with cluster := r.cluster.setCatalog { r.cluster.catalog with locks } }) ∧
      ∀ m : NodeId, locks.get m = r.cluster.catalog.locks.get m) ∧
    (∀ m, m ∈ order ↔ t.Attached m) ∧
    order.Pairwise fun m k => (t.node m).path < (t.node k).path := by
  intro t order
  obtain ⟨⟨wf, -⟩, stalled⟩ := reached.inShape
  refine ⟨?_, fun m => Tree.mem_preorder_root wf, Tree.preorder_sorted wf Tree.rootId⟩
  have directory : (t.node Tree.rootId).isFile = false := by
    rw [Node.isFile, wf.root_kind]
    rfl
  obtain ⟨empty, answer⟩ := Cluster.lock_directory stalled (Tree.find?_root t) directory granted
  -- While the tree is printed, the root has one more reader.
  let held := r.cluster.setCatalog { r.cluster.catalog with
    locks := r.cluster.catalog.locks.set Tree.rootId
      ((r.cluster.catalog.locks.get Tree.rootId).hold .shared) }
  have unlocked := Cluster.unlock_last_reader (c := held) (Tree.find?_root t) empty
    ((LockTable.get_set ..).trans (if_pos rfl))
  refine ⟨held.catalog.locks.set Tree.rootId (r.cluster.catalog.locks.get Tree.rootId), ?_,
    LockTable.get_restored _ _ _⟩
  simp only [startCommand, Command.lockFor, start, ask, answer, answered, proceed]
  rw [Command.complete_tree (c := held) wf unlocked]
  rfl

def viewed : Service :=
  (Service.start {} {}).run [.register (.own "s") [.inner, .neighbour], .lock .root .shared 0]

theorem requested_viewed : Service.Requested {} False viewed :=
  Service.Reached.run (.start {}) (by decide +kernel)

theorem preorder_viewed : viewed.cluster.tree.preorder Tree.rootId = [0, 1, 2, 3] := by
  have wf : viewed.cluster.tree.WellFormed := requested_viewed.inOrder.sound.tree
  rw [Tree.preorder_of_sorted wf (by decide +kernel)]
  decide +kernel

theorem viewed_printed : ∃ locks : LockTable,
    ({ cluster := viewed.cluster } : Session).startCommand .tree 1 =
      (some (.printed (.lines ["/", "/a/", "/a/c", "/a-b"])),
        { cluster := viewed.cluster.setCatalog { viewed.cluster.catalog with locks } }) ∧
    (locks.get Tree.rootId).shared = 1 := by
  have granted : (viewed.cluster.lock .root .shared 1).1 = .granted Tree.rootId := by
    decide +kernel
  obtain ⟨⟨locks, printed, same⟩, -, -⟩ := tree_printed (r := { cluster := viewed.cluster })
    requested_viewed.reachable granted
  refine ⟨locks, printed.trans ?_, ?_⟩
  · rw [preorder_viewed]
    refine congrArg (fun lines => (some (Outcome.printed (.lines lines)), _)) ?_
    decide +kernel
  · rw [same]
    decide +kernel

end Session

end DistFs
