import DistFs.Proofs.Service.Founding
import DistFs.Proofs.Service.Reachable
import Mathlib.Data.List.Rotate

namespace DistFs

namespace Tree

variable {t u : Tree} {n : NodeId}

theorem nextRead_modify (t : Tree) (m n : Nat) (change : Node → Node)
    (kept : ∀ x, (change x).nextRead = x.nextRead) :
    ((t.modify m change).node n).nextRead = (t.node n).nextRead := by
  rw [node_modify]
  split
  · exact kept _
  · rfl

theorem Reading.nextRead {m : Nat} {s : Servers} {result : Option Container × Tree × Servers}
    (h : t.Reading m s result) (n : NodeId) :
    (result.2.1.node n).nextRead = (t.node n).nextRead := by
  have counted (reads : Nat) : ((t.counted m reads).node n).nextRead = (t.node n).nextRead :=
    nextRead_modify t m n _ fun _ => rfl
  cases h with
  | directory => rfl
  | counted kind reads => exact counted reads
  | @refused source target rest fromPool u kind replicas taken refused =>
    obtain ⟨pool, same⟩ := taken.given_back
    simp only [same]
    exact counted 0
  | @copied source target rest fromPool u kind replicas taken copied =>
    obtain ⟨pool, rfl⟩ := taken.nodes
    exact (nextRead_modify { t.counted m 0 with pool } m n
      (fun x => { x with replicas := x.replicas ++ [target] }) fun _ => rfl).trans (counted 0)

theorem nextRead_consolidate (t : Tree) (m n : NodeId) (s : Servers) :
    ((t.consolidate m s).2.1.node n).nextRead = (t.node n).nextRead := by
  rw [consolidate_tree]
  split
  · exact nextRead_modify t m n _ fun _ => rfl
  · rfl

end Tree

namespace Cluster

variable {c : Cluster} {s t : Service} {n : NodeId} {p : Path} {config : NamingConfig}
  {answers : List (Except Error Handle)}

/-! ## Whose turn it is -/

theorem node_storageOf (c : Cluster) (p : Path) (n : NodeId) :
    c.tree.find? p = some n ∨ (c.storageOf p).2.tree.node n = c.tree.node n := by
  unfold storageOf
  split
  · exact .inr rfl
  next m found =>
    by_cases here : m = n
    · exact .inl (here ▸ Tree.get_eq_ok_iff.mp found)
    · right
      simp only
      split
      · rfl
      · split
        · rfl
        · rw [tree_setTree, Tree.node_modify, if_neg fun same => here same.1.symm]

theorem node_asked (found : c.tree.find? p = some n) (file : (c.tree.node n).isFile = true)
    (copies : (c.tree.node n).replicas ≠ []) :
    (c.storageOf p).2.tree.node n =
      { c.tree.node n with nextRead := (c.tree.node n).nextRead + 1 } := by
  obtain ⟨copy, here, -⟩ := Service.storageOf_file found file copies
  rw [storageOf_eq found file here, tree_setTree, turned, Tree.node_modify,
    if_pos ⟨rfl, Tree.known_of_isFile file⟩]

theorem nextRead_conclude (tidy : c.Tidy) (p : Path) (mode : LockMode)
    {result : LockAnswer × Catalog} (same : result.2.tree = c.tree) (n : NodeId) :
    ((c.conclude p mode result).2.tree.node n).nextRead = (c.tree.node n).nextRead := by
  rw [tree_conclude c p mode same]
  cases result.1 with
  | granted target =>
    cases mode with
    | shared =>
      exact (Tree.recordRead_reading tidy.wellFormed tidy.furnished target c.servers).nextRead n
    | exclusive => exact Tree.nextRead_consolidate c.tree target n c.servers
  | waiting a => rfl
  | failed e => rfl

def Asks (n : NodeId) (s : Service) : Event → Prop
  | .storageOf p => s.tree.find? p = some n
  | _ => False

/-- The turn goes on for those who ask where the file is, and for nobody else. -/
theorem nextRead_step (tidy : s.cluster.Tidy) (known : n < s.tree.size) (e : Event) :
    Asks n s e ∨ ((s.step e).tree.node n).nextRead = (s.tree.node n).nextRead := by
  cases e with
  | lock p mode ticket =>
    right
    change ((s.cluster.lock p mode ticket).2.tree.node n).nextRead = _
    rcases s.cluster.lock_cases p mode ticket with same | same
    · rw [same]
    · rw [same]
      exact nextRead_conclude tidy p mode (Catalog.tree_lock ..) n
  | resume call => exact .inr (nextRead_conclude tidy _ _ (Catalog.tree_resume ..) n)
  | abandon call => exact .inr (congrArg (fun t => (t.node n).nextRead) (s.tree_abandon call))
  | unlock p mode => exact .inr (congrArg (fun t => (t.node n).nextRead) (s.tree_unlock p mode))
  | createFile p => exact .inr (congrArg Node.nextRead (node_createFile tidy p known))
  | createDirectory p => exact .inr (congrArg Node.nextRead (node_createDirectory tidy p known))
  | delete p =>
    obtain ⟨linked, same⟩ := node_delete tidy p n
    exact .inr ((congrArg Node.nextRead same).trans rfl)
  | storageOf p => exact (s.cluster.node_storageOf p n).imp id (congrArg Node.nextRead)
  | register d files =>
    obtain ⟨home, same⟩ := node_register tidy d files known
    exact .inr ((congrArg Node.nextRead same).trans rfl)
  | servers servers => exact .inr rfl
  | start => exact .inr (congrArg (fun t => (t.node n).nextRead) s.tree_start)
  | stop => exact .inr (congrArg (fun t => (t.node n).nextRead) s.tree_stop)

/-! ## A stretch of requests -/

/-- Requests from a state on, with the answers to those that ask where a file is. The other requests
leave the file its copies. -/
inductive Handing (n : NodeId) (s : Service) : List (Except Error Handle) → Service → Prop
  | start : Handing n s [] s
  | asked {answers : List (Except Error Handle)} {t : Service} {p : Path}
      (before : Handing n s answers t) (found : t.tree.find? p = some n) :
      Handing n s (answers ++ [(t.cluster.storageOf p).1]) (t.step (.storageOf p))
  | meanwhile {answers : List (Except Error Handle)} {t : Service} {e : Event}
      (before : Handing n s answers t) (other : ¬ Asks n t e)
      (same : ((t.step e).tree.node n).replicas = (t.tree.node n).replicas) :
      Handing n s answers (t.step e)

structure Handed (n : NodeId) (s : Service) (answers : List (Except Error Handle)) (t : Service) :
    Prop where
  tidy : t.cluster.Tidy
  replicas : (t.tree.node n).replicas = (s.tree.node n).replicas
  turn : (t.tree.node n).nextRead.toNat =
    ((s.tree.node n).nextRead.toNat + answers.length) % UInt64.size
  answered : ∀ i < answers.length, answers[i]? =
    (s.tree.node n).replicas[((s.tree.node n).nextRead.toNat + i) %
      (s.tree.node n).replicas.length]?.map fun copy => .ok copy.storage

theorem Handed.start (tidy : s.cluster.Tidy) (n : NodeId) : Handed n s [] s := by
  refine ⟨tidy, rfl, ?_, fun i before => absurd before (Nat.not_lt_zero i)⟩
  exact (Nat.mod_eq_of_lt (UInt64.toNat_lt_size _)).symm

theorem Handed.file (h : Handed n s answers t) (copies : (s.tree.node n).replicas ≠ []) :
    (t.tree.node n).isFile = true := by
  by_contra directory
  exact copies (h.replicas ▸ (h.tidy.furnished n).directory (Bool.eq_false_iff.mpr directory))

theorem Handed.asked (h : Handed n s answers t) (found : t.tree.find? p = some n)
    (copies : (s.tree.node n).replicas ≠ [])
    (within : (s.tree.node n).nextRead.toNat + answers.length < UInt64.size) :
    Handed n s (answers ++ [(t.cluster.storageOf p).1]) (t.step (.storageOf p)) := by
  have file := h.file copies
  have turn := h.turn
  rw [Nat.mod_eq_of_lt within] at turn
  have node : (t.step (.storageOf p)).tree.node n = _ :=
    node_asked found file (h.replicas ▸ copies)
  obtain ⟨copy, here, answer⟩ := Service.storageOf_file found file (h.replicas ▸ copies)
  rw [turn, h.replicas] at here
  refine ⟨Service.tidy_step h.tidy _, by rw [node]; exact h.replicas, ?_, fun i before => ?_⟩
  · rw [node, UInt64.toNat_add, turn, List.length_append, List.length_singleton, ← Nat.add_assoc]
    rfl
  · rw [List.length_append, List.length_singleton] at before
    rcases Nat.lt_or_ge i answers.length with old | new
    · rw [List.getElem?_append_left old, h.answered i old]
    · obtain rfl : i = answers.length := Nat.le_antisymm (Nat.le_of_lt_succ before) new
      rw [List.getElem?_concat_length, here, answer]
      rfl

theorem Handed.meanwhile (h : Handed n s answers t) (copies : (s.tree.node n).replicas ≠ [])
    {e : Event} (other : ¬ Asks n t e)
    (same : ((t.step e).tree.node n).replicas = (t.tree.node n).replicas) :
    Handed n s answers (t.step e) := by
  have known := Tree.known_of_isFile (h.file copies)
  have turn := (nextRead_step h.tidy known e).resolve_left other
  exact ⟨Service.tidy_step h.tidy e, same.trans h.replicas, turn ▸ h.turn, h.answered⟩

theorem Handing.handed (h : Handing n s answers t) (tidy : s.cluster.Tidy)
    (copies : (s.tree.node n).replicas ≠ [])
    (within : (s.tree.node n).nextRead.toNat + answers.length ≤ UInt64.size) :
    Handed n s answers t := by
  induction h with
  | start => exact .start tidy n
  | asked before found ih =>
    rw [List.length_append, List.length_singleton] at within
    exact (ih (by omega)).asked found copies (by omega)
  | meanwhile before other same ih => exact (ih within).meanwhile copies other same

theorem Handed.window (h : Handed n s answers t) {i : Nat}
    (within : i + (s.tree.node n).replicas.length ≤ answers.length) :
    (answers.drop i).take (s.tree.node n).replicas.length =
      ((s.tree.node n).replicas.rotate ((s.tree.node n).nextRead.toNat + i)).map
        fun copy => .ok copy.storage := by
  refine List.ext_getElem? fun j => ?_
  rcases Nat.lt_or_ge j (s.tree.node n).replicas.length with before | after
  · rw [List.getElem?_take_of_lt before, List.getElem?_drop, h.answered (i + j) (by omega),
      List.getElem?_map, List.getElem?_rotate before, Nat.add_comm j, Nat.add_assoc]
  · rw [List.getElem?_eq_none (by rw [List.length_take]; omega), List.getElem?_eq_none]
    rwa [List.length_map, List.length_rotate]

/-- As long as a file has the same copies and the turn does not begin again at zero, as many clients
in a row as there are copies are pointed to each copy once, whatever else is asked for meanwhile,
and wherever the turn was at the beginning. -/
theorem turns_fair (reached : Service.Reachable config s) (handing : Handing n s answers t)
    (within : (s.tree.node n).nextRead.toNat + answers.length ≤ UInt64.size) {i : Nat}
    (here : i + (s.tree.node n).replicas.length ≤ answers.length) :
    ((answers.drop i).take (s.tree.node n).replicas.length).Perm
      ((s.tree.node n).replicas.map fun copy => .ok copy.storage) := by
  by_cases copies : (s.tree.node n).replicas = []
  · rw [copies]
    exact .nil
  · rw [(handing.handed reached.inShape.tidy copies within).window here]
    exact (List.rotate_perm _ _).map _

def pairTurned : Service :=
  Service.pairReady.run [.lock .sole .shared 0, .unlock .sole .shared, .storageOf .sole]

theorem pairTurned_turns_fair :
    let t := pairTurned.step (.storageOf .sole)
    let u := t.step (.createDirectory .neighbour)
    [(pairTurned.cluster.storageOf .sole).1, (u.cluster.storageOf .sole).1].Perm
        ((pairTurned.tree.node 1).replicas.map fun copy => .ok copy.storage) ∧
      (pairTurned.cluster.storageOf .sole).1 = .ok (.direct "t") ∧
      (u.cluster.storageOf .sole).1 = .ok (.direct "s") := by
  intro t u
  have reached : Service.Reachable { replicationThreshold := 1 } pairTurned :=
    Service.requested_pairReady.reachable.run (by simp [Service.Allows])
  have here : pairTurned.tree.find? .sole = some 1 := by decide +kernel
  have there : u.tree.find? .sole = some 1 := by decide +kernel
  have handing := ((Handing.start.asked here).meanwhile (e := .createDirectory .neighbour) id
    (by decide +kernel)).asked there
  have copies : (pairTurned.tree.node 1).replicas.length = 2 := by decide +kernel
  have fair := turns_fair reached handing (by decide +kernel) (i := 0) (by rw [copies]; decide)
  rw [copies] at fair
  exact ⟨fair, by decide +kernel, by decide +kernel⟩

end Cluster

end DistFs
