import DistFs.Cluster
import DistFs.Proofs.Locking.Release
import DistFs.Proofs.Service.Registration
import DistFs.Proofs.Service.Replicas
/-!
# Requests to the naming server

A cluster with the requests of its clients, which come in any order, and what each of them makes of
the directory tree. A request is answered, or has to wait, before the next one is looked at, so that
no other comes in while a storage server is told something on its behalf. Between two requests the
storage servers may change in whatever way they like. Where not everything may happen, a run is one
of the events that are allowed where they happen (`Reached`).
-/

namespace DistFs

/-- The requests after an answer of the catalog. If a writer cannot have the other copies given up,
a lock on the path is unlocked again: his own, or an older one on a node that was removed. -/
def Cluster.callsThen (c : Cluster) (calls : Calls) (ticket : Ticket) (p : Path) (mode : LockMode)
    (result : LockAnswer × Catalog) : Calls :=
  let noted := calls.note ticket p mode result.2 result.1
  match result.1, c.conclude p mode result with
  | .granted _, (.failed _, after) =>
    ({ result.2 with tree := after.tree } : Catalog).callsAfter noted p mode
  | _, _ => noted

structure Service where
  cluster : Cluster
  calls : Calls := {}

inductive Event where
  | lock (p : Path) (mode : LockMode) (ticket : Ticket)
  | resume (call : Call)
  | abandon (call : Call)
  | unlock (p : Path) (mode : LockMode)
  | createFile (p : Path)
  | createDirectory (p : Path)
  | delete (p : Path)
  | storageOf (p : Path)
  | register (container : Container) (files : List Path)
  | servers (servers : Servers)
  | start
  | stop

namespace Service

def start (config : NamingConfig) (servers : Servers) : Service :=
  { cluster :=
      { naming := { config, catalog := .empty config.replicationThreshold.toNat }, servers } }

abbrev tree (s : Service) : Tree := s.cluster.tree

def setCluster (s : Service) (cluster : Cluster) : Service := { s with cluster }

def Alone (t : Tree) (granted : List Call) : Prop :=
  ∀ call ∈ granted, call.acquisition.mode = .exclusive →
    (t.node call.acquisition.target).isFile = true →
    (t.node call.acquisition.target).replicas.length ≤ 1

def lock (s : Service) (p : Path) (mode : LockMode) (ticket : Ticket) : Service where
  cluster := (s.cluster.lock p mode ticket).2
  calls :=
    if s.cluster.naming.stopped then { s.calls with failed := s.calls.failed ++ [ticket] }
    else s.cluster.callsThen s.calls ticket p mode (s.cluster.catalog.lock p mode ticket)

def resume (s : Service) (call : Call) : Service where
  cluster := (s.cluster.resume call.acquisition call.ticket).2
  calls := s.cluster.callsThen (s.calls.leave call.ticket) call.ticket call.acquisition.path
    call.acquisition.mode (s.cluster.catalog.resume call.acquisition call.ticket)

def unlock (s : Service) (p : Path) (mode : LockMode) : Service where
  cluster := (s.cluster.unlock p mode).2
  calls := s.cluster.catalog.callsAfter s.calls p mode

/-- The client goes away, and nobody takes notice of a grant any more. -/
def abandon (s : Service) (call : Call) : Service where
  cluster := s.cluster.setCatalog (s.cluster.catalog.abandon call.acquisition call.ticket)
  calls :=
    { s.calls.leave call.ticket with failed := s.calls.failed ++ [call.ticket] }

def step (s : Service) : Event → Service
  | .lock p mode ticket => s.lock p mode ticket
  | .resume call => s.resume call
  | .abandon call => s.abandon call
  | .unlock p mode => s.unlock p mode
  | .createFile p => s.setCluster (s.cluster.createFile p).2
  | .createDirectory p => s.setCluster (s.cluster.createDirectory p).2
  | .delete p => s.setCluster (s.cluster.delete p).2
  | .storageOf p => s.setCluster (s.cluster.storageOf p).2
  | .register container files => s.setCluster (s.cluster.register container files).2
  | .servers servers => s.setCluster { s.cluster with servers }
  | .start => match s.cluster.start with
    | .ok cluster => s.setCluster cluster
    | .error _ => s
  | .stop => s.setCluster s.cluster.stop

def run (s : Service) (events : List Event) : Service := events.foldl step s

/-- What a naming server may come to if only events happen that are allowed where they happen. -/
inductive Reached (allowed : Service → Event → Prop) (config : NamingConfig) : Service → Prop
  | start (servers : Servers) : Reached allowed config (start config servers)
  | next {s : Service} (before : Reached allowed config s) {e : Event} (may : allowed s e) :
      Reached allowed config (s.step e)

def Allows (allowed : Service → Event → Prop) (s : Service) : List Event → Prop
  | [] => True
  | e :: rest => allowed s e ∧ Allows allowed (s.step e) rest

namespace Reached

variable {s : Service} {allowed allowed' : Service → Event → Prop} {config : NamingConfig}

theorem mono (reached : Reached allowed config s)
    (allows : ∀ s e, allowed s e → allowed' s e) : Reached allowed' config s := by
  induction reached with
  | start servers => exact .start servers
  | next _ may ih => exact ih.next (allows _ _ may)

theorem run (reached : Reached allowed config s) {events : List Event}
    (allows : Allows allowed s events) : Reached allowed config (s.run events) := by
  induction events generalizing s with
  | nil => exact reached
  | cons e rest ih => exact ih (reached.next allows.1) allows.2

end Reached

instance decidableAllows (allowed : Service → Event → Prop)
    [∀ s e, Decidable (allowed s e)] (s : Service) (events : List Event) :
    Decidable (Allows allowed s events) :=
  match events with
  | [] => inferInstanceAs (Decidable True)
  | e :: rest =>
    have := decidableAllows allowed (s.step e) rest
    inferInstanceAs (Decidable (_ ∧ _))

end Service

/-! ## What the requests make of the tree -/

namespace Cluster

variable {c : Cluster} {t u : Tree} {m : Nat} {p q : Path} {a : Name} {mode : LockMode}

@[simp] theorem tree_setTree (c : Cluster) (tree : Tree) (servers : Servers) :
    (c.setTree tree servers).tree = tree := rfl

@[simp] theorem tree_setCatalog (c : Cluster) (catalog : Catalog) :
    (c.setCatalog catalog).tree = catalog.tree := rfl

theorem tree_unlock (c : Cluster) (p : Path) (mode : LockMode) :
    (c.unlock p mode).2.tree = c.tree := Catalog.tree_unlock _ _ _

def treeAfter (c : Cluster) (mode : LockMode) (target : NodeId) : Tree :=
  match mode with
  | .shared => (c.tree.recordRead target c.servers).2.1
  | .exclusive => (c.tree.consolidate target c.servers).2.1

theorem tree_afterGrant (c : Cluster) (p : Path) (mode : LockMode) (target : NodeId) :
    (c.afterGrant p mode target).2.tree = c.treeAfter mode target := by
  unfold afterGrant treeAfter
  cases mode with
  | shared => rfl
  | exclusive =>
      simp only
      cases outcome : c.tree.consolidate target c.servers with
      | mk result rest =>
          obtain ⟨u, servers⟩ := rest
          cases result with
          | ok => rfl
          | error => exact tree_unlock (c.setTree u servers) p .exclusive

theorem conclude_granted (c : Cluster) (p : Path) (mode : LockMode) (target : NodeId)
    (catalog : Catalog) :
    (c.conclude p mode (.granted target, catalog)).2 =
      ((c.setCatalog catalog).afterGrant p mode target).2 := by
  simp only [conclude]
  cases (c.setCatalog catalog).afterGrant p mode target with
  | mk result c' => cases result <;> rfl

theorem tree_conclude (c : Cluster) (p : Path) (mode : LockMode) {result : LockAnswer × Catalog}
    (same : result.2.tree = c.tree) :
    (c.conclude p mode result).2.tree =
      match result.1 with
      | .granted target => c.treeAfter mode target
      | _ => c.tree := by
  obtain ⟨answer, catalog⟩ := result
  cases answer with
  | granted target =>
      rw [conclude_granted, tree_afterGrant]
      unfold treeAfter
      rw [tree_setCatalog, same]
      rfl
  | waiting => exact same
  | failed => exact same

theorem lock_cases (c : Cluster) (p : Path) (mode : LockMode) (ticket : Ticket) :
    (c.lock p mode ticket).2 = c ∨
      (c.lock p mode ticket).2 = (c.conclude p mode (c.catalog.lock p mode ticket)).2 := by
  unfold lock
  split
  · exact .inl rfl
  · exact .inr rfl

/-! ## Making a file -/

theorem placeFor_taken (wf : t.WellFormed) (furnished : t.Furnished) (attached : t.Attached m)
    (directory : (t.node m).isFile = false) : t.Taken [] (placeFor t m) := by
  unfold placeFor
  cases home : (t.node m).home with
  | some e => exact .kept rfl attached (by simp [Node.keeps, directory, home])
  | none => exact Tree.takeAvailable_taken wf furnished []

inductive Creating (c : Cluster) (m : NodeId) (p : Path) : Except Error Bool × Cluster → Prop
  | unplaced (none : ∀ e, ¬ c.tree.Available e) : Creating c m p (.error .noStorage, c)
  | made {e : Container} {fromPool : Bool} {u : Tree}
      (taken : c.tree.Taken [] (some (e, fromPool), u))
      (created : (c.servers.create e.command p).1 = .ok true) :
      Creating c m p (.ok true, c.setTree
        (u.insert m { path := p, kind := .file, replicas := [e] }).2
        (c.servers.create e.command p).2)
  | refused {e : Container} {fromPool : Bool} {u : Tree}
      (taken : c.tree.Taken [] (some (e, fromPool), u))
      (refused : (c.servers.create e.command p).1 ≠ .ok true) :
      Creating c m p ((c.servers.create e.command p).1,
        c.setTree (if fromPool then u.returnToPool e else u) (c.servers.create e.command p).2)

theorem creationParent_child (c : Cluster) (q : Path) (a : Name) :
    c.creationParent (q.child a) =
      match c.tree.find? q with
      | none => .error (.notFound q)
      | some m => if (c.tree.node m).isFile then .error (.notADirectory q) else .ok (some m) := by
  unfold creationParent
  rw [Path.parent?_child]
  simp only [Tree.get]
  cases c.tree.find? q with
  | none => rfl
  | some m =>
      simp only [Bind.bind, Except.bind]
      split <;> rfl

theorem add_file (found : t.find? q = some m)
    (directory : (t.node m).isFile = false) (absent : t.find? (q.child a) = none) (e : Container) :
    t.add (q.child a) .file (some e) =
      .ok (t.insert m { path := q.child a, kind := .file, replicas := [e] }) := by
  have free : t.child? m a = none := by simpa [Tree.find?_child, found] using absent
  unfold Tree.add
  simp only [Path.parent?_child, Path.last?_child, Tree.get_eq_ok_iff.mpr found, Bind.bind,
    Except.bind,
    directory, free]
  rfl

theorem createFile_creating (wf : c.tree.WellFormed) (furnished : c.tree.Furnished)
    (found : c.tree.find? q = some m) (directory : (c.tree.node m).isFile = false)
    (absent : c.tree.find? (q.child a) = none) (known : c.naming.registered ≠ []) :
    c.Creating m (q.child a) (c.createFile (q.child a)) := by
  have attached := ((Tree.find?_eq_some_iff wf).mp found).1
  have taken := placeFor_taken wf furnished attached directory
  unfold createFile
  rw [creationParent_child, found]
  simp only [directory, Bool.false_eq_true, if_false, Tree.contains, absent, Option.isSome_none,
    known]
  cases placed : placeFor c.tree m with
  | mk choice u =>
      rw [placed] at taken
      cases choice with
      | none =>
          cases taken with
          | nothing all => exact .unplaced fun e available => by simpa using all e available
      | some chosen =>
          obtain ⟨e, fromPool⟩ := chosen
          have made := Creating.made (c := c) (m := m) (p := q.child a) taken
          have refused := Creating.refused (c := c) (m := m) (p := q.child a) taken
          simp only
          cases answer : c.servers.create e.command (q.child a) with
          | mk result servers =>
              rw [answer] at made refused
              cases result with
              | error e => exact refused (by simp)
              | ok done =>
                  cases done with
                  | false => exact refused (by simp)
                  | true =>
                      obtain ⟨pool, rfl⟩ := taken.nodes
                      have added := add_file (t := { c.tree with pool }) found
                        directory absent e
                      simp only [added]
                      exact made rfl

theorem createFile_cases (wf : c.tree.WellFormed) (furnished : c.tree.Furnished) (p : Path) :
    (c.createFile p).2 = c ∨ ∃ q a m, p = q.child a ∧ c.tree.find? q = some m ∧
      (c.tree.node m).isFile = false ∧ c.tree.find? p = none ∧ c.Creating m p (c.createFile p) := by
  cases p.eq_root_or_child with
  | inl root =>
      subst root
      exact .inl rfl
  | inr child =>
      obtain ⟨q, a, rfl⟩ := child
      cases found : c.tree.find? q with
      | none =>
          left
          simp [createFile, creationParent_child, found]
      | some m =>
          cases directory : (c.tree.node m).isFile with
          | true =>
              left
              simp [createFile, creationParent_child, found, directory]
          | false =>
              cases absent : c.tree.find? (q.child a) with
              | some n =>
                  left
                  simp [createFile, creationParent_child, found, directory, Tree.contains, absent]
              | none =>
                  by_cases known : c.naming.registered = []
                  · left
                    simp [createFile, creationParent_child, found, directory, Tree.contains, absent,
                      known]
                  · exact .inr ⟨q, a, m, rfl, found, directory, rfl,
                      createFile_creating wf furnished found directory absent known⟩

/-! ## The other requests -/

theorem createDirectory_cases (c : Cluster) (p : Path) :
    (c.createDirectory p).2 = c ∨ ∃ n u, c.tree.add p .directory none = .ok (n, u) ∧
      (c.createDirectory p).2 = c.setTree u c.servers := by
  unfold createDirectory
  split
  · exact .inl rfl
  · exact .inl rfl
  · split
    · exact .inl rfl
    · split
      next n u made => exact .inr ⟨n, u, made, rfl⟩
      next => exact .inl rfl

def turned (t : Tree) (n : NodeId) (nextRead : UInt64) : Tree := t.modify n ({ · with nextRead })

theorem storageOf_cases (c : Cluster) (p : Path) :
    (c.storageOf p).2 = c ∨
      ∃ n turn, (c.storageOf p).2 = c.setTree (turned c.tree n turn) c.servers := by
  unfold storageOf
  split
  · exact .inl rfl
  next n _ =>
    simp only
    split
    · exact .inl rfl
    · split
      · exact .inl rfl
      · exact .inr ⟨n, _, rfl⟩

theorem storageOf_eq {n : NodeId} (found : c.tree.find? p = some n)
    (file : (c.tree.node n).isFile = true) {copy : Container}
    (turn : (c.tree.node n).replicas[(c.tree.node n).nextRead.toNat %
      (c.tree.node n).replicas.length]? = some copy) :
    c.storageOf p = (.ok copy.storage,
      c.setTree (turned c.tree n ((c.tree.node n).nextRead + 1)) c.servers) := by
  simp only [storageOf, Tree.get_eq_ok_iff.mpr found, file, Bool.not_true, Bool.false_eq_true,
    if_false, turn]
  rfl

theorem find?_storageOf (wf : c.tree.WellFormed) (p q : Path) :
    (c.storageOf p).2.tree.find? q = c.tree.find? q := by
  rcases storageOf_cases c p with same | ⟨k, turn, result⟩
  · rw [same]
  · rw [result]
    exact Tree.find?_modify wf k ⟨rfl, rfl, rfl⟩ rfl q

inductive Deleting (c : Cluster) (p : Path) : Except Error Bool × Cluster → Prop
  | nothing (result : Except Error Bool) (kept : result ≠ .ok true) : Deleting c p (result, c)
  | failed {containers : List Container} {e : Error}
      (listed : c.tree.containersUnder p = .ok containers)
      (failed : (deleteOnAll p containers c.servers).1 = .error e) :
      Deleting c p (.error e, { c with servers := (deleteOnAll p containers c.servers).2 })
  | removed {containers : List Container} {n : NodeId} (found : c.tree.find? p = some n)
      (other : n ≠ Tree.rootId) (listed : c.tree.containersUnder p = .ok containers)
      (done : (deleteOnAll p containers c.servers).1 = .ok ()) :
      Deleting c p (.ok true, c.setTree (c.tree.unlink n) (deleteOnAll p containers c.servers).2)

theorem delete_deleting (wf : c.tree.WellFormed) (p : Path) : c.Deleting p (c.delete p) := by
  unfold delete
  split
  next => exact .nothing _ (by simp)
  next root =>
    cases listed : c.tree.containersUnder p with
    | error e => exact .nothing _ (by simp)
    | ok containers =>
        obtain ⟨n, found, -⟩ := Tree.containersUnder_eq_ok listed
        have failed (e : Error) := Deleting.failed listed (e := e)
        simp only
        cases outcome : deleteOnAll p containers c.servers with
        | mk result servers =>
            rw [outcome] at failed
            cases result with
            | error e => exact failed e rfl
            | ok done =>
                cases Tree.remove_cases wf p with
                | inl removed =>
                    obtain ⟨n, found, other, removed⟩ := removed
                    have gone := Deleting.removed found other listed (by rw [outcome])
                    rw [outcome] at gone
                    simp only [removed]
                    exact gone
                | inr kept => simp [Tree.remove_eq, root, found] at kept

/-! ## The tree stays in order -/

structure Tidy (c : Cluster) : Prop where
  wellFormed : c.tree.WellFormed
  furnished : c.tree.Furnished

namespace Tidy

variable {c' : Cluster}

theorem of_tree (h : c.Tidy) (same : c'.tree = c.tree) : c'.Tidy :=
  ⟨same ▸ h.wellFormed, same ▸ h.furnished⟩

theorem treeAfter (h : c.Tidy) (mode : LockMode) (target : NodeId) :
    c.tree.Grows (c.treeAfter mode target) ∧ (c.treeAfter mode target).WellFormed ∧
      (c.treeAfter mode target).Furnished := by
  cases mode with
  | shared =>
      exact (Tree.recordRead_reading h.wellFormed h.furnished target c.servers).keeps h.wellFormed
        h.furnished
  | exclusive =>
      have after : c.treeAfter .exclusive target = _ :=
        Tree.consolidate_tree c.tree target c.servers
      rw [after]
      split
      · exact ⟨Tree.grows_consolidated _ _, h.wellFormed.consolidated target,
          h.furnished.consolidated target⟩
      · exact ⟨.refl _, h.wellFormed, h.furnished⟩

theorem conclude (h : c.Tidy) (p : Path) (mode : LockMode) {result : LockAnswer × Catalog}
    (same : result.2.tree = c.tree) : (c.conclude p mode result).2.Tidy := by
  have after := tree_conclude c p mode same
  obtain ⟨answer, catalog⟩ := result
  cases answer with
  | granted target =>
      obtain ⟨-, wf, furnished⟩ := h.treeAfter mode target
      exact ⟨after ▸ wf, after ▸ furnished⟩
  | waiting => exact h.of_tree after
  | failed => exact h.of_tree after

theorem lock (h : c.Tidy) (p : Path) (mode : LockMode) (ticket : Ticket) :
    (c.lock p mode ticket).2.Tidy := by
  rcases c.lock_cases p mode ticket with same | same
  · rwa [same]
  · rw [same]
    exact h.conclude p mode (Catalog.tree_lock c.catalog p mode ticket)

theorem resume (h : c.Tidy) (a : Acquisition) (ticket : Ticket) : (c.resume a ticket).2.Tidy :=
  h.conclude a.path a.mode (Catalog.tree_resume c.catalog a ticket)

theorem creating (h : c.Tidy) (found : c.tree.find? q = some m)
    (directory : (c.tree.node m).isFile = false) (absent : c.tree.find? (q.child a) = none)
    {result : Except Error Bool × Cluster} (creating : c.Creating m (q.child a) result) :
    c.tree.Grows result.2.tree ∧ result.2.Tidy := by
  obtain ⟨attached, path⟩ := (Tree.find?_eq_some_iff h.wellFormed).mp found
  have free : c.tree.child? m a = none := by simpa [Tree.find?_child, found] using absent
  cases creating with
  | unplaced => exact ⟨.refl _, h⟩
  | @made e fromPool u taken created =>
      obtain ⟨pool, rfl⟩ := taken.nodes
      refine ⟨Tree.grows_pool.trans (Tree.grows_insert _ m _),
        h.wellFormed.of_pool.insert attached.known directory free (by rw [← path]; rfl)
          (by simp), ?_⟩
      intro n
      rw [tree_setTree, Tree.node_insert]
      split
      · exact ⟨fun _ => rfl, fun dir => by simp [Node.isFile] at dir⟩
      · exact h.furnished n
  | @refused e fromPool u taken refused =>
      obtain ⟨pool, same⟩ := taken.given_back
      rw [same]
      exact ⟨Tree.grows_pool, h.wellFormed.of_pool, h.furnished⟩

theorem createFile (h : c.Tidy) (p : Path) :
    c.tree.Grows (c.createFile p).2.tree ∧ (c.createFile p).2.Tidy := by
  cases createFile_cases h.wellFormed h.furnished p with
  | inl same => exact same.symm ▸ ⟨.refl _, h⟩
  | inr there =>
      obtain ⟨q, a, m, rfl, found, directory, absent, creating⟩ := there
      exact h.creating found directory absent creating

theorem createDirectory (h : c.Tidy) (p : Path) :
    c.tree.Grows (c.createDirectory p).2.tree ∧ (c.createDirectory p).2.Tidy := by
  cases createDirectory_cases c p with
  | inl same => exact same.symm ▸ ⟨.refl _, h⟩
  | inr made =>
      obtain ⟨n, u, added, result⟩ := made
      have grown := Tree.add_grown h.wellFormed added
      rw [result]
      exact ⟨grown.grows, grown.wellFormed h.wellFormed, h.furnished.grown grown⟩

theorem delete (h : c.Tidy) (p : Path) : (c.delete p).2.Tidy := by
  have deleting := delete_deleting h.wellFormed p
  generalize c.delete p = result at deleting
  cases deleting with
  | nothing => exact h
  | failed => exact h.of_tree rfl
  | @removed containers n found other listed done =>
      exact ⟨h.wellFormed.unlink other,
        h.furnished.modify n fun furnished => ⟨furnished.file, furnished.directory⟩⟩

theorem storageOf (h : c.Tidy) (p : Path) :
    c.tree.Grows (c.storageOf p).2.tree ∧ (c.storageOf p).2.Tidy := by
  cases storageOf_cases c p with
  | inl same => exact same.symm ▸ ⟨.refl _, h⟩
  | inr turned =>
      obtain ⟨n, turn, result⟩ := turned
      rw [result]
      exact ⟨Tree.grows_modify _ n ⟨rfl, rfl, rfl⟩ rfl, h.wellFormed.hold n ⟨rfl, rfl, rfl⟩ rfl,
        h.furnished.modify n fun furnished => ⟨furnished.file, furnished.directory⟩⟩

theorem register (h : c.Tidy) (d : Container) (files : List Path) :
    c.tree.Grows (c.register d files).2.tree ∧ (c.register d files).2.Tidy := by
  by_cases known : d.endpoints.1 ∈ c.naming.registered ∨ d.endpoints.2 ∈ c.naming.registered
  · rw [register_known c files known]
    exact ⟨.refl _, h⟩
  · obtain ⟨offers, u, recorded, -, result⟩ := register_new h.wellFormed files known
    obtain ⟨grows, wf, furnished, -⟩ := recorded.keeps h.wellFormed h.furnished
    rw [result]
    simp only [tree_setTree]
    split
    · exact ⟨grows, wf, furnished⟩
    · obtain ⟨pool, added⟩ := Tree.addToPool_eq u d
      rw [added]
      exact ⟨grows.trans Tree.grows_pool, wf.of_pool, furnished⟩

end Tidy

/-! ## What becomes of a node -/

theorem node_createFile (h : c.Tidy) (p : Path) {n : Nat} (known : n < c.tree.size) :
    (c.createFile p).2.tree.node n = c.tree.node n := by
  rcases createFile_cases h.wellFormed h.furnished p with same | ⟨-, -, m, -, -, -, -, creating⟩
  · rw [same]
  · generalize c.createFile p = result at creating ⊢
    cases creating with
    | unplaced => rfl
    | made taken created =>
      obtain ⟨pool, rfl⟩ := taken.nodes
      rw [tree_setTree, Tree.node_insert, if_neg]
      · rfl
      · exact Nat.ne_of_lt known
    | refused taken refused =>
      obtain ⟨pool, left⟩ := taken.given_back
      rw [tree_setTree, left]
      rfl

theorem node_createDirectory (h : c.Tidy) (p : Path) {n : Nat} (known : n < c.tree.size) :
    (c.createDirectory p).2.tree.node n = c.tree.node n := by
  rcases createDirectory_cases c p with same | ⟨m, u, made, result⟩
  · rw [same]
  · rw [result, tree_setTree, (Tree.add_grown h.wellFormed made).node known]

theorem node_delete (h : c.Tidy) (p : Path) (n : NodeId) :
    ∃ linked, (c.delete p).2.tree.node n = { c.tree.node n with linked } := by
  have deleting := delete_deleting h.wellFormed p
  generalize c.delete p = result at deleting ⊢
  cases deleting with
  | nothing | failed => exact ⟨_, rfl⟩
  | removed =>
    rw [tree_setTree, Tree.unlink, Tree.node_modify]
    split <;> exact ⟨_, rfl⟩

theorem node_register (h : c.Tidy) (d : Container) (files : List Path) {n : Nat}
    (known : n < c.tree.size) :
    ∃ home, (c.register d files).2.tree.node n = { c.tree.node n with home } := by
  by_cases old : d.endpoints.1 ∈ c.naming.registered ∨ d.endpoints.2 ∈ c.naming.registered
  · rw [register_known c files old]
    exact ⟨_, rfl⟩
  · obtain ⟨offers, u, recorded, -, result⟩ := register_new h.wellFormed files old
    obtain ⟨pool, added⟩ := Tree.addToPool_eq u d
    have node := recorded.node h.wellFormed known
    rw [result, tree_setTree]
    split
    · exact node
    · rw [added]
      exact node

/-! ## Starting and stopping -/

theorem naming_bind {c' : Cluster} {endpoint : String} {served : Target} {binding : Binding}
    (bound : c.bind endpoint served = .ok (binding, c')) : c'.naming = c.naming := by
  unfold bind at bound
  cases opened : c.servers.network.bind endpoint served with
  | error e => simp [opened, Bind.bind, Except.bind] at bound
  | ok pair =>
    simp only [opened, Bind.bind, Except.bind, pure, Except.pure, Except.ok.injEq,
      Prod.mk.injEq] at bound
    rw [← bound.2]
    rfl

theorem naming_start {c' : Cluster} (started : c.start = .ok c') :
    c'.naming = { c.naming with accepting := true } := by
  unfold start at started
  split at started
  next accepting =>
    cases started
    rw [← accepting]
  next =>
    cases bound : c.bind c.naming.config.registrationEndpoint .registration with
    | error e => simp [bound, Bind.bind, Except.bind] at started
    | ok pair =>
      have same : pair.2.naming = c.naming := naming_bind bound
      simp only [bound, Bind.bind, Except.bind, pure, Except.pure, Except.ok.injEq] at started
      rw [← started, ← same]

theorem catalog_stop (c : Cluster) : c.stop.catalog = c.catalog.interrupt.2 := by
  unfold stop
  cases c.naming.accepting <;> rfl

theorem registered_stop (c : Cluster) : c.stop.naming.registered = c.naming.registered := by
  unfold stop
  cases c.naming.accepting <;> rfl

end Cluster

namespace Service

variable {s : Service}

theorem lock_cases (s : Service) (p : Path) (mode : LockMode) (ticket : Ticket) :
    s.lock p mode ticket =
        { s with calls := { s.calls with failed := s.calls.failed ++ [ticket] } } ∨
      s.lock p mode ticket =
        { cluster := (s.cluster.conclude p mode (s.cluster.catalog.lock p mode ticket)).2
          calls := s.cluster.callsThen s.calls ticket p mode
            (s.cluster.catalog.lock p mode ticket) } := by
  unfold Service.lock Cluster.lock
  cases s.cluster.naming.stopped with
  | true => exact .inl rfl
  | false => exact .inr rfl

theorem tree_unlock (s : Service) (p : Path) (mode : LockMode) :
    (s.unlock p mode).tree = s.tree := Cluster.tree_unlock ..

theorem tree_abandon (s : Service) (call : Call) : (s.abandon call).tree = s.tree := by
  rw [tree, abandon, Cluster.tree_setCatalog, Catalog.abandon]
  split <;> rfl

theorem step_start (s : Service) : ∃ cluster, s.step .start = s.setCluster cluster ∧
    cluster.catalog = s.cluster.catalog ∧
    cluster.naming.registered = s.cluster.naming.registered := by
  cases started : s.cluster.start with
  | ok cluster =>
    have naming := Cluster.naming_start started
    refine ⟨cluster, by simp only [step, started], ?_, congrArg (·.registered) naming⟩
    exact congrArg (·.catalog) naming
  | error e =>
    refine ⟨s.cluster, ?_, rfl, rfl⟩
    simp only [step, started]
    rfl

theorem tree_start (s : Service) : (s.step .start).tree = s.tree := by
  obtain ⟨cluster, result, same, -⟩ := s.step_start
  rw [result]
  exact congrArg Catalog.tree same

theorem tree_stop (s : Service) : (s.setCluster s.cluster.stop).tree = s.tree := by
  change s.cluster.stop.catalog.tree = s.tree
  rw [Cluster.catalog_stop]
  rfl

theorem tidy_empty (config : NamingConfig) (servers : Servers) :
    (start config servers).cluster.Tidy :=
  ⟨Tree.wellFormed_empty _, Tree.furnished_empty _⟩

theorem tidy_step (h : s.cluster.Tidy) (e : Event) : (s.step e).cluster.Tidy := by
  cases e with
  | lock p mode ticket => exact h.lock p mode ticket
  | resume call => exact h.resume _ _
  | abandon call => exact h.of_tree (s.tree_abandon call)
  | unlock p mode => exact h.of_tree (s.tree_unlock p mode)
  | createFile p => exact (h.createFile p).2
  | createDirectory p => exact (h.createDirectory p).2
  | delete p => exact h.delete p
  | storageOf p => exact (h.storageOf p).2
  | register container files => exact (h.register container files).2
  | servers servers => exact h.of_tree rfl
  | start => exact h.of_tree s.tree_start
  | stop => exact h.of_tree s.tree_stop

theorem tidy_run (h : s.cluster.Tidy) (events : List Event) : (s.run events).cluster.Tidy := by
  induction events generalizing s with
  | nil => exact h
  | cons e rest ih => exact ih (tidy_step h e)

end Service

end DistFs
