import DistFs.Proofs.Service.Run
/-!
# Which containers stay available

A container that has registered can be used as long as it is available. It ceases to be available in
three ways, and never comes back: with the last file or directory that used it when a path is
deleted, with its last copy of a file when that is locked exclusively, and when it is taken from the
pool for a copy of a file that was removed while its reader waited (`Withdraws`). New files are
refused for want of storage exactly if no container is available.
-/

namespace DistFs

namespace Cluster

variable {c : Cluster} {x d : Container} {p q : Path} {m n : Nat} {a : Name} {mode : LockMode}
  {target : NodeId} {answer : LockAnswer} {catalog : Catalog} {files duplicates : List Path}

/-! ## Locks -/

def GrantLoses (c : Cluster) (mode : LockMode) (target : NodeId) (x : Container) : Prop :=
  match mode with
  | .shared => c.tree.LostToCopy target c.servers x
  | .exclusive => c.tree.LostToWriter target x

theorem available_treeAfter (h : c.Tidy) (mode : LockMode) (target : NodeId) :
    (c.treeAfter mode target).Available x ↔ c.tree.Available x ∧ ¬ c.GrantLoses mode target x := by
  cases mode with
  | shared => exact Tree.available_recordRead h.wellFormed h.furnished
  | exclusive => exact Tree.available_consolidate h.wellFormed

theorem available_conclude (h : c.Tidy) (p : Path) (mode : LockMode)
    {result : LockAnswer × Catalog} (same : result.2.tree = c.tree) :
    (c.conclude p mode result).2.tree.Available x ↔ c.tree.Available x ∧
      ¬ ∃ target, result.1 = .granted target ∧ c.GrantLoses mode target x := by
  rw [tree_conclude c p mode same]
  obtain ⟨answer, catalog⟩ := result
  cases answer with
  | granted target => simp [available_treeAfter h]
  | waiting => simp
  | failed => simp

def LockLoses (c : Cluster) (p : Path) (mode : LockMode) (ticket : Ticket) (x : Container) : Prop :=
  c.naming.stopped = false ∧
    ∃ target, (c.catalog.lock p mode ticket).1 = .granted target ∧ c.GrantLoses mode target x

theorem available_lock (h : c.Tidy) (p : Path) (mode : LockMode) (ticket : Ticket) :
    (c.lock p mode ticket).2.tree.Available x ↔
      c.tree.Available x ∧ ¬ c.LockLoses p mode ticket x := by
  unfold lock LockLoses
  cases stopped : c.naming.stopped with
  | true => simp
  | false =>
      rw [if_neg (by simp), available_conclude h p mode (Catalog.tree_lock c.catalog p mode ticket)]
      simp only [true_and]

def ResumeLoses (c : Cluster) (a : Acquisition) (ticket : Ticket) (x : Container) : Prop :=
  ∃ target, (c.catalog.resume a ticket).1 = .granted target ∧ c.GrantLoses a.mode target x

theorem available_resume (h : c.Tidy) (a : Acquisition) (ticket : Ticket) :
    (c.resume a ticket).2.tree.Available x ↔ c.tree.Available x ∧ ¬ c.ResumeLoses a ticket x :=
  available_conclude h a.path a.mode (Catalog.tree_resume c.catalog a ticket)

/-! ## Making and removing entries -/

theorem available_creating (h : c.Tidy) (found : c.tree.find? q = some m)
    (directory : (c.tree.node m).isFile = false) (absent : c.tree.find? (q.child a) = none)
    {result : Except Error Bool × Cluster} (creating : c.Creating m (q.child a) result) :
    result.2.tree.Available x ↔ c.tree.Available x := by
  obtain ⟨attached, path⟩ := (Tree.find?_eq_some_iff h.wellFormed).mp found
  have free : c.tree.child? m a = none := by simpa [Tree.find?_child, found] using absent
  cases creating with
  | unplaced => exact Iff.rfl
  | @made e fromPool u taken created =>
      have before := taken.available (c := x)
      obtain ⟨pool, rfl⟩ := taken.nodes
      have kept := Tree.kept_insert (t := { c.tree with pool }) (c := x) (m := m) (a := a)
        (x := { path := q.child a, kind := .file, replicas := [e] }) h.wellFormed.of_pool
        (Tree.attached_pool.mpr attached) directory free (by rw [← path]; rfl) (by simp) rfl
      have keeps : Node.keeps { path := q.child a, kind := .file, replicas := [e] } = [e] := by
        simp [Node.keeps, Node.isFile]
      rw [keeps, Container.isIn_cons, Container.isIn_nil, Bool.or_false, decide_eq_true_eq] at kept
      rw [before, tree_setTree, Tree.Available, Tree.pool_insert, kept, Tree.Available, ← or_assoc]
      exact or_comm
  | @refused e fromPool u taken refused => exact taken.returned

theorem available_createFile (h : c.Tidy) (p : Path) :
    (c.createFile p).2.tree.Available x ↔ c.tree.Available x := by
  cases createFile_cases h.wellFormed h.furnished p with
  | inl same => rw [same]
  | inr there =>
      obtain ⟨q, a, m, rfl, found, directory, absent, creating⟩ := there
      exact available_creating h found directory absent creating

theorem available_createDirectory (h : c.Tidy) (p : Path) :
    (c.createDirectory p).2.tree.Available x ↔ c.tree.Available x := by
  cases createDirectory_cases c p with
  | inl same => rw [same]
  | inr made =>
      obtain ⟨n, u, added, result⟩ := made
      rw [result, tree_setTree]
      apply Tree.available_grown h.wellFormed (Tree.add_grown h.wellFormed added)
      simp

theorem available_storageOf (h : c.Tidy) (p : Path) :
    (c.storageOf p).2.tree.Available x ↔ c.tree.Available x := by
  cases storageOf_cases c p with
  | inl same => rw [same]
  | inr turned =>
      obtain ⟨n, turn, result⟩ := turned
      rw [result]
      exact Tree.available_modify h.wellFormed n ⟨rfl, rfl, rfl⟩ rfl rfl

def DeleteLoses (c : Cluster) (p : Path) (x : Container) : Prop :=
  (c.delete p).1 = .ok true ∧ x.isIn c.tree.pool = false ∧
    ∀ n, c.tree.Attached n → x.isIn (c.tree.node n).keeps = true →
      (c.tree.node n).path.isUnder p = true

theorem available_delete (h : c.Tidy) (p : Path) :
    (c.delete p).2.tree.Available x ↔ c.tree.Available x ∧ ¬ c.DeleteLoses p x := by
  have deleting := delete_deleting h.wellFormed p
  unfold DeleteLoses
  generalize c.delete p = result at deleting
  cases deleting with
  | nothing result kept => simp [kept]
  | failed => simp [tree, catalog]
  | @removed containers n found other listed done =>
      rw [tree_setTree, Tree.available_unlink h.wellFormed found]
      unfold Tree.Available Tree.Kept
      constructor
      · intro available
        cases available with
        | inl pooled => simp [pooled]
        | inr there =>
            obtain ⟨m, attached, apart, kept⟩ := there
            refine ⟨.inr ⟨m, attached, kept⟩, fun lost => ?_⟩
            rw [lost.2.2 m attached kept] at apart
            cases apart
      · intro available
        obtain ⟨before, stays⟩ := available
        by_contra gone
        apply stays
        refine ⟨rfl, Bool.eq_false_iff.mpr fun pooled => gone (.inl pooled), ?_⟩
        intro m attached kept
        by_contra apart
        exact gone (.inr ⟨m, attached, Bool.eq_false_iff.mpr apart, kept⟩)

theorem createFile_answer (h : c.Tidy) (found : c.tree.find? q = some m)
    (directory : (c.tree.node m).isFile = false) (absent : c.tree.find? (q.child a) = none)
    (known : c.naming.registered ≠ []) :
    ((∀ e, ¬ c.tree.Available e) → (c.createFile (q.child a)).1 = .error .noStorage) ∧
      ((∃ e, c.tree.Available e) → ∃ e, c.tree.Available e ∧
        (c.createFile (q.child a)).1 = (c.servers.create e.command (q.child a)).1) := by
  have creating := createFile_creating h.wellFormed h.furnished found directory absent known
  generalize c.createFile (q.child a) = result at creating
  cases creating with
  | unplaced none =>
      refine ⟨fun _ => rfl, fun some => ?_⟩
      obtain ⟨e, available⟩ := some
      exact absurd available (none e)
  | @made e fromPool u taken created =>
      have available : c.tree.Available e := taken.available.mpr (.inl rfl)
      exact ⟨fun none => absurd available (none e), fun _ => ⟨e, available, created.symm⟩⟩
  | @refused e fromPool u taken refused =>
      have available : c.tree.Available e := taken.available.mpr (.inl rfl)
      exact ⟨fun none => absurd available (none e), fun _ => ⟨e, available, rfl⟩⟩

/-! ## Registration -/

theorem available_register_other (h : c.Tidy) (files : List Path)
    (other : d.endpoints ≠ x.endpoints) :
    (c.register d files).2.tree.Available x ↔ c.tree.Available x := by
  by_cases known : d.endpoints.1 ∈ c.naming.registered ∨ d.endpoints.2 ∈ c.naming.registered
  · rw [register_known c files known]
  · obtain ⟨offers, u, recorded, -, result⟩ := register_new h.wellFormed files known
    have after := recorded.available (x := x) h.wellFormed fun same => absurd same other
    rw [result, tree_setTree]
    split
    · exact after
    · have pooled := Tree.isIn_addToPool u x d
      obtain ⟨pool, added⟩ := Tree.addToPool_eq u d
      rw [added] at pooled ⊢
      simp only [other, decide_false, Bool.false_or] at pooled
      rw [← after, Tree.Available, Tree.kept_pool, pooled]
      exact Iff.rfl

theorem available_register (h : c.Tidy) (files : List Path)
    (entered : x.endpoints.1 ∈ c.naming.registered) :
    (c.register d files).2.tree.Available x ↔ c.tree.Available x := by
  by_cases same : d.endpoints = x.endpoints
  · rw [register_known c files (.inl (same ▸ entered))]
  · exact available_register_other h files same

theorem available_of_registered (h : c.Tidy) (accepted : (c.register d files).1 = .ok duplicates) :
    (c.register d files).2.tree.Available d ∧
      d.endpoints.1 ∈ (c.register d files).2.naming.registered := by
  by_cases known : d.endpoints.1 ∈ c.naming.registered ∨ d.endpoints.2 ∈ c.naming.registered
  · rw [register_known c files known] at accepted
    cases accepted
  · obtain ⟨offers, u, recorded, -, result⟩ := register_new h.wellFormed files known
    rw [result]
    refine ⟨?_, (mem_enroll c d).1⟩
    rw [tree_setTree]
    split
    next added =>
      obtain ⟨offer, member, added⟩ := List.any_eq_true.mp added
      obtain ⟨p, offer⟩ := offer
      obtain rfl : offer = .added := of_decide_eq_true added
      exact recorded.enters h.wellFormed member
    next =>
      left
      simp [Tree.isIn_addToPool]

/-! ## Endpoints stay registered -/

theorem registered_afterGrant (c : Cluster) (p : Path) (mode : LockMode) (target : NodeId) :
    (c.afterGrant p mode target).2.naming.registered = c.naming.registered := by
  unfold afterGrant
  cases mode with
  | shared => rfl
  | exclusive =>
      simp only
      split <;> rfl

theorem registered_conclude (c : Cluster) (p : Path) (mode : LockMode)
    (result : LockAnswer × Catalog) :
    (c.conclude p mode result).2.naming.registered = c.naming.registered := by
  obtain ⟨answer, catalog⟩ := result
  cases answer with
  | granted target =>
      rw [conclude_granted]
      exact registered_afterGrant (c.setCatalog catalog) p mode target
  | waiting => rfl
  | failed => rfl

theorem registered_lock (c : Cluster) (p : Path) (mode : LockMode) (ticket : Ticket) :
    (c.lock p mode ticket).2.naming.registered = c.naming.registered := by
  unfold lock
  split
  · rfl
  · exact registered_conclude ..

theorem registered_register (c : Cluster) (d : Container) (files : List Path) {e : String}
    (entered : e ∈ c.naming.registered) : e ∈ (c.register d files).2.naming.registered := by
  unfold register
  simp only
  split
  · exact entered
  · split <;> exact List.mem_append_left _ entered

theorem registered_createFile (c : Cluster) (p : Path) :
    (c.createFile p).2.naming.registered = c.naming.registered := by
  unfold createFile
  repeat' split
  all_goals rfl

theorem registered_createDirectory (c : Cluster) (p : Path) :
    (c.createDirectory p).2.naming.registered = c.naming.registered := by
  cases createDirectory_cases c p with
  | inl same => rw [same]
  | inr made =>
      obtain ⟨n, u, -, result⟩ := made
      rw [result]
      rfl

theorem registered_delete (c : Cluster) (p : Path) :
    (c.delete p).2.naming.registered = c.naming.registered := by
  unfold delete
  repeat' split
  all_goals rfl

theorem registered_storageOf (c : Cluster) (p : Path) :
    (c.storageOf p).2.naming.registered = c.naming.registered := by
  cases storageOf_cases c p with
  | inl same => rw [same]
  | inr turned =>
      obtain ⟨n, turn, result⟩ := turned
      rw [result]
      rfl

end Cluster

namespace Service

variable {s : Service} {x : Container} {e : Event} {events : List Event}

def Withdraws (s : Service) (x : Container) : Event → Prop
  | .lock p mode ticket => s.cluster.LockLoses p mode ticket x
  | .resume call => s.cluster.ResumeLoses call.acquisition call.ticket x
  | .delete p => s.cluster.DeleteLoses p x
  | _ => False

def Withdrawn (s : Service) (x : Container) : List Event → Prop
  | [] => False
  | e :: rest => s.Withdraws x e ∨ (s.step e).Withdrawn x rest

theorem registered_step (s : Service) (e : Event) {endpoint : String}
    (entered : endpoint ∈ s.cluster.naming.registered) :
    endpoint ∈ (s.step e).cluster.naming.registered := by
  cases e with
  | lock p mode ticket => exact (Cluster.registered_lock s.cluster p mode ticket).symm ▸ entered
  | resume call => exact (Cluster.registered_conclude ..).symm ▸ entered
  | abandon call => exact entered
  | unlock p mode => exact entered
  | createFile p => exact (Cluster.registered_createFile s.cluster p).symm ▸ entered
  | createDirectory p => exact (Cluster.registered_createDirectory s.cluster p).symm ▸ entered
  | delete p => exact (Cluster.registered_delete s.cluster p).symm ▸ entered
  | storageOf p => exact (Cluster.registered_storageOf s.cluster p).symm ▸ entered
  | register d files => exact Cluster.registered_register _ d files entered
  | servers servers => exact entered
  | start =>
      obtain ⟨cluster, result, -, registered⟩ := s.step_start
      rw [result]
      exact registered.symm ▸ entered
  | stop => exact (Cluster.registered_stop s.cluster).symm ▸ entered

theorem available_step (h : s.cluster.Tidy) (e : Event)
    (entered : ∀ d files, e = .register d files →
      x.endpoints.1 ∈ s.cluster.naming.registered) :
    (s.step e).tree.Available x ↔ s.tree.Available x ∧ ¬ s.Withdraws x e := by
  have kept {t : Tree} (same : t.Available x ↔ s.tree.Available x) :
      t.Available x ↔ s.tree.Available x ∧ ¬ False := by
    rw [same, not_false_iff, and_true]
  cases e with
  | lock p mode ticket => exact Cluster.available_lock h p mode ticket
  | resume call => exact Cluster.available_resume h call.acquisition call.ticket
  | abandon call => exact kept (by rw [step, tree_abandon])
  | unlock p mode => exact kept (by rw [step, tree_unlock])
  | createFile p => exact kept (Cluster.available_createFile h p)
  | createDirectory p => exact kept (Cluster.available_createDirectory h p)
  | delete p => exact Cluster.available_delete h p
  | storageOf p => exact kept (Cluster.available_storageOf h p)
  | register d files => exact kept (Cluster.available_register h files (entered d files rfl))
  | servers servers => exact kept Iff.rfl
  | start => exact kept (by rw [tree_start])
  | stop => exact kept (by rw [step, tree_stop])

theorem unavailable_run (h : s.cluster.Tidy)
    (entered : x.endpoints.1 ∈ s.cluster.naming.registered) (events : List Event)
    (gone : ¬ s.tree.Available x) : ¬ (s.run events).tree.Available x := by
  induction events generalizing s with
  | nil => exact gone
  | cons e rest ih =>
      apply ih (tidy_step h e) (registered_step s e entered)
      rw [available_step h e fun _ _ _ => entered]
      exact fun stays => gone stays.1

theorem available_run (h : s.cluster.Tidy) (entered : x.endpoints.1 ∈ s.cluster.naming.registered)
    (available : s.tree.Available x) (events : List Event) :
    (s.run events).tree.Available x ↔ ¬ s.Withdrawn x events := by
  induction events generalizing s with
  | nil => simpa [run, Withdrawn] using available
  | cons e rest ih =>
      have step := available_step h e fun _ _ _ => entered
      have run : s.run (e :: rest) = (s.step e).run rest := rfl
      have entered' := registered_step s e entered
      rw [run, Withdrawn]
      by_cases lost : s.Withdraws x e
      · -- What is lost stays lost, whatever comes later.
        have gone :=
          unavailable_run (tidy_step h e) entered' rest (fun stays => (step.mp stays).2 lost)
        simp [lost, gone]
      · rw [ih (tidy_step h e) entered' (step.mpr ⟨available, lost⟩)]
        simp [lost]

theorem registered_run (s : Service) (events : List Event) {endpoint : String}
    (entered : endpoint ∈ s.cluster.naming.registered) :
    endpoint ∈ (s.run events).cluster.naming.registered := by
  induction events generalizing s with
  | nil => exact entered
  | cons e rest ih => exact ih (s.step e) (registered_step s e entered)

/-- A container that has registered stays available until one of the requests takes it away, and
is not available after that. A new file is refused for want of storage exactly if none is left. -/
theorem available_iff_not_withdrawn (config : NamingConfig) (servers : Servers)
    (before after : List Event) {x : Container} {files duplicates : List Path}
    (accepted : (((start config servers).run before).cluster.register x files).1 = .ok duplicates) :
    let entered := ((start config servers).run before).step (.register x files)
    let s := entered.run after
    (s.tree.Available x ↔ ¬ entered.Withdrawn x after) ∧
      ∀ q a m, s.tree.find? q = some m → (s.tree.node m).isFile = false →
        s.tree.find? (q.child a) = none →
        ((∀ e, ¬ s.tree.Available e) →
          (s.cluster.createFile (q.child a)).1 = .error .noStorage) ∧
        ((∃ e, s.tree.Available e) → ∃ e, s.tree.Available e ∧
          (s.cluster.createFile (q.child a)).1 =
            (s.cluster.servers.create e.command (q.child a)).1) := by
  intro entered s
  have tidy := tidy_run (tidy_empty config servers) before
  have tidy' : entered.cluster.Tidy := tidy_step tidy (.register x files)
  obtain ⟨available, registered⟩ := Cluster.available_of_registered tidy accepted
  refine ⟨available_run tidy' registered available after, ?_⟩
  intro q a m found directory absent
  apply Cluster.createFile_answer (tidy_run tidy' after) found directory absent
  have stays := registered_run entered after registered
  exact List.ne_nil_of_mem stays

def vacant : Service :=
  (start {} { servers := [("s", { backend := .memory {} })] }).run
    [.register ⟨.direct "s", .direct "s"⟩ []]

def fleeting : List Event := [.createFile .sole, .delete .sole]

theorem fleeting_strands_container :
    vacant.Withdrawn ⟨.direct "s", .direct "s"⟩ fleeting ∧
      ((vacant.run fleeting).cluster.createFile
        (.child .root ⟨"b", by decide, by decide, by decide⟩)).1 = .error .noStorage := by
  have accepted : (Cluster.register
      (start {} { servers := [("s", { backend := .memory {} })] }).cluster
      ⟨.direct "s", .direct "s"⟩ []).1 = .ok [] := by decide +kernel
  obtain ⟨stays, answers⟩ := available_iff_not_withdrawn {}
    { servers := [("s", { backend := .memory {} })] } [] fleeting accepted
  have size : (vacant.run fleeting).tree.size = 2 := by decide +kernel
  have pool : (vacant.run fleeting).tree.pool = [] := by decide +kernel
  have root : ((vacant.run fleeting).tree.node 0).keeps = [] := by decide +kernel
  have removed : ((vacant.run fleeting).tree.node 1).linked = false := by decide +kernel
  have nothing : ∀ e, ¬ (vacant.run fleeting).tree.Available e := by
    intro e available
    cases available with
    | inl pooled => simp [pool] at pooled
    | inr kept =>
        obtain ⟨n, attached, here⟩ := kept
        have known := attached.known
        have linked := attached.linked
        rw [size] at known
        match n, known with
        | 0, _ => simp [root] at here
        | 1, _ => simp [removed] at linked
  constructor
  · by_contra kept
    exact nothing _ (stays.mpr kept)
  · exact (answers .root _ Tree.rootId rfl (by decide +kernel) (by decide +kernel)).1 nothing

end Service

end DistFs
