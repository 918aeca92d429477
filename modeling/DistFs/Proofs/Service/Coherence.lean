import DistFs.Proofs.Service.Steady
import DistFs.Proofs.Service.Writers
/-!
# Coherent replicas

Servers that keep their files in memory join with all that they hold, and clients lock, unlock,
make, remove, look up and write files in any order. Commands may be refused or fail, except when a
path is removed; a file is written under an exclusive lock on its path only, and nothing is removed
that somebody has locked or waits for. Then all replicas of a file are the same.
-/

namespace DistFs

namespace Service

/-- The servers after a client has written to one of them, or after a fault has come or gone. -/
inductive Rewritten (s : Service) : Servers → Prop
  | write (name : String) (offset : UInt64) (w : Bytes) {call : Call}
      (member : call ∈ s.calls.granted) (writer : call.acquisition.mode = .exclusive) :
      Rewritten s (s.cluster.servers.write (.direct name) call.acquisition.path offset w).2
  | setMode (name : String) (commands : Option CommandMode) (data : Option Bool) :
      Rewritten s (s.cluster.servers.setMode name commands data)

def Careful (s : Service) : Event → Prop
  | .lock _ _ ticket => ticket ∉ s.calls.tickets
  | .resume call => call ∈ s.calls.waiting
  | .unlock p mode =>
    ∃ call ∈ s.calls.granted, call.acquisition.path = p ∧ call.acquisition.mode = mode
  | .createFile _ | .createDirectory _ | .storageOf _ => True
  | .delete p => (∀ call ∈ s.calls.current, call.acquisition.path.isUnder p = false) ∧
    ∀ containers, s.tree.containersUnder p = .ok containers →
      (Cluster.deleteOnAll p containers s.cluster.servers).1 = .ok ()
  | .servers servers => s.Rewritten servers
  | .abandon _ | .register .. | .start | .stop => False

def join (s : Service) (name : String) (files dropped : List Path) : Service :=
  let registered := s.step (.register (.own name) files)
  match (s.cluster.register (.own name) files).1 with
  | .error _ => registered
  | .ok _ => registered.step
    (.servers (Cluster.dropDuplicates name dropped registered.cluster.servers).2)

/-- A run in which everybody is careful, and the servers join one by one. A server that joins is
first registered and then drops its duplicates, and may be asked for something in between; such runs
are left out, and in them replicas may be lost: a file that was removed and made anew on the server
by then would be dropped as well. -/
inductive CarefulRun (config : NamingConfig) : Service → Prop
  | start {servers : Servers} (memory : servers.InMemory) : CarefulRun config (start config servers)
  | next {s : Service} (before : CarefulRun config s) {e : Event} (careful : s.Careful e) :
      CarefulRun config (s.step e)
  | join {s : Service} (before : CarefulRun config s) {name : String} {store : MemoryStore}
      {files dropped : List Path} (holds : s.cluster.servers.memory? name = some store)
      (all : files.Perm store.files.keys) (once : dropped.Nodup)
      (given : ∀ duplicates, (s.cluster.register (.own name) files).1 = .ok duplicates →
        ∀ p ∈ dropped, p ∈ duplicates) : CarefulRun config (s.join name files dropped)

structure Coherent (s : Service) : Prop where
  guarded : s.Guarded
  located : s.cluster.catalog.Located s.calls
  backed : s.cluster.Backed

end Service

/-! ## Grants -/

namespace Cluster

variable {c : Cluster} {calls : Calls} {ticket : Ticket} {p : Path} {mode : LockMode}
  {result : LockAnswer × Catalog}

theorem current_callsThen (c : Cluster) (calls : Calls) (ticket : Ticket) (p : Path)
    (mode : LockMode) (result : LockAnswer × Catalog) :
    (c.callsThen calls ticket p mode result).current ⊆
      (calls.note ticket p mode result.2 result.1).current := by
  intro call member
  rw [Calls.current, waiting_callsThen] at member
  exact List.mem_append.mpr ((List.mem_append.mp member).imp_right fun granted =>
    granted_callsThen c calls ticket p mode result granted)

theorem located_conclude (tidy : c.Tidy) (same : result.2.tree = c.tree)
    (located : result.2.Located (calls.note ticket p mode result.2 result.1)) :
    (c.conclude p mode result).2.catalog.Located (c.callsThen calls ticket p mode result) := by
  obtain ⟨grows, wf⟩ := tidy.conclude_grows p mode same
  intro call member
  have found := located call (current_callsThen c calls ticket p mode result member)
  rw [same] at found
  exact grows.find? tidy.wellFormed wf found

theorem backed_conclude (tidy : c.Tidy) (backed : c.Backed) (same : result.2.tree = c.tree)
    (located : result.2.Located (calls.note ticket p mode result.2 result.1)) :
    (c.conclude p mode result).2.Backed := by
  obtain ⟨answer, catalog⟩ := result
  have tree : (c.setCatalog catalog).tree = c.tree := same
  have before : (c.setCatalog catalog).Backed := by
    rw [Backed, tree]
    exact backed
  cases answer with
  | waiting a => exact before
  | failed e => exact before
  | granted target =>
    have wf : (c.setCatalog catalog).tree.WellFormed := tree ▸ tidy.wellFormed
    have found : (c.setCatalog catalog).tree.find? p = some target :=
      located ⟨ticket, catalog.grantOf p mode target⟩ (by simp [Calls.note, Calls.current])
    have attached := ((Tree.find?_eq_some_iff wf).mp found).1
    cases mode with
    | shared =>
      exact Tree.Backed.recordRead before wf (tree ▸ tidy.furnished) attached
    | exclusive =>
      have after := Tree.Backed.consolidate before wf attached
      simp only [conclude, afterGrant]
      cases outcome :
        (c.setCatalog catalog).tree.consolidate target (c.setCatalog catalog).servers with
      | mk result rest =>
        obtain ⟨u, servers⟩ := rest
        rw [outcome] at after
        cases result with
        | ok count => exact after
        | error e =>
          simp only [Backed, tree_unlock]
          exact after

end Cluster

namespace Service

variable {s : Service} {call : Call} {config : NamingConfig} {p : Path} {mode : LockMode}
  {e : Event}

namespace Coherent

theorem tidy (h : s.Coherent) : s.cluster.Tidy := h.guarded.inOrder.tidy

theorem steady {c : Cluster} (h : s.Coherent) (steady : s.cluster.Steady c) :
    (s.setCluster c).Coherent := by
  refine ⟨(h.guarded.lockFree steady.toLockFree).1, fun call member => ?_, steady.backed⟩
  exact steady.grows.find? h.tidy.wellFormed steady.tidy.wellFormed (h.located call member)

theorem lock (h : s.Coherent) (p : Path) (mode : LockMode) {ticket : Ticket}
    (fresh : ticket ∉ s.calls.tickets) : (s.lock p mode ticket).Coherent := by
  suffices after : (s.lock p mode ticket).cluster.catalog.Located (s.lock p mode ticket).calls ∧
      (s.lock p mode ticket).cluster.Backed from
    ⟨(h.guarded.lock p mode fresh).1, after.1, after.2⟩
  have located := h.located.lock h.guarded.inOrder.sound p mode fresh
  rcases s.lock_cases p mode ticket with same | same <;> rw [same]
  · exact ⟨h.located, h.backed⟩
  · exact ⟨Cluster.located_conclude h.tidy (Catalog.tree_lock ..) located,
      Cluster.backed_conclude h.tidy h.backed (Catalog.tree_lock ..) located⟩

theorem resume (h : s.Coherent) (member : call ∈ s.calls.waiting) : (s.resume call).Coherent := by
  have located := h.located.resume h.guarded.inOrder.sound member
  exact ⟨(h.guarded.resume member).1,
    Cluster.located_conclude h.tidy (Catalog.tree_resume ..) located,
    Cluster.backed_conclude h.tidy h.backed (Catalog.tree_resume ..) located⟩

theorem unlock (h : s.Coherent) (member : call ∈ s.calls.granted) :
    (s.unlock call.acquisition.path call.acquisition.mode).Coherent := by
  have here := h.located call (List.mem_append_right _ member)
  have tree := s.tree_unlock call.acquisition.path call.acquisition.mode
  refine ⟨(h.guarded.unlock _ _ fun _ reader => ⟨call, member, reader, here⟩).1,
    fun other listed => ?_, ?_⟩
  · change (s.unlock call.acquisition.path call.acquisition.mode).tree.find? _ = _
    rw [tree]
    refine h.located other (List.mem_append.mpr ((List.mem_append.mp listed).imp ?_ ?_))
    · exact fun waits => by rwa [Service.unlock, Catalog.waiting_callsAfter] at waits
    · exact fun granted => Catalog.granted_callsAfter _ _ _ _ granted
  · change (s.unlock call.acquisition.path call.acquisition.mode).tree.Backed _ _
    rw [tree]
    exact h.backed

/-! ## Removing and writing -/

theorem delete (h : s.Coherent) (p : Path)
    (free : ∀ call ∈ s.calls.current, call.acquisition.path.isUnder p = false)
    (works : ∀ containers, s.tree.containersUnder p = .ok containers →
      (Cluster.deleteOnAll p containers s.cluster.servers).1 = .ok ()) :
    (s.setCluster (s.cluster.delete p).2).Coherent := by
  have wf := h.tidy.wellFormed
  have lockFree := Cluster.LockFree.delete h.tidy p
  have deleting := Cluster.delete_deleting wf p
  generalize s.cluster.delete p = result at *
  cases deleting with
  | nothing => exact h
  | @failed containers e listed failed =>
    rw [works containers listed] at failed
    cases failed
  | @removed containers n found other listed done =>
    obtain ⟨memory, contents⟩ := Servers.deleteOnAll_contents h.backed.memory p
      fun c member => (h.backed.of_containersUnder h.tidy.furnished listed member).1
    refine ⟨(h.guarded.lockFree lockFree).1, fun call member => ?_,
      h.backed.unlink wf found memory contents⟩
    obtain ⟨attached, path⟩ := (Tree.find?_eq_some_iff wf).mp (h.located call member)
    have same := (Tree.extends_unlink s.tree n).same _ attached.known
    refine (Tree.find?_eq_some_iff (wf.unlink other)).mpr ⟨?_, same.path.trans path⟩
    exact (Tree.attached_unlink wf found).mpr ⟨attached, path ▸ free call member⟩

theorem servers {servers : Servers} (h : s.Coherent) (rewritten : s.Rewritten servers) :
    (s.step (.servers servers)).Coherent := by
  apply h.steady
  apply Cluster.Steady.servers h.tidy
  cases rewritten with
  | write name offset w member writer =>
    obtain ⟨memory, there, elsewhere⟩ :=
      Servers.write_direct_contents h.backed.memory name _ offset w
    refine h.backed.written memory ?_ there elsewhere
    intro n attached file path
    have found := (Tree.find?_eq_some_iff h.tidy.wellFormed).mpr ⟨attached, path⟩
    have located := h.located _ (List.mem_append_right _ member)
    obtain rfl := Option.some.inj (located.symm.trans found)
    exact h.guarded.alone _ member writer file
  | setMode name commands data =>
    obtain ⟨memory, contents⟩ := Servers.setMode_contents h.backed.memory name commands data
    apply h.backed.of_servers memory
    exact fun n _ _ other _ => contents other _

theorem step (h : s.Coherent) (careful : s.Careful e) : (s.step e).Coherent := by
  cases e with
  | lock p mode ticket => exact h.lock p mode careful
  | resume call => exact h.resume careful
  | unlock p mode =>
    obtain ⟨call, member, rfl, rfl⟩ := careful
    exact h.unlock member
  | createFile p => exact h.steady (.createFile h.tidy h.backed p)
  | createDirectory p => exact h.steady (.createDirectory h.tidy h.backed p)
  | storageOf p => exact h.steady (.storageOf h.tidy h.backed p)
  | delete p => exact h.delete p careful.1 careful.2
  | servers servers => exact h.servers careful
  | abandon | register | start | stop => exact careful.elim

theorem join (h : s.Coherent) {name : String} {store : MemoryStore} {files dropped : List Path}
    (holds : s.cluster.servers.memory? name = some store) (all : files.Perm store.files.keys)
    (once : dropped.Nodup)
    (given : ∀ duplicates, (s.cluster.register (.own name) files).1 = .ok duplicates →
      ∀ p ∈ dropped, p ∈ duplicates) : (s.join name files dropped).Coherent := by
  have held : ∀ p ∈ files, s.cluster.servers.content name p ≠ none := by
    intro p member
    obtain ⟨d, there⟩ := PathMap.mem_keys.mp (all.subset member)
    simp [Servers.content, holds, there]
  have nodup := all.nodup_iff.mpr store.files.nodup_keys
  simp only [Service.join, Service.step]
  by_cases known : (Container.own name).endpoints.1 ∈ s.cluster.naming.registered ∨
      (Container.own name).endpoints.2 ∈ s.cluster.naming.registered
  · rw [Cluster.register_known s.cluster files known]
    exact h
  · obtain ⟨offers, u, -, -, result⟩ := Cluster.register_new h.tidy.wellFormed files known
    have steady := Cluster.Steady.join h.tidy h.backed nodup held (by rw [result]) once
      (given _ (by rw [result]))
    rw [result] at steady ⊢
    exact h.steady steady

end Coherent

theorem coherent_start (config : NamingConfig) {servers : Servers} (memory : servers.InMemory) :
    (start config servers).Coherent :=
  ⟨guarded_start config servers, (Traffic.orderly_start _).located, .empty memory _⟩

theorem CarefulRun.coherent (h : CarefulRun config s) : s.Coherent := by
  induction h with
  | start memory => exact coherent_start config memory
  | next _ careful ih => exact ih.step careful
  | join _ holds all once given ih => exact ih.join holds all once given

/-- In every state of a run, every replica of a file in the tree is on a server that holds the file,
and all of them hold the same. -/
theorem replicas_agree (h : CarefulRun config s) :
    ∀ n, s.tree.Attached n → (s.tree.node n).isFile = true →
      ∃ d : Bytes, ∀ c ∈ (s.tree.node n).replicas, ∃ name,
        c = ⟨.direct name, .direct name⟩ ∧
        s.cluster.servers.content name (s.tree.node n).path = some d := by
  intro n attached file
  exact h.coherent.backed.agree n attached file

theorem pairServers_inMemory : pairServers.InMemory := by
  intro name server found
  obtain ⟨entry, listed, rfl⟩ := Option.map_eq_some_iff.mp found
  have member := List.mem_of_find?_eq_some listed
  simp only [pairServers, List.mem_cons, List.not_mem_nil, or_false] at member
  cases member with
  | inl first =>
      subst first
      refine ⟨_, rfl, fun p d there => ?_⟩
      simp only [PathMap.get?, List.find?_cons, List.find?_nil] at there
      split at there
      · cases there
        decide
      · cases there
  | inr second =>
      subst second
      exact ⟨_, rfl, fun p d there => nomatch there⟩

def pairJoined : Service :=
  (start { replicationThreshold := 1 } pairServers).join "s" [.sole] []

def pairRead : Service := (pairJoined.join "t" [] []).step (.lock .sole .shared 0)

theorem pairRead_replicas_agree :
    (pairRead.tree.node 1).replicas.length = 2 ∧
      ∃ d : Bytes, ∀ c ∈ (pairRead.tree.node 1).replicas, ∃ name,
        c = ⟨.direct name, .direct name⟩ ∧
        pairRead.cluster.servers.content name (pairRead.tree.node 1).path = some d := by
  have first : CarefulRun { replicationThreshold := 1 } pairJoined :=
    .join (.start pairServers_inMemory) rfl (.refl _) .nil (by simp)
  have empty : pairJoined.cluster.servers.memory? "t" = some {} := by rfl
  have second : CarefulRun { replicationThreshold := 1 } (pairJoined.join "t" [] []) :=
    .join first empty (.refl _) .nil (by simp)
  have fresh : (pairJoined.join "t" [] []).Careful (.lock .sole .shared 0) :=
    show 0 ∉ (pairJoined.join "t" [] []).calls.tickets by decide +kernel
  have careful : CarefulRun { replicationThreshold := 1 } pairRead := .next second fresh
  have found : pairRead.tree.find? .sole = some 1 := by decide +kernel
  have attached := ((Tree.find?_eq_some_iff careful.coherent.tidy.wellFormed).mp found).1
  exact ⟨by decide +kernel, replicas_agree careful 1 attached (by decide +kernel)⟩

end Service

end DistFs
