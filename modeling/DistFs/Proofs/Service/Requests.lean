import DistFs.Proofs.Locking.Changes
import DistFs.Proofs.Locking.Release
import DistFs.Proofs.Locking.Run
import DistFs.Proofs.Service.LockFree
/-!
# Runs with every request

The naming server with the requests of its clients, none of which is left out: entries are removed
while others hold and await the locks on them, paths are unlocked by whoever likes, storage servers
fail and change between requests, and the server may be stopped. The requests that are granted are
the locks in place, whoever believes to have them.
-/

namespace DistFs

namespace Cluster

variable {c : Cluster} {calls : Calls} {ticket : Ticket} {p : Path} {mode : LockMode}
  {strict : Prop} {result : LockAnswer × Catalog}

theorem conclude_undone (calls : Calls) (ticket : Ticket) {target : NodeId} {e : Error}
    (granted : result.1 = .granted target) (failed : (c.conclude p mode result).1 = .failed e) :
    mode = .exclusive ∧
      c.callsThen calls ticket p mode result =
        ({ result.2 with tree := (c.conclude p mode result).2.tree } : Catalog).callsAfter
          (calls.note ticket p mode result.2 result.1) p .exclusive ∧
      (c.conclude p mode result).2.catalog =
        (({ result.2 with tree := (c.conclude p mode result).2.tree } : Catalog).unlock p
          .exclusive).2 := by
  obtain ⟨answer, catalog⟩ := result
  obtain rfl : answer = .granted target := granted
  cases mode with
  | shared => cases failed
  | exclusive =>
    unfold callsThen
    simp only [conclude, afterGrant] at failed ⊢
    cases outcome : (c.setCatalog catalog).tree.consolidate target
        (c.setCatalog catalog).servers with
    | mk result rest =>
      obtain ⟨u, servers⟩ := rest
      cases result with
      | ok count =>
        rw [outcome] at failed
        cases failed
      | error e =>
        refine ⟨trivial, rfl, ?_⟩
        simp only [tree_unlock, tree_setTree]
        rfl

theorem conclude_kept (calls : Calls) (ticket : Ticket) {target : NodeId}
    (granted : result.1 = .granted target) (kept : ∀ e, (c.conclude p mode result).1 ≠ .failed e) :
    (c.conclude p mode result).1 = .granted target ∧
      c.callsThen calls ticket p mode result = calls.note ticket p mode result.2 result.1 ∧
      (c.conclude p mode result).2.catalog =
        { result.2 with tree := (c.conclude p mode result).2.tree } := by
  obtain ⟨answer, catalog⟩ := result
  obtain rfl : answer = .granted target := granted
  cases mode with
  | shared => exact ⟨rfl, rfl, rfl⟩
  | exclusive =>
    unfold callsThen
    simp only [conclude, afterGrant] at kept ⊢
    cases outcome : (c.setCatalog catalog).tree.consolidate target
        (c.setCatalog catalog).servers with
    | mk result rest =>
      obtain ⟨u, servers⟩ := rest
      cases result with
      | ok count => exact ⟨rfl, rfl, rfl⟩
      | error e => exact absurd (by rw [outcome]) (kept e)

theorem conclude_cases (c : Cluster) (calls : Calls) (ticket : Ticket) (p : Path)
    (mode : LockMode) (result : LockAnswer × Catalog) :
    (c.callsThen calls ticket p mode result = calls.note ticket p mode result.2 result.1 ∧
        (c.conclude p mode result).2.catalog =
          { result.2 with tree := (c.conclude p mode result).2.tree }) ∨
      (mode = .exclusive ∧
        c.callsThen calls ticket p mode result =
          ({ result.2 with tree := (c.conclude p mode result).2.tree } : Catalog).callsAfter
            (calls.note ticket p mode result.2 result.1) p .exclusive ∧
        (c.conclude p mode result).2.catalog =
          (({ result.2 with tree := (c.conclude p mode result).2.tree } : Catalog).unlock p
            .exclusive).2) := by
  cases granted : result.1 with
  | granted target =>
    by_cases failed : ∃ e, (c.conclude p mode result).1 = .failed e
    · obtain ⟨e, failed⟩ := failed
      exact .inr (granted ▸ conclude_undone calls ticket granted failed)
    · exact .inl (granted ▸ (conclude_kept calls ticket granted fun e here => failed ⟨e, here⟩).2)
  | waiting a =>
    obtain ⟨answer, catalog⟩ := result
    obtain rfl : answer = .waiting a := granted
    exact .inl ⟨rfl, rfl⟩
  | failed e =>
    obtain ⟨answer, catalog⟩ := result
    obtain rfl : answer = .failed e := granted
    exact .inl ⟨rfl, rfl⟩

theorem waiting_callsThen (c : Cluster) (calls : Calls) (ticket : Ticket) (p : Path)
    (mode : LockMode) (result : LockAnswer × Catalog) :
    (c.callsThen calls ticket p mode result).waiting =
      (calls.note ticket p mode result.2 result.1).waiting := by
  rcases conclude_cases c calls ticket p mode result with ⟨noted, -⟩ | ⟨-, undone, -⟩
  · rw [noted]
  · rw [undone, Catalog.waiting_callsAfter]

theorem changed_conclude {among : NodeId → Prop} (new : result.2.locks.NewOutside among) :
    LockTable.Changed among result.2.locks (c.conclude p mode result).2.catalog.locks := by
  rcases conclude_cases c {} 0 p mode result with ⟨-, catalog⟩ | ⟨-, -, catalog⟩
  · rw [catalog]
  · rw [catalog]
    let d : Catalog := { result.2 with tree := (c.conclude p mode result).2.tree }
    exact Catalog.changed_unlock (c := d) new p .exclusive

theorem Tidy.conclude_grows (tidy : c.Tidy) (p : Path) (mode : LockMode)
    (same : result.2.tree = c.tree) :
    c.tree.Grows (c.conclude p mode result).2.tree ∧
      (c.conclude p mode result).2.tree.WellFormed := by
  refine ⟨?_, (tidy.conclude p mode same).wellFormed⟩
  rw [tree_conclude c p mode same]
  cases result.1 with
  | granted target => exact (tidy.treeAfter mode target).1
  | waiting a => exact .refl _
  | failed e => exact .refl _

theorem Tidy.size_conclude (tidy : c.Tidy) (p : Path) (mode : LockMode)
    (same : result.2.tree = c.tree) : (c.conclude p mode result).2.tree.size = c.tree.size := by
  rw [tree_conclude c p mode same]
  cases result.1 with
  | granted target =>
    cases mode with
    | shared =>
      exact (Tree.recordRead_reading tidy.wellFormed tidy.furnished target c.servers).size
    | exclusive => exact Tree.consolidate_size c.tree target c.servers
  | waiting a => rfl
  | failed e => rfl

theorem sound_granted (tidy : c.Tidy) (same : result.2.tree = c.tree)
    (sound : result.2.Sound (calls.note ticket p mode result.2 result.1) strict) :
    ({ result.2 with tree := (c.conclude p mode result).2.tree } : Catalog).Sound
      (calls.note ticket p mode result.2 result.1) strict := by
  obtain ⟨grows, wf⟩ := tidy.conclude_grows p mode same
  exact sound.of_tree wf (same ▸ grows.toExtends)

theorem sound_conclude (tidy : c.Tidy) (same : result.2.tree = c.tree)
    (sound : result.2.Sound (calls.note ticket p mode result.2 result.1) strict) :
    (c.conclude p mode result).2.catalog.Sound (c.callsThen calls ticket p mode result) strict := by
  have granted := sound_granted tidy same sound
  rcases conclude_cases c calls ticket p mode result with ⟨calls', catalog⟩ | ⟨-, calls', catalog⟩
  · rwa [calls', catalog]
  · rw [calls', catalog]
    exact granted.unlock_any p .exclusive fun _ reader => nomatch reader

end Cluster

namespace Service

variable {s s' : Service} {call : Call} {config : NamingConfig} {strict : Prop}

abbrev traffic (s : Service) : Traffic := ⟨s.cluster.catalog, s.calls⟩

def ReaderAt (s : Service) (p : Path) : Prop :=
  ∃ call ∈ s.calls.granted, call.acquisition.mode = .shared ∧
    s.tree.find? p = some call.acquisition.target

instance (s : Service) (p : Path) : Decidable (s.ReaderAt p) :=
  inferInstanceAs (Decidable (∃ call ∈ s.calls.granted, _))

/-- Who asks for a lock has a new ticket, only who waits goes on, and nobody goes away. If the run
is strict, no shared lock is unlocked that nobody has. -/
def Admits (strict : Prop) (s : Service) : Event → Prop
  | .lock _ _ ticket => ticket ∉ s.calls.tickets
  | .resume call => call ∈ s.calls.waiting
  | .abandon _ => False
  | .unlock p mode => strict → mode = .shared → s.ReaderAt p
  | _ => True

instance [Decidable strict] (s : Service) : (e : Event) → Decidable (s.Admits strict e)
  | .lock _ _ ticket => inferInstanceAs (Decidable (ticket ∉ s.calls.tickets))
  | .resume call => inferInstanceAs (Decidable (call ∈ s.calls.waiting))
  | .abandon _ => inferInstanceAs (Decidable False)
  | .unlock p mode => inferInstanceAs (Decidable (strict → mode = .shared → s.ReaderAt p))
  | .createFile _ | .createDirectory _ | .delete _ | .storageOf _ | .register .. | .servers _
  | .start | .stop => inferInstanceAs (Decidable True)

inductive Request (strict : Prop) (s : Service) : Service → Prop
  | made {e : Event} (admitted : s.Admits strict e) : Request strict s (s.step e)

abbrev Requested (config : NamingConfig) (strict : Prop) : Service → Prop :=
  Reached (Admits strict) config

/-! ## The locks stay balanced -/

structure InOrder (s : Service) (strict : Prop) : Prop where
  sound : s.cluster.catalog.Sound s.calls strict
  furnished : s.tree.Furnished

inductive Effect (strict : Prop) (s : Service) : Service → Prop
  | lock (p : Path) (mode : LockMode) {ticket : Ticket} (fresh : ticket ∉ s.calls.tickets) :
      Effect strict s (s.lock p mode ticket)
  | resume {call : Call} (member : call ∈ s.calls.waiting) : Effect strict s (s.resume call)
  | unlock (p : Path) (mode : LockMode) (owned : strict → mode = .shared → s.ReaderAt p) :
      Effect strict s (s.unlock p mode)
  | lockFree {c : Cluster} (free : s.cluster.LockFree c) : Effect strict s (s.setCluster c)
  | stop : Effect strict s (s.setCluster s.cluster.stop)

theorem Admits.effect {e : Event} (admitted : s.Admits strict e) (tidy : s.cluster.Tidy) :
    Effect strict s (s.step e) := by
  cases e with
  | lock p mode ticket => exact .lock p mode admitted
  | resume call => exact .resume admitted
  | abandon call => exact admitted.elim
  | unlock p mode => exact .unlock p mode admitted
  | createFile p => exact .lockFree (.createFile tidy p)
  | createDirectory p => exact .lockFree (.createDirectory tidy p)
  | delete p => exact .lockFree (.delete tidy p)
  | storageOf p => exact .lockFree (.storageOf tidy p)
  | register container files => exact .lockFree (.register tidy container files)
  | servers servers => exact .lockFree (.of_tree tidy rfl)
  | start =>
    obtain ⟨cluster, result, same, -⟩ := s.step_start
    exact result ▸ .lockFree (.of_tree tidy same)
  | stop => exact .stop

theorem Request.effect (request : Request strict s s') (tidy : s.cluster.Tidy) :
    Effect strict s s' := by
  obtain ⟨admitted⟩ := request
  exact admitted.effect tidy

namespace InOrder

theorem tidy (h : s.InOrder strict) : s.cluster.Tidy := ⟨h.sound.tree, h.furnished⟩

theorem lockFree {c : Cluster} (h : s.InOrder strict) (free : s.cluster.LockFree c) :
    (s.setCluster c).InOrder strict := by
  refine ⟨?_, free.tidy.furnished⟩
  have sound := h.sound.of_tree free.tidy.wellFormed free.extended
  rwa [← free.catalog] at sound

theorem lock (h : s.InOrder strict) (p : Path) (mode : LockMode) {ticket : Ticket}
    (fresh : ticket ∉ s.calls.tickets) : (s.lock p mode ticket).InOrder strict := by
  refine ⟨?_, (h.tidy.lock p mode ticket).furnished⟩
  rcases s.lock_cases p mode ticket with same | same <;> rw [same]
  · exact h.sound.fail fresh
  · exact Cluster.sound_conclude h.tidy (Catalog.tree_lock ..) (h.sound.lock p mode fresh)

theorem resume (h : s.InOrder strict) (member : call ∈ s.calls.waiting) :
    (s.resume call).InOrder strict :=
  ⟨Cluster.sound_conclude h.tidy (Catalog.tree_resume ..) (h.sound.resume member),
    (h.tidy.resume call.acquisition call.ticket).furnished⟩

theorem unlock (h : s.InOrder strict) (p : Path) (mode : LockMode)
    (owned : strict → mode = .shared → s.ReaderAt p) : (s.unlock p mode).InOrder strict := by
  refine ⟨h.sound.unlock_any p mode owned, ?_⟩
  rw [tree_unlock]
  exact h.furnished

theorem stop (h : s.InOrder strict) : (s.setCluster s.cluster.stop).InOrder strict := by
  refine ⟨?_, ?_⟩
  · change s.cluster.stop.catalog.Sound s.calls strict
    rw [Cluster.catalog_stop]
    exact h.sound.interrupt
  · rw [tree_stop]
    exact h.furnished

theorem request (h : s.InOrder strict) (request : Request strict s s') : s'.InOrder strict := by
  cases request.effect h.tidy with
  | lock p mode fresh => exact h.lock p mode fresh
  | resume member => exact h.resume member
  | unlock p mode owned => exact h.unlock p mode owned
  | lockFree free => exact h.lockFree free
  | stop => exact h.stop

end InOrder

theorem inOrder_start (config : NamingConfig) (servers : Servers) :
    (start config servers).InOrder strict :=
  ⟨(Traffic.orderly_start config.replicationThreshold.toNat).sound.loosen, Tree.furnished_empty _⟩

theorem Requested.inOrder (h : Requested config strict s) : s.InOrder strict := by
  induction h with
  | start servers => exact inOrder_start config servers
  | next _ admitted ih => exact ih.request ⟨admitted⟩

end Service

end DistFs
