import DistFs.Proofs.Service.Requests
import DistFs.Proofs.Storage.Contents

namespace DistFs

namespace Cluster

variable {c : Cluster} {calls : Calls} {call : Call} {ticket : Ticket} {p : Path}
  {mode : LockMode} {result : LockAnswer × Catalog} {n : Nat} {target : NodeId}

theorem granted_callsThen (c : Cluster) (calls : Calls) (ticket : Ticket) (p : Path)
    (mode : LockMode) (result : LockAnswer × Catalog) :
    (c.callsThen calls ticket p mode result).granted ⊆
      (calls.note ticket p mode result.2 result.1).granted := by
  rcases conclude_cases c calls ticket p mode result with ⟨calls', -⟩ | ⟨-, calls', -⟩
  · rw [calls']
    exact List.Subset.refl _
  · rw [calls']
    exact Catalog.granted_callsAfter ..

theorem target_apart
    (sound : result.2.Sound (calls.note ticket p mode result.2 result.1) True)
    (granted : result.1 = .granted target) (fresh : ticket ∉ calls.tickets)
    (member : call ∈ calls.granted) (taken : (n, .exclusive) ∈ call.acquisition.taken) :
    n ≠ target := by
  rintro rfl
  rw [granted] at sound
  have new : (⟨ticket, result.2.grantOf p mode n⟩ : Call) ∈
      (calls.note ticket p mode result.2 (.granted n)).granted :=
    List.mem_append_right _ List.mem_cons_self
  have old : call ∈ (calls.note ticket p mode result.2 (.granted n)).granted :=
    List.mem_append_left _ member
  cases mode with
  | shared =>
    refine sound.not_exclusive (List.mem_append_right _ new) (List.mem_append_right _ old) ?_ taken
    exact List.mem_cons_self
  | exclusive =>
    have same := sound.eq_of_exclusive (List.mem_append_right _ old) (List.mem_append_right _ new)
      taken (sound.taken_target new rfl)
    exact Calls.ticket_ne_of_fresh fresh member (congrArg Call.ticket same)

theorem Tidy.conclude_elsewhere (tidy : c.Tidy) (p : Path) (mode : LockMode)
    (same : result.2.tree = c.tree) (apart : ∀ target, result.1 = .granted target → n ≠ target) :
    (c.conclude p mode result).2.tree.node n = c.tree.node n := by
  rw [tree_conclude c p mode same]
  cases answer : result.1 with
  | granted target =>
    have other := apart target answer
    cases mode with
    | shared =>
      have reading :=
        Tree.recordRead_reading tidy.wellFormed tidy.furnished target c.servers
      exact reading.elsewhere other
    | exclusive => exact Tree.consolidate_elsewhere c.tree c.servers other
  | waiting a => rfl
  | failed e => rfl

theorem Tidy.conclude_stocked (tidy : c.Tidy) (stocked : c.tree.Stocked) (p : Path)
    (mode : LockMode) (same : result.2.tree = c.tree) :
    (c.conclude p mode result).2.tree.Stocked := by
  rw [tree_conclude c p mode same]
  cases result.1 with
  | granted target =>
    cases mode with
    | shared =>
      exact stocked.reading
        (Tree.recordRead_reading tidy.wellFormed tidy.furnished target c.servers)
    | exclusive => exact stocked.consolidate target c.servers
  | waiting a => exact stocked
  | failed e => exact stocked

theorem alone_conclude (tidy : c.Tidy) (same : result.2.tree = c.tree)
    (sound : result.2.Sound (calls.note ticket p mode result.2 result.1) True)
    (fresh : ticket ∉ calls.tickets)
    (takes : ∀ call ∈ calls.granted, call.acquisition.mode = .exclusive →
      (call.acquisition.target, .exclusive) ∈ call.acquisition.taken)
    (alone : Service.Alone c.tree calls.granted) :
    Service.Alone (c.conclude p mode result).2.tree
      (c.callsThen calls ticket p mode result).granted := by
  have old {call : Call} (member : call ∈ calls.granted)
      (writer : call.acquisition.mode = .exclusive) :
      (c.conclude p mode result).2.tree.node call.acquisition.target =
        c.tree.node call.acquisition.target :=
    tidy.conclude_elsewhere p mode same fun target granted =>
      target_apart sound granted fresh member (takes call member writer)
  intro call member writer file
  have noted := granted_callsThen c calls ticket p mode result member
  cases answer : result.1 with
  | waiting a =>
    rw [answer] at noted
    rw [old noted writer] at file ⊢
    exact alone call noted writer file
  | failed e =>
    rw [answer] at noted
    rw [old noted writer] at file ⊢
    exact alone call noted writer file
  | granted target =>
    rw [answer] at noted
    rcases List.mem_append.mp noted with before | new
    · rw [old before writer] at file ⊢
      exact alone call before writer file
    · obtain rfl := List.mem_singleton.mp new
      obtain rfl : mode = .exclusive := writer
      rw [tree_conclude c p _ same, answer] at file ⊢
      exact Tree.consolidate_alone c.tree target c.servers file

end Cluster

namespace Service

variable {s s' : Service} {call : Call} {config : NamingConfig} {n : Nat}

def Spares (s s' : Service) : Prop :=
  ∀ call ∈ s.calls.granted, ∀ n, (n, .exclusive) ∈ call.acquisition.taken →
    (s'.tree.node n).replicas = (s.tree.node n).replicas

structure Guarded (s : Service) : Prop where
  inOrder : s.InOrder True
  stocked : s.tree.Stocked
  alone : Alone s.tree s.calls.granted

namespace Guarded

theorem known (h : s.InOrder True) (member : call ∈ s.calls.granted) {mode : LockMode}
    (taken : (n, mode) ∈ call.acquisition.taken) : n < s.tree.size :=
  (h.sound.regular.course call (List.mem_append_right _ member)).nodes_known h.sound.tree
    (List.mem_append_left _ taken)

theorem lockFree {c : Cluster} (h : s.Guarded) (free : s.cluster.LockFree c) :
    (s.setCluster c).Guarded ∧ s.Spares (s.setCluster c) := by
  refine ⟨⟨h.inOrder.lockFree free, free.stocked h.stocked,
      free.alone (fun call member => ?_) h.alone⟩,
    fun call member n taken => free.replicas n (known h.inOrder member taken)⟩
  exact (h.inOrder.sound.regular.course call (List.mem_append_right _ member)).known

theorem lock (h : s.Guarded) (p : Path) (mode : LockMode) {ticket : Ticket}
    (fresh : ticket ∉ s.calls.tickets) :
    (s.lock p mode ticket).Guarded ∧ s.Spares (s.lock p mode ticket) := by
  have tidy := h.inOrder.tidy
  have same := Catalog.tree_lock s.cluster.catalog p mode ticket
  have sound := h.inOrder.sound.lock p mode fresh
  suffices kept : (s.lock p mode ticket).tree.Stocked ∧
      Alone (s.lock p mode ticket).tree (s.lock p mode ticket).calls.granted ∧
      s.Spares (s.lock p mode ticket) from
    ⟨⟨h.inOrder.lock p mode fresh, kept.1, kept.2.1⟩, kept.2.2⟩
  rcases s.lock_cases p mode ticket with result | result <;> rw [result]
  · exact ⟨h.stocked, h.alone, fun _ _ _ _ => rfl⟩
  · refine ⟨tidy.conclude_stocked h.stocked p mode same,
      Cluster.alone_conclude tidy same sound fresh
        (fun call member => h.inOrder.sound.taken_target member) h.alone, ?_⟩
    intro call member n taken
    exact congrArg Node.replicas (tidy.conclude_elsewhere p mode same fun target granted =>
      Cluster.target_apart sound granted fresh member taken)

theorem resume (h : s.Guarded) (member : call ∈ s.calls.waiting) :
    (s.resume call).Guarded ∧ s.Spares (s.resume call) := by
  have tidy := h.inOrder.tidy
  have same := Catalog.tree_resume s.cluster.catalog call.acquisition call.ticket
  have sound := h.inOrder.sound.resume member
  have fresh := h.inOrder.sound.regular.not_mem_leave member
  refine ⟨⟨h.inOrder.resume member, tidy.conclude_stocked h.stocked _ _ same,
    Cluster.alone_conclude tidy same sound fresh
      (fun call member => h.inOrder.sound.taken_target member) h.alone⟩, ?_⟩
  intro other listed n taken
  exact congrArg Node.replicas (tidy.conclude_elsewhere _ _ same fun target granted =>
    Cluster.target_apart sound granted fresh listed taken)

theorem unlock (h : s.Guarded) (p : Path) (mode : LockMode)
    (owned : True → mode = .shared → s.ReaderAt p) :
    (s.unlock p mode).Guarded ∧ s.Spares (s.unlock p mode) := by
  have tree := tree_unlock s p mode
  refine ⟨⟨h.inOrder.unlock p mode owned, ?_, ?_⟩, fun _ _ _ _ => ?_⟩
  · rw [tree]
    exact h.stocked
  · rw [tree]
    exact fun call member => h.alone call (Catalog.granted_callsAfter _ _ _ _ member)
  · rw [tree]

theorem stop (h : s.Guarded) :
    (s.setCluster s.cluster.stop).Guarded ∧ s.Spares (s.setCluster s.cluster.stop) := by
  have tree := tree_stop s
  refine ⟨⟨h.inOrder.stop, ?_, ?_⟩, fun _ _ _ _ => ?_⟩
  · rw [tree]
    exact h.stocked
  · rw [tree]
    exact h.alone
  · rw [tree]

theorem request (h : s.Guarded) (request : Request True s s') : s'.Guarded ∧ s.Spares s' := by
  cases request.effect h.inOrder.tidy with
  | lock p mode fresh => exact h.lock p mode fresh
  | resume member => exact h.resume member
  | unlock p mode owned => exact h.unlock p mode owned
  | lockFree free => exact h.lockFree free
  | stop => exact h.stop

end Guarded

theorem guarded_start (config : NamingConfig) (servers : Servers) :
    (start config servers).Guarded :=
  ⟨inOrder_start config servers, Tree.stocked_empty _,
    fun call member => absurd member (by simp [start])⟩

theorem Requested.guarded (h : Requested config True s) : s.Guarded := by
  induction h with
  | start servers => exact guarded_start config servers
  | next _ admitted ih => exact (ih.request ⟨admitted⟩).1

abbrev During (call : Call) : Service → Service → Prop :=
  Relation.ReflTransGen fun s s' => Request True s s' ∧ call ∈ s'.calls.granted

theorem During.spared (during : During call s s') (h : s.Guarded)
    (member : call ∈ s.calls.granted) :
    s'.Guarded ∧ call ∈ s'.calls.granted ∧ ∀ n, (n, .exclusive) ∈ call.acquisition.taken →
      (s'.tree.node n).replicas = (s.tree.node n).replicas := by
  induction during with
  | refl => exact ⟨h, member, fun _ _ => rfl⟩
  | tail _ step ih =>
    obtain ⟨guarded, member, spared⟩ := ih
    obtain ⟨guarded', spares⟩ := guarded.request step.1
    exact ⟨guarded', step.2, fun n taken => (spares _ member n taken).trans (spared n taken)⟩

/-- In a strict run, a file that is locked exclusively has exactly one copy. A file that is locked
with a directory above it has one or more. As long as the lock stays in place, none of them loses or
gains a copy. -/
theorem writers_keep_copies (requested : Requested config True s) (member : call ∈ s.calls.granted)
    (writer : call.acquisition.mode = .exclusive) :
    ((s.tree.node call.acquisition.target).isFile = true →
      (s.tree.node call.acquisition.target).replicas.length = 1) ∧
    (∀ n, (n, .exclusive) ∈ call.acquisition.taken → (s.tree.node n).isFile = true →
      (s.tree.node n).replicas ≠ []) ∧
    ∀ s', During call s s' → ∀ n, (n, .exclusive) ∈ call.acquisition.taken →
      (s'.tree.node n).replicas = (s.tree.node n).replicas := by
  have guarded := requested.guarded
  refine ⟨fun file => ?_, fun n _ file => guarded.stocked n file, fun s' during =>
    (during.spared guarded member).2.2⟩
  have some_copy := List.length_pos_of_ne_nil (guarded.stocked _ file)
  have one_copy := guarded.alone call member writer file
  omega

def pairServers : Servers :=
  { servers := [("s", { backend := .memory { files := { toList := [(.sole, [1])] } } }),
      ("t", { backend := .memory {} })] }

def pairReady : Service :=
  (start { replicationThreshold := 1 } pairServers).run
    [.register (.own "s") [.sole], .register (.own "t") []]

theorem requested_pairReady : Requested { replicationThreshold := 1 } True pairReady :=
  Reached.run (.start pairServers) (by decide +kernel)

def pairLocked (p : Path) : Service :=
  pairReady.run [.lock .sole .shared 0, .unlock .sole .shared, .lock p .exclusive 1]

theorem requested_pairLocked (p : Path) :
    Requested { replicationThreshold := 1 } True (pairLocked p) :=
  Reached.run requested_pairReady
    ⟨show 0 ∉ pairReady.calls.tickets by decide +kernel, fun _ _ => by decide +kernel,
      show 1 ∉ (pairReady.run [.lock .sole .shared 0, .unlock .sole .shared]).calls.tickets by
        decide +kernel, trivial⟩

def pairWriter : Call where
  ticket := 1
  acquisition :=
    { path := .sole, mode := .exclusive, target := 1, taken := [(0, .shared), (1, .exclusive)]
      pending := [] }

theorem pairLocked_keeps_copies :
    ((pairLocked .sole).tree.node 1).replicas.length = 1 ∧
      (((pairLocked .sole).step (.lock .sole .shared 2)).tree.node 1).replicas =
        ((pairLocked .sole).tree.node 1).replicas := by
  have member : pairWriter ∈ (pairLocked .sole).calls.granted := by decide +kernel
  have keeps := writers_keep_copies (requested_pairLocked .sole) member rfl
  have fresh : (pairLocked .sole).Admits True (.lock .sole .shared 2) := by decide +kernel
  refine ⟨keeps.1 (by decide +kernel), keeps.2.2 _ (.single ⟨⟨fresh⟩, ?_⟩) 1 (by decide)⟩
  decide +kernel

def pairReplaced : Service :=
  (start { replicationThreshold := 1 } pairServers).run
    [.createDirectory .sole, .lock .sole .shared 0, .delete .sole, .register (.own "s") [.sole],
      .register (.own "t") []]

def pairReader : Call where
  ticket := 2
  acquisition := { path := .sole, mode := .shared, target := 2, pending := [(2, .shared)] }

/-- The new file is locked for a writer, and a reader waits until it is unlocked. Before he goes on,
the directory is unlocked, which lets in a second writer. -/
def pairSlipped : Service :=
  pairReplaced.run
    [.lock .sole .exclusive 1, .lock .sole .shared 2, .unlock .sole .exclusive,
      .unlock .sole .shared, .lock .sole .exclusive 3, .resume pairReader]

theorem requested_pairSlipped : Requested { replicationThreshold := 1 } False pairSlipped := by
  have replaced : Requested { replicationThreshold := 1 } False pairReplaced :=
    Reached.run (.start pairServers) (by decide +kernel)
  exact replaced.run (by decide +kernel)

/-- The number of copies is not always one: not below a directory that is locked, and not on a file
whose reader was robbed of his lock. -/
theorem writers_share_copies :
    (Requested { replicationThreshold := 1 } True (pairLocked .root) ∧
      ∃ call ∈ (pairLocked .root).calls.granted, call.acquisition.mode = .exclusive ∧
        (1, .exclusive) ∈ call.acquisition.taken ∧ ((pairLocked .root).tree.node 1).isFile = true ∧
        ((pairLocked .root).tree.node 1).replicas.length = 2) ∧
    (Requested { replicationThreshold := 1 } False pairSlipped ∧
      ∃ call ∈ pairSlipped.calls.granted, call.acquisition.mode = .exclusive ∧
        call.acquisition.target = 2 ∧ (pairSlipped.tree.node 2).isFile = true ∧
        (pairSlipped.tree.node 2).replicas.length = 2) :=
  ⟨⟨requested_pairLocked .root, by decide +kernel⟩, requested_pairSlipped, by decide +kernel⟩

end Service

end DistFs
