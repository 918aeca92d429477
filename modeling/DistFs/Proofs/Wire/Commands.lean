import DistFs.Proofs.Storage.Entries
import DistFs.Proofs.Wire.Calls
/-!
# Where commands end up

A command to make or to remove an entry ends up at the server that its handle leads to. That server
carries it out on what it keeps in memory, declines it or fails; if the handle leads nowhere the
command is lost. Nothing but the network and the states of the servers decides which of these it is,
and whenever the command is not carried out, every server is left as it was.
-/

namespace DistFs

namespace Network

variable {net net' : Network} {kind : Handle → Target} {h : Handle} {endpoint name other : String}
  {i k : Nat}

theorem Leads.server_unique (injective : kind.Injective) (leads : net.Leads kind k endpoint name)
    (leads' : net.Leads kind i endpoint other) : name = other := by
  induction leads generalizing i with
  | arrive bound target =>
    cases leads' with
    | arrive bound' target' =>
      cases bound.symm.trans bound'
      exact Handle.direct.inj (injective (target.symm.trans target'))
    | forward bound' target' =>
      cases bound.symm.trans bound'
      cases injective (target.symm.trans target')
  | forward bound target _ ih =>
    cases leads' with
    | arrive bound' target' =>
      cases bound.symm.trans bound'
      cases injective (target.symm.trans target')
    | forward bound' target' rest =>
      cases bound.symm.trans bound'
      cases injective (target.symm.trans target')
      exact ih rest

def Commands (net : Network) : Handle → String → Prop
  | .direct server, name => server = name
  | .remote endpoint, name => net.Serves .command endpoint name

theorem Commands.congr (same : net'.bindings = net.bindings) (reaches : net.Commands h name) :
    net'.Commands h name := by
  cases h with
  | direct server => exact reaches
  | remote endpoint => exact reaches.imp fun _ leads => leads.congr same

theorem Commands.unique (reaches : net.Commands h name) (reaches' : net.Commands h other) :
    name = other := by
  cases h with
  | direct server => exact reaches.symm.trans reaches'
  | remote endpoint =>
    obtain ⟨_, leads⟩ := reaches
    obtain ⟨_, leads'⟩ := reaches'
    exact leads.server_unique (fun _ _ => Target.command.inj) leads'

end Network

namespace Servers

variable {s s' s'' : Servers} {h : Handle} {name other : String} {server : Server}
  {store : MemoryStore} {p q : Path} {request : Request} {net : Network} {endpoint : String}

/-! ## What the servers have -/

def entryOn (s : Servers) (name : String) (p : Path) : Option HostEntry :=
  (s.memory? name).bind (·.entryAt p)

def InStores (s : Servers) : Prop :=
  ∀ name server, s.find? name = some server →
    ∃ store, server.backend = .memory store ∧ store.Built

theorem entryOn_of_found (found : s.find? name = some server)
    (memory : server.backend = .memory store) (p : Path) : s.entryOn name p = store.entryAt p := by
  obtain ⟨backend, commands, dataWorks⟩ := server
  obtain rfl : backend = .memory store := memory
  simp [entryOn, memory?, found]

theorem entryOn_congr (same : s'.find? name = s.find? name) (p : Path) :
    s'.entryOn name p = s.entryOn name p := by
  rw [entryOn, memory?, same, entryOn, memory?]

structure Echoes (s s' : Servers) : Prop where
  bindings : s'.network.bindings = s.network.bindings
  states : ∀ name, (s'.find? name).map Server.commands = (s.find? name).map Server.commands

theorem Echoes.refl (s : Servers) : s.Echoes s := ⟨rfl, fun _ => rfl⟩

theorem Echoes.symm (h : s.Echoes s') : s'.Echoes s :=
  ⟨h.bindings.symm, fun name => (h.states name).symm⟩

theorem Echoes.trans (h : s.Echoes s') (h' : s'.Echoes s'') : s.Echoes s'' :=
  ⟨h'.bindings.trans h.bindings, fun name => (h'.states name).trans (h.states name)⟩

structure Untouched (s s' : Servers) : Prop where
  bindings : s'.network.bindings = s.network.bindings
  servers : ∀ name, s'.find? name = s.find? name

theorem Alike.untouched (h : s'.Alike s) : s.Untouched s' := ⟨h.bindings, h.find?⟩

theorem Untouched.echoes (h : s.Untouched s') : s.Echoes s' :=
  ⟨h.bindings, fun name => congrArg _ (h.servers name)⟩

theorem Untouched.inStores (h : s.Untouched s') (stores : s.InStores) : s'.InStores :=
  fun name server found => stores name server ((h.servers name).symm.trans found)

theorem Untouched.entryOn (h : s.Untouched s') (name : String) (p : Path) :
    s'.entryOn name p = s.entryOn name p :=
  entryOn_congr (h.servers name) p

/-! ## On the way -/

/-- What is not served at all is refused in the same words, whatever the servers keep. -/
theorem serve_unsuited {target : Target} (command : request.isCommand = true)
    (stray : ¬ Suits request target) (fuel : Nat) :
    ∃ text, ∀ s, serve fuel target request s = (.error (.communication text), s) := by
  have data : request.isData = false := by
    cases request <;> first | rfl | cases command
  cases target with
  | command h => exact absurd command stray
  | registration => exact ⟨_, fun s => by simp only [serve]; rfl⟩
  | storage h =>
    cases h with
    | direct name =>
      refine ⟨s!"{request.name} is not served here", fun s => ?_⟩
      rw [serve_storage]
      cases request with
      | size | read | write => cases data
      | _ => rfl
    | remote endpoint =>
      cases fuel with
      | zero => exact ⟨_, fun s => by rw [serve]; rfl⟩
      | succ fuel => exact ⟨_, fun s => by rw [serve, data, if_neg Bool.false_ne_true]; rfl⟩

/-- A command to an endpoint that leads to no server is lost, in the same words whatever the servers
keep. The induction is on the endpoints on the way. -/
theorem serve_stray (command : request.isCommand = true)
    (stray : ∀ name, ¬ net.Serves .command endpoint name) (fuel : Nat) :
    ∃ text, ∀ s, s.network.bindings = net.bindings →
      (serve fuel (.command (.remote endpoint)) request s).1 = .error (.communication text) ∧
      (serve fuel (.command (.remote endpoint)) request s).2.Alike s := by
  induction fuel generalizing endpoint with
  | zero => exact ⟨_, fun s _ => ⟨by rw [serve]; rfl, by rw [serve]; exact .refl s⟩⟩
  | succ fuel ih =>
    have relays := relays_command command
    cases bound : net.find? endpoint with
    | none =>
      refine ⟨s!"nothing bound at {endpoint}", fun s same => ?_⟩
      rw [relays, Network.exchange_unbound ((Network.find?_congr same endpoint).trans bound)]
      exact ⟨rfl, s.alike_dialed⟩
    | some binding =>
      have passed (text : String) (lost : ∀ s, s.network.bindings = net.bindings →
          (serve fuel binding.target request s).1 = .error (.communication text) ∧
          (serve fuel binding.target request s).2.Alike s) :
          ∀ s, s.network.bindings = net.bindings →
            (serve (fuel + 1) (.command (.remote endpoint)) request s).1 =
              .error (.communication text) ∧
            (serve (fuel + 1) (.command (.remote endpoint)) request s).2.Alike s := by
        intro s same
        rw [relays.of_bound ((Network.find?_congr same endpoint).trans bound)]
        obtain ⟨answer, after⟩ := lost s.dialed same
        exact ⟨by rw [taken, answer]; rfl, after.trans s.alike_dialed⟩
      by_cases suits : Suits request binding.target
      · obtain ⟨h, target⟩ := suits.command command
        cases h with
        | direct name => exact absurd ⟨1, .arrive bound target⟩ (stray name)
        | remote next =>
          obtain ⟨text, lost⟩ := @ih next fun name serves =>
            stray name (serves.elim fun k leads => ⟨k + 1, .forward bound target leads⟩)
          exact ⟨text, passed text (by rwa [target])⟩
      · obtain ⟨text, lost⟩ := serve_unsuited command suits fuel
        exact ⟨text, passed text fun s _ => by rw [lost]; exact ⟨rfl, .refl s⟩⟩

/-! ## What becomes of a command -/

structure Order (request : Request) (on : Servers → String → Except Error Bool × Servers)
    (change : MemoryStore → Bool × MemoryStore) : Prop where
  command : request.isCommand = true
  served : ∀ fuel name s, serve fuel (.command (.direct name)) request s = flagged (on s name)
  alike : ∀ name s t, Alike s t → Agree (on s name) (on t name)
  runs : ∀ s name, ∃ run, on s name = s.command name run ∧ ∀ server store,
    server.backend = .memory store → run server = s.keepMemory name server (change store)

theorem order_create (p : Path) : Order (.create p) (·.createOn · p) (·.create p) where
  command := rfl
  served fuel name s := by rw [serve]
  alike name s t alike := alike.createOn
  runs s name := ⟨_, rfl, fun server store memory => by simp only [memory]⟩

theorem order_delete (p : Path) : Order (.delete p) (·.deleteOn · p) (·.delete p) where
  command := rfl
  served fuel name s := by rw [serve]
  alike name s t alike := alike.deleteOn
  runs s name := ⟨_, rfl, fun server store memory => by simp only [memory]⟩

def Works (s : Servers) (h : Handle) : Prop :=
  ∃ name server, s.network.Commands h name ∧ s.find? name = some server ∧
    server.commands = .working

structure Carried (s : Servers) (name : String) (server : Server) (store : MemoryStore)
    (done : Bool × MemoryStore) (result : Except Error Bool × Servers) : Prop where
  found : s.find? name = some server
  works : server.commands = .working
  memory : server.backend = .memory store
  built : store.Built
  answer : result.1 = .ok done.1
  bindings : result.2.network.bindings = s.network.bindings
  after : ∀ other, result.2.find? other =
    if other = name then some { server with backend := .memory done.2 } else s.find? other

/-- A command is carried out by the server that it ends up at, or by nobody. In the second case the
answer would be the same whatever the servers had. -/
inductive Sent (s : Servers) (h : Handle) (change : MemoryStore → Bool × MemoryStore)
    (send : Servers → Except Error Bool × Servers) : Prop
  | carried {name : String} {server : Server} {store : MemoryStore}
      (reaches : s.network.Commands h name)
      (carried : Carried s name server store (change store) (send s))
  | idle (lost : ¬ s.Works h) (refused : (send s).1 ≠ .ok true)
      (untouched : s.Untouched (send s).2)
      (again : ∀ s', s.Echoes s' → (send s').1 = (send s).1)

section Order

variable {on : Servers → String → Except Error Bool × Servers}
  {change : MemoryStore → Bool × MemoryStore} {send : Servers → Except Error Bool × Servers}

theorem Order.reach (order : Order request on change) (reaches : s.network.Commands h name) :
    Agree (flag request (askCommand h request s)) (on s name) := by
  cases h with
  | direct server =>
    obtain rfl : server = name := reaches
    rw [askCommand, order.served, flag_flagged]
    exact .refl _
  | remote endpoint =>
    obtain ⟨k, leads⟩ := reaches
    have near := leads.length_le fun _ _ => Target.command.inj
    refine serve_command_reach (on · name) 0 leads order.command (fun fuel s _ _ => ?_)
      (order.alike name) (by unfold Servers.reach; omega) rfl
    rw [order.served]
    exact .refl _

theorem Order.outcome_idle (order : Order request on change) (result : Except Error Bool)
    (reaches : s.network.Commands h name) (refused : result ≠ .ok true)
    (lost : ∀ server, s.find? name = some server → server.commands ≠ .working)
    (idle : ∀ s', s.Echoes s' → on s' name = (result, s')) :
    Sent s h change fun s => flag request (askCommand h request s) := by
  have reached (s' : Servers) (echoes : s.Echoes s') :
      Agree (flag request (askCommand h request s')) (result, s') :=
    idle s' echoes ▸ order.reach (reaches.congr echoes.bindings)
  have here := reached s (.refl s)
  refine .idle ?_ (here.answer ▸ refused) here.after.untouched fun s' echoes => ?_
  · rintro ⟨other, server, reaches', found, works⟩
    obtain rfl := reaches.unique reaches'
    exact lost server found works
  · exact (reached s' echoes).answer.trans here.answer.symm

theorem Order.outcome_at (order : Order request on change) (stores : s.InStores)
    (reaches : s.network.Commands h name) :
    Sent s h change fun s => flag request (askCommand h request s) := by
  have unreachable := order.outcome_idle (.error (unreachable (commandEndpoint name))) reaches
    (by simp)
  cases found : s.find? name with
  | none =>
    refine unreachable (by simp [found]) fun s' echoes => ?_
    have absent : s'.find? name = none := by simpa [found] using echoes.states name
    obtain ⟨run, runs, -⟩ := order.runs s' name
    rw [runs, Servers.command, absent]
  | some server =>
    have state (s' : Servers) (echoes : s.Echoes s') :
        ∃ server', s'.find? name = some server' ∧ server'.commands = server.commands := by
      simpa [found] using echoes.states name
    cases mode : server.commands with
    | failing =>
      refine unreachable (by simp [found, mode]) fun s' echoes => ?_
      obtain ⟨server', found', same⟩ := state s' echoes
      obtain ⟨run, runs, -⟩ := order.runs s' name
      simp only [runs, Servers.command, found', same, mode]
    | refusing =>
      refine order.outcome_idle (.ok false) reaches (by simp) (by simp [found, mode])
        fun s' echoes => ?_
      obtain ⟨server', found', same⟩ := state s' echoes
      obtain ⟨run, runs, -⟩ := order.runs s' name
      simp only [runs, Servers.command, found', same, mode]
    | working =>
      obtain ⟨store, memory, built⟩ := stores name server found
      obtain ⟨run, runs, changes⟩ := order.runs s name
      have kept : on s name = s.keepMemory name server (change store) := by
        simp only [runs, Servers.command, found, mode, changes server store memory]
      obtain ⟨answer, after⟩ := order.reach reaches
      rw [kept] at answer after
      refine .carried reaches ⟨found, mode, memory, built, answer, after.bindings, fun other => ?_⟩
      rw [after.find? other]
      exact find?_set found _ other

theorem Order.outcome_stray (order : Order request on change)
    (stray : ∀ name, ¬ s.network.Serves .command endpoint name) :
    Sent s (.remote endpoint) change
      fun s => flag request (askCommand (.remote endpoint) request s) := by
  obtain ⟨text, lost⟩ := serve_stray order.command stray s.reach
  have failed (s' : Servers) (same : s'.network.bindings = s.network.bindings) :
      (flag request (askCommand (.remote endpoint) request s')).1 = .error (.communication text) ∧
      (flag request (askCommand (.remote endpoint) request s')).2.Alike s' := by
    have reach : s'.reach = s.reach := by rw [Servers.reach, same, Servers.reach]
    obtain ⟨answer, after⟩ := lost s' same
    rw [askCommand, reach]
    generalize serve s.reach (.command (.remote endpoint)) request s' = result at answer after
    obtain ⟨reply, t⟩ := result
    obtain rfl : reply = _ := answer
    exact ⟨rfl, after⟩
  obtain ⟨answer, after⟩ := failed s rfl
  refine .idle ?_ (by simp [answer]) after.untouched fun s' echoes => ?_
  · rintro ⟨name, server, reaches, -⟩
    exact stray name reaches
  · exact (failed s' echoes.bindings).1.trans answer.symm

theorem Order.outcome (order : Order request on change) (stores : s.InStores) (h : Handle) :
    Sent s h change fun s => flag request (askCommand h request s) := by
  by_cases there : ∃ name, s.network.Commands h name
  · obtain ⟨name, reaches⟩ := there
    exact order.outcome_at stores reaches
  · cases h with
    | direct server => exact absurd ⟨server, rfl⟩ there
    | remote endpoint => exact order.outcome_stray (not_exists.mp there)

theorem Sent.echoes (sent : Sent s h change send) : s.Echoes (send s).2 := by
  cases sent with
  | idle lost refused untouched => exact untouched.echoes
  | @carried name server store reaches carried =>
    refine ⟨carried.bindings, fun other => ?_⟩
    rw [carried.after]
    split
    next same => rw [same, carried.found]; rfl
    next => rfl

theorem Sent.inStores (sent : Sent s h change send)
    (built : ∀ store, store.Built → (change store).2.Built) (stores : s.InStores) :
    (send s).2.InStores := by
  cases sent with
  | idle lost refused untouched => exact untouched.inStores stores
  | @carried name server store reaches carried =>
    intro other there found
    rw [carried.after] at found
    split at found
    · cases found
      exact ⟨_, rfl, built store carried.built⟩
    · exact stores other there found

theorem Carried.entryOn {result : Except Error Bool × Servers} {done : Bool × MemoryStore}
    (carried : Carried s name server store done result) (other : String) (p : Path) :
    result.2.entryOn other p = if other = name then done.2.entryAt p else s.entryOn other p := by
  have after := carried.after other
  split
  next same =>
    rw [if_pos same] at after
    exact entryOn_of_found after rfl p
  next different =>
    rw [if_neg different] at after
    exact entryOn_congr after p

end Order

/-! ## Making -/

theorem create_sent (stores : s.InStores) (h : Handle) (p : Path) :
    Sent s h (·.create p) (·.create h p) :=
  (order_create p).outcome stores h

structure Gains (s : Servers) (h : Handle) (p : Path) (name : String) (s' : Servers) : Prop where
  reaches : s.network.Commands h name
  free : s.entryOn name p = none
  above : ∀ q ∈ p.ancestors, s.entryOn name q = none ∨ s.entryOn name q = some .directory
  entries : ∀ q, s'.entryOn name q =
    if q = p then some (.file []) else
      if q ∈ p.ancestors then some .directory else s.entryOn name q
  others : ∀ other, other ≠ name → s'.find? other = s.find? other

theorem create_gains (stores : s.InStores) (made : (s.create h p).1 = .ok true) :
    ∃ name, s.Gains h p name (s.create h p).2 := by
  cases create_sent stores h p with
  | idle lost refused => exact absurd made refused
  | @carried name server store reaches carried =>
    have answer : (store.create p).1 = true := Except.ok.inj (carried.answer.symm.trans made)
    obtain ⟨free, above, entries⟩ := MemoryStore.create_made answer
    have before (q : Path) := entryOn_of_found carried.found carried.memory q
    refine ⟨name, reaches, (before p).trans free, fun q member => ?_, fun q => ?_,
      fun other different => (carried.after other).trans (if_neg different)⟩
    · rw [before]
      exact above q member
    · rw [carried.entryOn, if_pos rfl, entries, before]

theorem create_untouched (stores : s.InStores) (refused : (s.create h p).1 ≠ .ok true) :
    s.Untouched (s.create h p).2 := by
  cases create_sent stores h p with
  | idle lost refused untouched => exact untouched
  | @carried name server store reaches carried =>
    have answer : (store.create p).1 = false := by
      rw [carried.answer] at refused
      simpa using refused
    refine ⟨carried.bindings, fun other => ?_⟩
    rw [carried.after, MemoryStore.create_refused answer, ← carried.memory]
    split
    next same => rw [same, carried.found]
    next => rfl

/-! ## Removing -/

theorem delete_sent (stores : s.InStores) (h : Handle) (p : Path) :
    Sent s h (·.delete p) (·.delete h p) :=
  (order_delete p).outcome stores h

theorem delete_inStores (stores : s.InStores) (h : Handle) (p : Path) :
    (s.delete h p).2.InStores :=
  (delete_sent stores h p).inStores (fun _ built => built.delete p) stores

theorem delete_works (stores : s.InStores) (below : p ≠ .root) (works : s.Works h)
    (reaches : s.network.Commands h name) :
    (∃ done, (s.delete h p).1 = .ok done) ∧ ∀ other q, (s.delete h p).2.entryOn other q =
      if other = name ∧ q.isUnder p = true then none else s.entryOn other q := by
  cases delete_sent stores h p with
  | idle lost => exact absurd works lost
  | @carried name' server store reaches' carried =>
    obtain rfl := reaches.unique reaches'
    refine ⟨⟨_, carried.answer⟩, fun other q => ?_⟩
    rw [carried.entryOn]
    by_cases same : other = name
    · subst same
      rw [if_pos rfl, carried.built.wellFormed.entryAt_delete below,
        entryOn_of_found carried.found carried.memory]
      simp
    · simp [same]

theorem delete_idle (stores : s.InStores) (lost : ¬ s.Works h) (p : Path) :
    s.Untouched (s.delete h p).2 := by
  cases delete_sent stores h p with
  | idle _ _ untouched => exact untouched
  | carried reaches carried =>
    exact absurd ⟨_, _, reaches, carried.found, carried.works⟩ lost

theorem delete_error_iff (stores : s.InStores) (stores' : s'.InStores) (echoes : s.Echoes s')
    (e : Error) : (s'.delete h p).1 = .error e ↔ (s.delete h p).1 = .error e := by
  have again {s s' : Servers} (stores : s.InStores) (echoes : s.Echoes s')
      (failed : (s.delete h p).1 = .error e) : (s'.delete h p).1 = .error e := by
    cases delete_sent stores h p with
    | idle _ _ _ again => exact (again s' echoes).trans failed
    | carried reaches carried => cases carried.answer.symm.trans failed
  exact ⟨again stores' echoes.symm, again stores echoes⟩

end Servers

end DistFs
