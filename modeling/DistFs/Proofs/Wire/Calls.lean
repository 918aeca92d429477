import DistFs.Proofs.Storage.Alike
import DistFs.Proofs.Wire.Endpoints

namespace DistFs

namespace Servers

variable {α : Type} {s t : Servers} {name source : String} {p : Path} {request : Request}
  {left right : Except Error Bool × Servers}

/-! ## Sending on -/

def dialed (s : Servers) : Servers := { s with network := s.network.dial }

theorem alike_dialed (s : Servers) : s.dialed.Alike s := ⟨rfl, rfl, rfl⟩

def taken (take : Reply → Except Error α) (result : Except Error Reply × Servers) :
    Except Error α × Servers :=
  (result.1.bind take, result.2)

theorem Agree.taken {left right : Except Error Reply × Servers} (h : Agree left right)
    (take : Reply → Except Error α) : Agree (taken take left) (taken take right) :=
  ⟨congrArg (·.bind take) h.answer, h.after⟩

/-- Where a handle leads to an endpoint, a request is sent on to what is bound there. -/
def Relays (kind : Handle → Target) (request : Request) : Prop :=
  ∀ fuel endpoint s, serve (fuel + 1) (kind (.remote endpoint)) request s =
    taken request.expect (s.network.exchange endpoint request (serve fuel) s.dialed)

theorem relays_storage (data : request.isData = true) : Relays .storage request := by
  intro fuel endpoint s
  rw [serve, if_pos data]
  rfl

theorem relays_command (command : request.isCommand = true) : Relays .command request := by
  intro fuel endpoint s
  rw [serve, if_pos command]
  rfl

/-! ## Calls that reach a server -/

section Reaching

variable {net : Network} {kind : Handle → Target} {endpoint : String} {binding : Binding}
  {h : Handle} {fuel k : Nat}

theorem Relays.of_bound (relays : Relays kind request)
    (bound : s.network.find? endpoint = some binding) (fuel : Nat) :
    serve (fuel + 1) (kind (.remote endpoint)) request s =
      taken request.expect (serve fuel binding.target request s.dialed) := by
  rw [relays, Network.exchange_bound bound]

/-- A call at an endpoint agrees with what becomes of it at the server that the endpoint leads to.
The induction is on the endpoints on the way, each of which takes one unit of fuel. -/
theorem Relays.reach (run : Servers → Except Error Reply × Servers) (rest : Nat)
    (relays : Relays kind request) (leads : net.Leads kind k endpoint name)
    (arrives : ∀ fuel s, rest ≤ fuel → s.network.bindings = net.bindings →
      Agree (serve fuel (kind (.direct name)) request s) (run s))
    (alike : ∀ s t, Alike s t → Agree (run s) (run t))
    (expected : ∀ s, taken request.expect (run s) = run s)
    (enough : k + rest ≤ fuel) (bindings : s.network.bindings = net.bindings) :
    Agree (serve fuel (kind (.remote endpoint)) request s) (run s) := by
  have finds (s : Servers) (same : s.network.bindings = net.bindings) (endpoint : String) :
      s.network.find? endpoint = net.find? endpoint := by
    rw [Network.find?, same, Network.find?]
  have sent {s : Servers} {result : Except Error Reply × Servers}
      (there : Agree result (run s.dialed)) : Agree (taken request.expect result) (run s) := by
    rw [← expected s]
    exact (there.trans (alike _ s s.alike_dialed)).taken request.expect
  induction leads generalizing fuel s with
  | arrive bound target =>
    obtain ⟨fuel, rfl⟩ := Nat.exists_eq_add_of_le' (show 1 ≤ fuel by omega)
    rw [relays.of_bound ((finds s bindings _).trans bound), target]
    exact sent (arrives fuel s.dialed (by omega) bindings)
  | forward bound target leads ih =>
    obtain ⟨fuel, rfl⟩ := Nat.exists_eq_add_of_le' (show 1 ≤ fuel by omega)
    rw [relays.of_bound ((finds s bindings _).trans bound), target]
    exact sent (ih arrives (by omega) bindings)

theorem serveData_expected (data : request.isData = true) (s : Servers) :
    taken request.expect (s.serveData name request) = s.serveData name request := by
  cases request with
  | size p =>
    simp only [serveData, taken]
    cases s.sizeOn name p <;> rfl
  | read p offset length =>
    simp only [serveData, taken]
    cases s.readOn name p offset length <;> rfl
  | write p offset w =>
    simp only [serveData]
    cases s.writeOn name p offset w <;> rfl
  | _ => cases data

theorem serve_storage_reach (leads : net.Leads .storage k endpoint name) (enough : k ≤ fuel)
    (bindings : s.network.bindings = net.bindings) (data : request.isData = true) :
    Agree (serve fuel (.storage (.remote endpoint)) request s) (s.serveData name request) := by
  refine (relays_storage data).reach (·.serveData name request) 0 leads ?_
    (fun _ _ h => h.serveData name request) (serveData_expected data) enough bindings
  intro fuel s _ _
  rw [serve_storage]
  exact .refl _

theorem flagged_expected (command : request.isCommand = true)
    (result : Except Error Bool × Servers) :
    taken request.expect (flagged result) = flagged result := by
  obtain ⟨answer, s⟩ := result
  cases request with
  | create | delete | copy => cases answer <;> rfl
  | _ => cases command

theorem flag_flagged (request : Request) (result : Except Error Bool × Servers) :
    flag request (flagged result) = result := by
  obtain ⟨answer, s⟩ := result
  cases answer <;> rfl

theorem Agree.flagged (h : Agree left right) : Agree (flagged left) (flagged right) :=
  ⟨congrArg (·.map Reply.flag) h.answer, h.after⟩

theorem serve_command_reach (run : Servers → Except Error Bool × Servers) (rest : Nat)
    (leads : net.Leads .command k endpoint name) (command : request.isCommand = true)
    (arrives : ∀ fuel s, rest ≤ fuel → s.network.bindings = net.bindings →
      Agree (serve fuel (.command (.direct name)) request s) (Servers.flagged (run s)))
    (alike : ∀ s t, Alike s t → Agree (run s) (run t)) (enough : k + rest ≤ fuel)
    (bindings : s.network.bindings = net.bindings) :
    Agree (flag request (serve fuel (.command (.remote endpoint)) request s)) (run s) := by
  have reached := (relays_command command).reach (fun s => Servers.flagged (run s)) rest leads
    arrives (fun s t h => (alike s t h).flagged) (fun s => flagged_expected command _) enough
    bindings
  obtain ⟨answer, t, u, left, right, after⟩ := reached.same
  rw [← flag_flagged request (run s), left, right]
  cases answer with
  | error e => exact ⟨rfl, after⟩
  | ok reply => cases reply <;> exact ⟨rfl, after⟩

theorem askStorage_reach (serves : s.network.Serves .storage endpoint name)
    (data : request.isData = true) :
    Agree (askStorage (.remote endpoint) request s) (askStorage (.direct name) request s) := by
  obtain ⟨k, leads⟩ := serves
  have near := leads.length_le fun _ _ => Target.storage.inj
  unfold askStorage
  rw [serve_storage]
  exact serve_storage_reach leads (by unfold reach; omega) rfl data

theorem size_reach (serves : s.network.Serves .storage endpoint name) (p : Path) :
    Agree (s.size (.remote endpoint) p) (s.size (.direct name) p) := by
  have asked : Agree (askStorage (.remote endpoint) (.size p) s) _ := askStorage_reach serves rfl
  obtain ⟨answer, t, u, left, right, after⟩ := asked.same
  rw [size, left, size, right]
  cases answer with
  | error e => exact ⟨rfl, after⟩
  | ok reply => cases reply <;> exact ⟨rfl, after⟩

theorem read_reach (serves : s.network.Serves .storage endpoint name) (p : Path)
    (offset length : UInt64) :
    Agree (s.read (.remote endpoint) p offset length) (s.read (.direct name) p offset length) := by
  have asked : Agree (askStorage (.remote endpoint) (.read p offset length) s) _ :=
    askStorage_reach serves rfl
  obtain ⟨answer, t, u, left, right, after⟩ := asked.same
  rw [read, left, read, right]
  cases answer with
  | error e => exact ⟨rfl, after⟩
  | ok reply => cases reply <;> exact ⟨rfl, after⟩

theorem write_reach (serves : s.network.Serves .storage endpoint name) (p : Path)
    (offset : UInt64) (w : Bytes) :
    Agree (s.write (.remote endpoint) p offset w) (s.write (.direct name) p offset w) := by
  have asked : Agree (askStorage (.remote endpoint) (.write p offset w) s) _ :=
    askStorage_reach serves rfl
  obtain ⟨answer, t, u, left, right, after⟩ := asked.same
  rw [write, left, write, right]
  cases answer with
  | error e => exact ⟨rfl, after⟩
  | ok reply => cases reply <;> exact ⟨rfl, after⟩

theorem create_reach (serves : s.network.Serves .command endpoint name) (p : Path) :
    Agree (s.create (.remote endpoint) p) (s.create (.direct name) p) := by
  obtain ⟨k, leads⟩ := serves
  have near := leads.length_le fun _ _ => Target.command.inj
  rw [create_direct]
  refine serve_command_reach (·.createOn name p) 0 leads rfl ?_ (fun _ _ h => h.createOn)
    (by unfold reach; omega) rfl
  intro fuel s _ _
  rw [serve]
  exact .refl _

theorem delete_reach (serves : s.network.Serves .command endpoint name) (p : Path) :
    Agree (s.delete (.remote endpoint) p) (s.delete (.direct name) p) := by
  obtain ⟨k, leads⟩ := serves
  have near := leads.length_le fun _ _ => Target.command.inj
  rw [delete_direct]
  refine serve_command_reach (·.deleteOn name p) 0 leads rfl ?_ (fun _ _ h => h.deleteOn)
    (by unfold reach; omega) rfl
  intro fuel s _ _
  rw [serve]
  exact .refl _

theorem copyOn_reach (leads : net.Leads .storage k endpoint source) (enough : k ≤ fuel)
    (bindings : s.network.bindings = net.bindings) :
    Agree (s.copyOn name p (serve fuel (.storage (.remote endpoint))))
      (s.copyOn name p fun request s => s.serveData source request) :=
  (Alike.refl s).copyOn fun request _ data alike =>
    (serve_storage_reach leads enough (alike.bindings.trans bindings) data).trans
      (alike.serveData source request)

theorem copy_eq_copyOn (serves : s.network.Serves .storage h.storageEndpoint source)
    (direct : ∀ server, h = .direct server → server = source) :
    Agree (s.copy (.direct name) p h)
      (s.copyOn name p fun request s => s.serveData source request) := by
  cases h with
  | direct server =>
    obtain rfl := direct server rfl
    rw [copy_direct]
    exact .refl _
  | remote endpoint =>
    obtain ⟨k, leads⟩ := serves
    have near := leads.length_le fun _ _ => Target.storage.inj
    exact copyOn_reach leads (by unfold reach; omega) rfl

theorem copy_reach (serves : s.network.Serves .command endpoint name) (p : Path)
    (serves' : s.network.Serves .storage h.storageEndpoint source)
    (direct : ∀ server, h = .direct server → server = source) :
    Agree (s.copy (.remote endpoint) p h) (s.copy (.direct name) p h) := by
  refine Agree.trans ?_ (copy_eq_copyOn serves' direct).symm
  obtain ⟨k, leads⟩ := serves
  obtain ⟨i, leads'⟩ := serves'
  have near := leads.length_le fun _ _ => Target.command.inj
  have near' := leads'.length_le fun _ _ => Target.storage.inj
  refine serve_command_reach (·.copyOn name p fun request s => s.serveData source request) (i + 1)
    leads rfl ?_ (fun s t h => h.copyOn fun request _ _ alike => alike.serveData source request)
    (by unfold reach; omega) rfl
  intro fuel s enough bindings
  obtain ⟨fuel, rfl⟩ := Nat.exists_eq_add_of_le' (show 1 ≤ fuel by omega)
  rw [serve]
  exact (copyOn_reach leads' (by omega) bindings).flagged

end Reaching

/-! ## Calls that reach no server of their kind -/

section Refusing

variable {kind : Handle → Target} {endpoint : String} {target : Target}

structure Refused (s : Servers) (result : Except Error α × Servers) : Prop where
  answer : ∃ text, result.1 = .error (.communication text)
  after : result.2.Alike s

theorem Refused.same {result : Except Error α × Servers} (h : Refused s result) :
    ∃ text t, result = (.error (.communication text), t) ∧ t.Alike s :=
  let ⟨text, failed⟩ := h.answer
  ⟨text, result.2, Prod.ext failed rfl, h.after⟩

theorem Refused.taken {result : Except Error Reply × Servers} (h : Refused s result)
    (take : Reply → Except Error α) : Refused s (taken take result) := by
  obtain ⟨text, t, rfl, after⟩ := h.same
  exact ⟨⟨text, rfl⟩, after⟩

def Suits (request : Request) : Target → Prop
  | .storage _ => request.isData = true
  | .command _ => request.isCommand = true
  | .registration => False

theorem serve_refused (stray : ¬ Suits request target) (fuel : Nat) (s : Servers) :
    Refused s (serve fuel target request s) := by
  fun_cases serve fuel target request s with
  | case1 fuel name =>
    cases request with
    | size | read | write => exact absurd rfl stray
    | _ => exact ⟨⟨_, rfl⟩, .refl s⟩
  | case2 | case3 | case4 => exact absurd rfl stray
  | case5 | case7 => exact absurd ‹_› stray
  | case6 | case8 | case9 | case10 | case11 => exact ⟨⟨_, rfl⟩, .refl s⟩

theorem Relays.refused (relays : Relays kind request)
    (stray : ∀ binding, s.network.find? endpoint = some binding → ¬ Suits request binding.target)
    (fuel : Nat) : Refused s (serve (fuel + 1) (kind (.remote endpoint)) request s) := by
  cases bound : s.network.find? endpoint with
  | none =>
    rw [relays, Network.exchange_unbound bound]
    exact ⟨⟨_, rfl⟩, s.alike_dialed⟩
  | some binding =>
    rw [relays.of_bound bound]
    have refused := serve_refused (stray binding bound) fuel s.dialed
    obtain ⟨answer, after⟩ := refused.taken request.expect
    exact ⟨answer, after.trans s.alike_dialed⟩

theorem Suits.storage (suits : Suits request target) (data : request.isData = true) :
    ∃ h, target = .storage h := by
  cases target with
  | storage h => exact ⟨h, rfl⟩
  | command h => cases request <;> cases suits <;> cases data
  | registration => exact suits.elim

theorem Suits.command (suits : Suits request target) (command : request.isCommand = true) :
    ∃ h, target = .command h := by
  cases target with
  | storage h => cases request <;> cases suits <;> cases command
  | command h => exact ⟨h, rfl⟩
  | registration => exact suits.elim

theorem askStorage_refused (stray : ¬ s.network.Offers .storage endpoint)
    (data : request.isData = true) : Refused s (askStorage (.remote endpoint) request s) :=
  (relays_storage data).refused (fun _ bound suits =>
    let ⟨h, target⟩ := suits.storage data
    stray ⟨_, h, bound, target⟩) _

theorem flag_refused (stray : ¬ s.network.Offers .command endpoint)
    (command : request.isCommand = true) :
    Refused s (flag request (askCommand (.remote endpoint) request s)) := by
  have asked : Refused s (askCommand (.remote endpoint) request s) :=
    (relays_command command).refused (fun _ bound suits =>
      let ⟨h, target⟩ := suits.command command
      stray ⟨_, h, bound, target⟩) _
  obtain ⟨text, t, failed, after⟩ := asked.same
  rw [failed]
  exact ⟨⟨text, rfl⟩, after⟩

theorem size_refused (stray : ¬ s.network.Offers .storage endpoint) (p : Path) :
    Refused s (s.size (.remote endpoint) p) := by
  have asked : Refused s (askStorage (.remote endpoint) (.size p) s) := askStorage_refused stray rfl
  obtain ⟨text, t, failed, after⟩ := asked.same
  rw [size, failed]
  exact ⟨⟨text, rfl⟩, after⟩

theorem read_refused (stray : ¬ s.network.Offers .storage endpoint) (p : Path)
    (offset length : UInt64) : Refused s (s.read (.remote endpoint) p offset length) := by
  have asked : Refused s (askStorage (.remote endpoint) (.read p offset length) s) :=
    askStorage_refused stray rfl
  obtain ⟨text, t, failed, after⟩ := asked.same
  rw [read, failed]
  exact ⟨⟨text, rfl⟩, after⟩

theorem write_refused (stray : ¬ s.network.Offers .storage endpoint) (p : Path) (offset : UInt64)
    (w : Bytes) : Refused s (s.write (.remote endpoint) p offset w) := by
  have asked : Refused s (askStorage (.remote endpoint) (.write p offset w) s) :=
    askStorage_refused stray rfl
  obtain ⟨text, t, failed, after⟩ := asked.same
  rw [write, failed]
  exact ⟨⟨text, rfl⟩, after⟩

end Refusing

end Servers

namespace Cluster

variable {c : Cluster} {endpoint : String} {target : Target} {container : Container}
  {files : List Path}

theorem serve_register_refused (stray : target ≠ .registration) (storage command : String)
    (files : List Path) (c : Cluster) :
    ∃ text servers, serve target (.register storage command files) c =
      (.error (.communication text), { c with servers }) ∧ servers.Alike c.servers := by
  have unsuited : ¬ Servers.Suits (.register storage command files) target := by
    cases target with
    | registration => exact absurd rfl stray
    | _ => exact nofun
  obtain ⟨⟨text, failed⟩, after⟩ := Servers.serve_refused unsuited c.servers.reach c.servers
  refine ⟨text, _, ?_, after⟩
  rw [← failed]
  cases target with
  | registration => exact absurd rfl stray
  | _ => rfl

theorem registerAt_refused (stray : ∀ binding, c.servers.network.find? endpoint = some binding →
      binding.target ≠ .registration) (container : Container) (files : List Path) :
    ∃ text servers, c.registerAt endpoint container files =
      (.error (.communication text), { c with servers }) ∧ servers.Alike c.servers := by
  unfold registerAt
  cases bound : c.servers.network.find? endpoint with
  | none =>
    simp only [Network.exchange_unbound bound]
    exact ⟨_, _, rfl, c.servers.alike_dialed⟩
  | some binding =>
    obtain ⟨text, servers, served, after⟩ := serve_register_refused (stray binding bound)
      container.endpoints.1 container.endpoints.2 files (c.setNetwork c.servers.network.dial)
    simp only [Network.exchange_bound bound, served]
    exact ⟨text, servers, rfl, after.trans c.servers.alike_dialed⟩

end Cluster

/-! ## All calls -/

namespace Wire

open Servers

/-- Where an endpoint leads to a server, all calls there are calls on that server. Where it leads to
none of the kind, they fail and change nothing. -/
theorem calls_pass_through (c : Cluster) (endpoint : String) :
    (∀ name, c.servers.network.Serves .storage endpoint name → ∀ p,
      Agree (c.servers.size (.remote endpoint) p) (c.servers.size (.direct name) p) ∧
      (∀ offset length, Agree (c.servers.read (.remote endpoint) p offset length)
        (c.servers.read (.direct name) p offset length)) ∧
      ∀ offset w, Agree (c.servers.write (.remote endpoint) p offset w)
        (c.servers.write (.direct name) p offset w)) ∧
    (∀ name, c.servers.network.Serves .command endpoint name → ∀ p,
      Agree (c.servers.create (.remote endpoint) p) (c.servers.create (.direct name) p) ∧
      Agree (c.servers.delete (.remote endpoint) p) (c.servers.delete (.direct name) p) ∧
      ∀ h source, c.servers.network.Serves .storage h.storageEndpoint source →
        (∀ server, h = .direct server → server = source) →
        Agree (c.servers.copy (.remote endpoint) p h) (c.servers.copy (.direct name) p h)) ∧
    (¬ c.servers.network.Offers .storage endpoint → ∀ p,
      Refused c.servers (c.servers.size (.remote endpoint) p) ∧
      (∀ offset length, Refused c.servers (c.servers.read (.remote endpoint) p offset length)) ∧
      ∀ offset w, Refused c.servers (c.servers.write (.remote endpoint) p offset w)) ∧
    (¬ c.servers.network.Offers .command endpoint → ∀ p,
      Refused c.servers (c.servers.create (.remote endpoint) p) ∧
      Refused c.servers (c.servers.delete (.remote endpoint) p) ∧
      ∀ h, Refused c.servers (c.servers.copy (.remote endpoint) p h)) ∧
    ((∀ binding, c.servers.network.find? endpoint = some binding → binding.target ≠ .registration) →
      ∀ container files, ∃ text servers, c.registerAt endpoint container files =
        (.error (.communication text), { c with servers }) ∧ servers.Alike c.servers) := by
  refine ⟨fun name serves p => ?_, fun name serves p => ?_, fun stray p => ?_, fun stray p => ?_,
    fun stray => Cluster.registerAt_refused stray⟩
  · exact ⟨size_reach serves p, read_reach serves p, write_reach serves p⟩
  · exact ⟨create_reach serves p, delete_reach serves p, fun h source => copy_reach serves p⟩
  · exact ⟨size_refused stray p, read_refused stray p, write_refused stray p⟩
  · exact ⟨flag_refused stray rfl, flag_refused stray rfl, fun h => flag_refused stray rfl⟩

def relayed : Cluster where
  naming := { catalog := .empty 1 }
  servers :=
    { servers := [("s", { backend := .memory { files := PathMap.empty.insert .sole [1] } }),
        ("t", { backend := .memory {} })]
      network :=
        { bindings := [⟨"s.storage", 0, .storage (.direct "s")⟩,
            ⟨"t.command", 1, .command (.direct "t")⟩,
            ⟨"via", 2, .command (.remote "t.command")⟩] } }

theorem relayed_copies :
    ((relayed.servers.copy (.remote "via") .sole (.direct "s")).1 = .ok true ∧
      (relayed.servers.copy (.remote "via") .sole (.direct "s")).2.content "t" .sole = some [1]) ∧
    ∃ text, (relayed.servers.delete (.remote "s.storage") .sole).1 =
      .error (.communication text) := by
  have leads : relayed.servers.network.Serves .command "via" "t" :=
    ⟨2, .forward rfl rfl (.arrive rfl rfl)⟩
  have there : relayed.servers.network.Serves .storage "s.storage" "s" :=
    ⟨1, .arrive rfl rfl⟩
  have through := ((calls_pass_through relayed "via").2.1 "t" leads .sole).2.2 (.direct "s") "s"
    there fun _ same => (Handle.direct.inj same).symm
  refine ⟨⟨?_, ?_⟩, ?_⟩
  · rw [through.answer]
    decide +kernel
  · rw [through.after.content]
    decide +kernel
  · refine (((calls_pass_through relayed "s.storage").2.2.2.1 ?_ .sole).2.1).answer
    rintro ⟨binding, h, bound, target⟩
    obtain rfl : (⟨"s.storage", 0, .storage (.direct "s")⟩ : Binding) = binding :=
      Option.some.inj bound
    cases target

end Wire

end DistFs
