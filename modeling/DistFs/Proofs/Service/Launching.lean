import DistFs.Startup
import DistFs.Proofs.Service.JoinFaults

namespace DistFs

theorem bind_eq_ok {ε α β : Type} {x : Except ε α} {f : α → Except ε β} {b : β} :
    x >>= f = .ok b ↔ ∃ a, x = .ok a ∧ f a = .ok b := by
  cases x <;> simp [Bind.bind, Except.bind]

theorem mapError_eq_ok {ε δ α : Type} {x : Except ε α} {f : ε → δ} {a : α} :
    x.mapError f = .ok a ↔ x = .ok a := by
  cases x <;> simp [Except.mapError]

/-! ## Endpoints of a configuration -/

namespace ClusterConfig

variable {config : ClusterConfig}

def endpoints (config : ClusterConfig) : List String :=
  config.naming.registrationEndpoint ::
    config.storage.flatMap fun s => [storageEndpoint s.name, commandEndpoint s.name]

def Clashes (config : ClusterConfig) : Prop :=
  ∃ s ∈ config.storage, Binds s.name config.naming.registrationEndpoint

theorem Clashes.first (clashes : config.Clashes) :
    ∃ before s after, config.storage = before ++ s :: after ∧
      (∀ t ∈ before, ¬ Binds t.name config.naming.registrationEndpoint) ∧
      Binds s.name config.naming.registrationEndpoint := by
  have found : (config.storage.find? fun s =>
      Binds s.name config.naming.registrationEndpoint).isSome := by
    rw [List.find?_isSome]
    obtain ⟨s, member, clash⟩ := clashes
    exact ⟨s, member, decide_eq_true clash⟩
  obtain ⟨s, found⟩ := Option.isSome_iff_exists.mp found
  obtain ⟨clash, before, after, split, apart⟩ := List.find?_eq_some_iff_append.mp found
  exact ⟨before, s, after, split, fun t member => by simpa using apart t member,
    decide_eq_true_eq.mp clash⟩

theorem validateStorage_eq_ok {i : Nat} {before : List String} {l : List StorageConfig} :
    validateStorage i before l = .ok () ↔
      (∀ s ∈ l, s.name ≠ "" ∧ s.name ∉ before) ∧ (l.map (·.name)).Nodup := by
  induction l generalizing i before with
  | nil => simp [validateStorage]
  | cons s l ih =>
    rw [validateStorage]
    by_cases empty : s.name = ""
    · simp [empty]
    · by_cases again : s.name ∈ before
      · simp [empty, again]
      · rw [if_neg empty, if_neg again, ih]
        simp only [List.forall_mem_cons, List.map_cons, List.nodup_cons, List.mem_append,
          List.mem_singleton, List.mem_map, not_or, not_exists, not_and]
        constructor
        · rintro ⟨others, nodup⟩
          exact ⟨⟨⟨empty, again⟩, fun t member => ⟨(others t member).1, (others t member).2.1⟩⟩,
            fun t member => (others t member).2.2, nodup⟩
        · rintro ⟨⟨-, others⟩, apart, nodup⟩
          exact ⟨fun t member => ⟨(others t member).1, (others t member).2, apart t member⟩, nodup⟩

theorem validate_eq_ok : config.validate = .ok () ↔ config.naming.validate = .ok () ∧
    (∀ s ∈ config.storage, s.name ≠ "") ∧ (config.storage.map (·.name)).Nodup := by
  rw [validate]
  cases config.naming.validate with
  | error e => simp
  | ok _ => simp [validateStorage_eq_ok]

theorem mem_pair {name endpoint : String} :
    endpoint ∈ [storageEndpoint name, commandEndpoint name] ↔ Binds name endpoint := by
  simp [Binds]

theorem nodup_endpoints (distinct : (config.storage.map (·.name)).Nodup) :
    config.endpoints.Nodup ↔ ¬ config.Clashes := by
  have apart : (config.storage.flatMap fun s =>
      [storageEndpoint s.name, commandEndpoint s.name]).Nodup := by
    refine List.nodup_flatMap.mpr ⟨fun s _ => ?_, ?_⟩
    · simp [storageEndpoint_ne_commandEndpoint]
    · refine (List.pairwise_map.mp distinct).imp fun {s t} other => ?_
      intro endpoint here there
      exact other ((mem_pair.mp here).unique (mem_pair.mp there))
  rw [endpoints, List.nodup_cons, and_iff_left apart]
  simp only [List.mem_flatMap, mem_pair, Clashes]

theorem validate_of_ofBytes {contents : Bytes} (read : ofBytes contents = .ok config) :
    config.validate = .ok () := by
  unfold ofBytes at read
  split at read
  · cases read
  next c _ =>
    cases valid : c.validate with
    | error e => simp [valid, Except.map] at read
    | ok _ =>
      obtain rfl : c = config := by simpa [valid, Except.map] using read
      exact valid

theorem validate_of_load {host : HostFiles} {here : Spot} {file : Option String}
    {more : List StorageConfig} (loaded : load host here file more = .ok config) :
    config.validate = .ok () := by
  unfold load at loaded
  split at loaded
  all_goals
    obtain ⟨read, -, loaded⟩ := bind_eq_ok.mp loaded
    obtain ⟨⟨⟩, valid, loaded⟩ := bind_eq_ok.mp loaded
    split at loaded
    · cases loaded
    · cases loaded
      exact mapError_eq_ok.mp valid

/-- A configuration passes its check, by itself or when it is read or put together. -/
inductive Accepted (config : ClusterConfig) : Prop
  | checked (valid : config.validate = .ok ())
  | read {contents : Bytes} (read : ofBytes contents = .ok config)
  | loaded {host : HostFiles} {here : Spot} {file : Option String} {more : List StorageConfig}
      (loaded : load host here file more = .ok config)

theorem Accepted.valid (accepted : config.Accepted) : config.validate = .ok () := by
  cases accepted with
  | checked valid => exact valid
  | read read => exact validate_of_ofBytes read
  | loaded loaded => exact validate_of_load loaded

end ClusterConfig

namespace Cluster

open Network

variable {c : Cluster} {registration name : String} {e : Error} {names : List String} {here : Spot}
  {config : ClusterConfig} {storage : StorageConfig}

/-! ## One server after the other -/

structure Listening (registration : String) (names : List String) (c : Cluster) : Prop where
  registrar : ∃ binding, c.servers.network.find? registration = some binding ∧
    binding.target = .registration
  bound : ∀ e, c.servers.network.isBound e = true ↔ e = registration ∨ ∃ name ∈ names, Binds name e

theorem Listening.free {endpoint : String} (h : Listening registration names c) (new : name ∉ names)
    (own : Binds name endpoint) (other : endpoint ≠ registration) :
    c.servers.network.isBound endpoint = false := by
  rw [← Bool.not_eq_true, h.bound]
  rintro (same | ⟨owner, member, theirs⟩)
  · exact other same
  · exact new (theirs.unique own ▸ member)

theorem bind_of_taken {endpoint : String} (taken : c.servers.network.isBound endpoint = true)
    (target : Target) : c.bind endpoint target = .error (alreadyBound endpoint) := by
  rw [Cluster.bind, bind_of_bound taken]
  rfl

theorem startServer_clash (h : Listening registration names c) (new : name ∉ names)
    (clash : Binds name registration) :
    (c.startServer name registration).1 = .error (alreadyBound registration) := by
  have taken : c.servers.network.isBound registration = true :=
    (h.bound registration).mpr (.inl rfl)
  rcases clash with rfl | rfl
  · unfold startServer
    rw [bind_of_taken taken]
  · -- The first endpoint can still be bound, the second one is that for registration.
    have free : c.servers.network.isBound (storageEndpoint name) = false :=
      h.free new (.inl rfl) (storageEndpoint_ne_commandEndpoint name name)
    obtain ⟨b, stored⟩ := bind_of_unbound free (.storage (.direct name))
    unfold startServer
    simp only [stored]
    rw [bind_of_taken ((Network.isBound_withBinding ..).mpr (.inl taken))]

theorem startServer_apart (h : Listening registration names c) (new : name ∉ names)
    (apart : ¬ Binds name registration) :
    (∃ e, (c.startServer name registration).1 = .error e ∧ JoinFault e) ∨
    ∃ member, (c.startServer name registration).1 = .ok member ∧
      Listening registration (names ++ [name]) (c.startServer name registration).2 := by
  have free (endpoint : String) (own : Binds name endpoint) :
      c.servers.network.isBound endpoint = false :=
    h.free new own fun same => apart (same ▸ own)
  obtain ⟨binding, bound, target⟩ := h.registrar
  obtain ⟨kept, fault⟩ := join_cases (find?_opened bound name) target name
  rw [startServer_of_free free]
  cases joined : (c.opened name).join name registration with
  | mk result c' =>
    rw [joined] at kept fault
    cases result with
    | error e => exact .inl ⟨e, rfl, fault e rfl⟩
    | ok duplicates =>
      refine .inr ⟨_, rfl, ⟨binding, (Network.find?_congr kept _).trans (find?_opened bound name),
        target⟩, fun e => ?_⟩
      rw [isBound, Network.find?_congr kept]
      refine (isBound_opened c name e).trans ?_
      rw [h.bound, or_assoc]
      simp [or_and_right, exists_or]

/-! ## All configured servers -/

theorem addConfigured_unmounted (unmounted : MountedStore.mount c.servers.host here storage.root =
    .error e) (config : ClusterConfig) :
    c.addConfigured here config storage =
      (.error ⟨[s!"Storage server '{storage.name}'"], .error e⟩, c) := by
  unfold addConfigured
  rw [unmounted]
  rfl

def mounting (c : Cluster) (name : String) (store : MountedStore) : Cluster :=
  { c with servers := c.servers.addServer name { backend := .mounted store } }

theorem Listening.mounting (h : Listening registration names c) (name : String)
    (store : MountedStore) : Listening registration names (c.mounting name store) :=
  ⟨h.registrar, h.bound⟩

theorem addConfigured_mounted {store : MountedStore}
    (mounted : MountedStore.mount c.servers.host here storage.root = .ok store)
    (config : ClusterConfig) :
    c.addConfigured here config storage =
      match (c.mounting storage.name store).startServer storage.name
          config.naming.registrationEndpoint with
      | (.ok member, c) => (.ok member, c)
      | (.error e, c) => (.error
          ⟨[s!"Failed to register storage server '{storage.name}'"], .error e⟩, c) := by
  unfold addConfigured
  rw [mounted]
  rfl

theorem mount_fault {host : HostFiles} {root : String}
    (failed : MountedStore.mount host here root = .error e) : JoinFault e := by
  unfold MountedStore.mount at failed
  split at failed
  · cases failed
    exact .host _
  · cases failed
    exact .host _
  · cases failed

theorem addConfigured_clash (h : Listening config.naming.registrationEndpoint names c)
    (new : storage.name ∉ names) (clash : Binds storage.name config.naming.registrationEndpoint)
    {store : MountedStore}
    (mounted : MountedStore.mount c.servers.host here storage.root = .ok store) :
    (c.addConfigured here config storage).1 =
      .error ⟨[s!"Failed to register storage server '{storage.name}'"],
        .error (alreadyBound config.naming.registrationEndpoint)⟩ := by
  have failed := startServer_clash (h.mounting storage.name store) new clash
  rw [addConfigured_mounted mounted]
  cases started : (c.mounting storage.name store).startServer storage.name
      config.naming.registrationEndpoint with
  | mk result c' =>
    rw [started] at failed
    obtain rfl := failed
    rfl

theorem addConfigured_apart (h : Listening config.naming.registrationEndpoint names c)
    (new : storage.name ∉ names) (apart : ¬ Binds storage.name config.naming.registrationEndpoint)
    (here : Spot) :
    (∃ f, (c.addConfigured here config storage).1 = .error f ∧
      ∃ e, f.cause = .error e ∧ JoinFault e) ∨
    ∃ member, (c.addConfigured here config storage).1 = .ok member ∧
      Listening config.naming.registrationEndpoint (names ++ [storage.name])
        (c.addConfigured here config storage).2 := by
  cases mounted : MountedStore.mount c.servers.host here storage.root with
  | error e =>
    rw [addConfigured_unmounted mounted]
    exact .inl ⟨_, rfl, e, rfl, mount_fault mounted⟩
  | ok store =>
    have outcome := startServer_apart (h.mounting storage.name store) new apart
    rw [addConfigured_mounted mounted]
    cases started : (c.mounting storage.name store).startServer storage.name
        config.naming.registrationEndpoint with
    | mk result c' =>
      rw [started] at outcome
      rcases outcome with ⟨e, rfl, fault⟩ | ⟨member, rfl, after⟩
      · exact .inl ⟨_, rfl, e, rfl, fault⟩
      · exact .inr ⟨member, rfl, after⟩

theorem addAll_apart {l : List StorageConfig} (members : List Member)
    (h : Listening config.naming.registrationEndpoint names c)
    (distinct : (names ++ l.map (·.name)).Nodup)
    (apart : ∀ s ∈ l, ¬ Binds s.name config.naming.registrationEndpoint) (here : Spot) :
    (∃ f, (addAll here config l members c).1 = .error f ∧ ∃ e, f.cause = .error e ∧ JoinFault e) ∨
    ∃ members', (addAll here config l members c).1 = .ok members' ∧
      Listening config.naming.registrationEndpoint (names ++ l.map (·.name))
        (addAll here config l members c).2 := by
  induction l generalizing names members c with
  | nil =>
    refine .inr ⟨members, rfl, ?_⟩
    rw [List.map_nil, List.append_nil]
    exact h
  | cons s l ih =>
    have new : s.name ∉ names := fun member =>
      (List.nodup_append.mp distinct).2.2 _ member _ (by simp) rfl
    have first := addConfigured_apart h new (apart s List.mem_cons_self) here
    rw [addAll]
    cases added : c.addConfigured here config s with
    | mk result c' =>
      rw [added] at first
      rcases first with ⟨f, rfl, fault⟩ | ⟨member, rfl, after⟩
      · exact .inl ⟨f, rfl, fault⟩
      · rw [List.map_cons, List.append_cons] at distinct ⊢
        exact ih _ after distinct fun t later => apart t (List.mem_cons_of_mem s later)

theorem addAll_append (here : Spot) (config : ClusterConfig) (before after : List StorageConfig)
    (members : List Member) (c : Cluster) :
    addAll here config (before ++ after) members c =
      match addAll here config before members c with
      | (.ok members, c) => addAll here config after members c
      | (.error f, c) => (.error f, c) := by
  induction before generalizing members c with
  | nil => rfl
  | cons s before ih =>
    rw [List.cons_append, addAll, addAll]
    cases c.addConfigured here config s with
    | mk result c' =>
      cases result with
      | error f => rfl
      | ok member => exact ih ..

theorem addAll_storage (here : Spot) (config : ClusterConfig) (storage l : List StorageConfig)
    (members : List Member) (c : Cluster) :
    addAll here { config with storage } l members c = addAll here config l members c := by
  induction l generalizing members c with
  | nil => rfl
  | cons s l ih =>
    have first :
        c.addConfigured here { config with storage } s = c.addConfigured here config s := by
      rw [addConfigured, addConfigured]
    rw [addAll, addAll, first]
    cases c.addConfigured here config s with
    | mk result c' =>
      cases result with
      | error f => rfl
      | ok member => exact ih ..

theorem launch_listening (valid : config.naming.validate = .ok ()) (host : HostFiles)
    (here : Spot) :
    ∃ c, Listening config.naming.registrationEndpoint [] c ∧
      ∀ storage, (launch host here { config with storage }).1 =
        (addAll here config storage [] c).1.map ((addAll here config storage [] c).2, ·) := by
  let catalog : Catalog := .empty config.naming.replicationThreshold.toNat
  have created : NamingServer.create config.naming = .ok { config := config.naming, catalog } := by
    rw [NamingServer.create, valid]
    rfl
  obtain ⟨c, started⟩ : ∃ c, ({ naming := { config := config.naming, catalog }
                                servers := { host } } : Cluster).start = .ok c := ⟨_, rfl⟩
  have joined := joined_start created rfl started
  refine ⟨c, ⟨joined.registrar, fun e => ⟨joined.bound e, ?_⟩⟩, fun storage => ?_⟩
  · rintro (rfl | ⟨name, member, -⟩)
    · obtain ⟨binding, bound, -⟩ := joined.registrar
      rw [isBound, bound, Option.isSome_some]
    · cases member
  · simp only [launch, created, started]
    rw [addAll_storage]

/-- What comes of a start when a server is the first that is after the endpoint for registration. -/
structure Stumbles (host : HostFiles) (here : Spot) (config : ClusterConfig)
    (before : List StorageConfig) (s : StorageConfig) : Prop where
  earlier : ∀ f, (launch host here { config with storage := before }).1 = .error f →
    (launch host here config).1 = .error f
  unmounted : ∀ c members,
    (launch host here { config with storage := before }).1 = .ok (c, members) →
    ∀ e, MountedStore.mount c.servers.host here s.root = .error e →
      (launch host here config).1 = .error ⟨[s!"Storage server '{s.name}'"], .error e⟩
  mounted : ∀ c members, (launch host here { config with storage := before }).1 = .ok (c, members) →
    ∀ store, MountedStore.mount c.servers.host here s.root = .ok store →
      (launch host here config).1 = .error
        ⟨[s!"Failed to register storage server '{s.name}'"],
          .error (alreadyBound config.naming.registrationEndpoint)⟩

theorem launch_stumbles (valid : config.validate = .ok ()) {before after : List StorageConfig}
    {s : StorageConfig} (split : config.storage = before ++ s :: after)
    (apart : ∀ t ∈ before, ¬ Binds t.name config.naming.registrationEndpoint)
    (clash : Binds s.name config.naming.registrationEndpoint) (host : HostFiles) (here : Spot) :
    Stumbles host here config before s := by
  obtain ⟨settings, -, distinct⟩ := ClusterConfig.validate_eq_ok.mp valid
  rw [split, List.map_append, List.map_cons] at distinct
  obtain ⟨c, listening, launched⟩ := launch_listening settings host here
  have whole : (launch host here config).1 = _ := launched config.storage
  rw [split, addAll_append] at whole
  have first := addAll_apart [] listening (by
    rw [List.nil_append]; exact (List.nodup_append.mp distinct).1) apart here
  have new : s.name ∉ [] ++ before.map (·.name) := fun member =>
    (List.nodup_append.mp distinct).2.2 _ member _ List.mem_cons_self rfl
  have part := launched before
  cases joined : addAll here config before [] c with
  | mk result c' =>
    rw [joined] at whole part first
    rcases first with ⟨f, rfl, -⟩ | ⟨members, rfl, listening'⟩
    · refine ⟨fun f' failed => ?_, fun d ms done => ?_, fun d ms done => ?_⟩
      · rw [part] at failed
        rw [whole]
        exact failed
      · rw [part] at done
        cases done
      · rw [part] at done
        cases done
    · refine ⟨fun f failed => ?_, fun d ms done e unmounted => ?_,
        fun d ms done store mounted => ?_⟩
      · rw [part] at failed
        cases failed
      · rw [part] at done
        obtain ⟨rfl, -⟩ := Prod.mk.inj (Except.ok.inj done)
        rw [whole]
        simp only [addAll, addConfigured_unmounted unmounted]
        rfl
      · rw [part] at done
        obtain ⟨rfl, -⟩ := Prod.mk.inj (Except.ok.inj done)
        have failed := addConfigured_clash listening' new clash mounted
        rw [whole]
        simp only [addAll]
        cases added : addConfigured here config s c' with
        | mk result c'' =>
          rw [added] at failed
          obtain rfl := failed
          rfl

theorem launch_apart (config : ClusterConfig) (settings : config.naming.validate = .ok ())
    (distinct : (config.storage.map (·.name)).Nodup) (apart : ¬ config.Clashes) {host : HostFiles}
    {f : Failure} (failed : (launch host here config).1 = .error f) :
    ∃ e, f.cause = .error e ∧ JoinFault e := by
  obtain ⟨c, listening, launched⟩ := launch_listening settings host here
  have whole : (launch host here config).1 = _ := launched config.storage
  rw [whole] at failed
  rcases addAll_apart [] listening (by rwa [List.nil_append])
    (fun s member clash => apart ⟨s, member, clash⟩) here with ⟨f', failed', fault⟩ | ⟨ms, done, -⟩
  · rw [failed'] at failed
    cases failed
    exact fault
  · rw [done] at failed
    cases failed

theorem Stumbles.failed {host : HostFiles} {before : List StorageConfig} {s : StorageConfig}
    (h : Stumbles host here config before s) : ∃ f, (launch host here config).1 = .error f := by
  cases first : (launch host here { config with storage := before }).1 with
  | error f => exact ⟨f, h.earlier f first⟩
  | ok result =>
    obtain ⟨c, members⟩ := result
    cases mounted : MountedStore.mount c.servers.host here s.root with
    | error e => exact ⟨_, h.unmounted c members first e mounted⟩
    | ok store => exact ⟨_, h.mounted c members first store mounted⟩

theorem Stumbles.endpoint {host : HostFiles} {before : List StorageConfig} {s : StorageConfig}
    (h : Stumbles host here config before s) (settings : config.naming.validate = .ok ())
    (distinct : (before.map (·.name)).Nodup)
    (apart : ∀ t ∈ before, ¬ Binds t.name config.naming.registrationEndpoint) {f : Failure}
    {endpoint : String} (failed : (launch host here config).1 = .error f)
    (cause : f.cause = .error (alreadyBound endpoint)) :
    endpoint = config.naming.registrationEndpoint := by
  cases first : (launch host here { config with storage := before }).1 with
  | error f' =>
    obtain rfl := Except.error.inj (failed.symm.trans (h.earlier f' first))
    obtain ⟨e, same, fault⟩ := launch_apart { config with storage := before } settings
      distinct (fun ⟨t, member, clash⟩ => apart t member clash) first
    exact absurd (Cause.error.inj (same.symm.trans cause)) (fault.ne_alreadyBound endpoint)
  | ok result =>
    obtain ⟨c, members⟩ := result
    cases mounted : MountedStore.mount c.servers.host here s.root with
    | error e =>
      obtain rfl := Except.error.inj (failed.symm.trans (h.unmounted c members first e mounted))
      exact absurd (Cause.error.inj cause) ((mount_fault mounted).ne_alreadyBound endpoint)
    | ok store =>
      obtain rfl := Except.error.inj (failed.symm.trans (h.mounted c members first store mounted))
      exact (alreadyBound_inj (Cause.error.inj cause)).symm

/-- A configuration that is accepted has all endpoints apart unless a server is after the endpoint
for registration. That is the only endpoint which can turn out to be bound already; and with such a
server the start always fails, at the first of them if not before. -/
theorem endpoints_apart_but_registration (config : ClusterConfig) (accepted : config.Accepted) :
    (config.endpoints.Nodup ↔ ¬ config.Clashes) ∧
    (∀ host here f endpoint, (launch host here config).1 = .error f →
      f.cause = .error (alreadyBound endpoint) →
        endpoint = config.naming.registrationEndpoint ∧ config.Clashes) ∧
    (config.Clashes → ∃ before s after, config.storage = before ++ s :: after ∧
      (∀ t ∈ before, ¬ Binds t.name config.naming.registrationEndpoint) ∧
      Binds s.name config.naming.registrationEndpoint ∧
      ∀ host here, Stumbles host here config before s ∧
        ∃ f, (launch host here config).1 = .error f) := by
  have valid := accepted.valid
  obtain ⟨settings, -, distinct⟩ := ClusterConfig.validate_eq_ok.mp valid
  refine ⟨ClusterConfig.nodup_endpoints distinct, fun host here f endpoint failed cause => ?_,
    fun clashes => ?_⟩
  · by_cases clashes : config.Clashes
    · obtain ⟨before, s, after, split, apart, clash⟩ := clashes.first
      rw [split, List.map_append] at distinct
      refine ⟨?_, clashes⟩
      exact (launch_stumbles valid split apart clash host here).endpoint settings
        (List.nodup_append.mp distinct).1 apart failed cause
    · obtain ⟨e, same, fault⟩ := launch_apart config settings distinct clashes failed
      exact absurd (Cause.error.inj (same.symm.trans cause)) (fault.ne_alreadyBound endpoint)
  · obtain ⟨before, s, after, split, apart, clash⟩ := clashes.first
    have stumbles := launch_stumbles valid split apart clash
    exact ⟨before, s, after, split, apart, clash, fun host here =>
      ⟨stumbles host here, (stumbles host here).failed⟩⟩

def overlapping : ClusterConfig where
  naming := { registrationEndpoint := "a.storage" }
  storage := [⟨"a", "/a"⟩]

theorem overlapping_cannot_start :
    overlapping.validate = .ok () ∧ ¬ overlapping.endpoints.Nodup ∧
      (launch ⟨[(["a"], .directory)]⟩ [] overlapping).1 =
        .error ⟨["Failed to register storage server 'a'"], .error (alreadyBound "a.storage")⟩ := by
  have valid : overlapping.validate = .ok () := by decide +kernel
  obtain ⟨apart, -, clashes⟩ := endpoints_apart_but_registration overlapping (.checked valid)
  have clash : overlapping.Clashes := ⟨⟨"a", "/a"⟩, List.mem_singleton_self _, .inl rfl⟩
  obtain ⟨before, s, after, split, -, -, start⟩ := clashes clash
  refine ⟨valid, fun nodup => apart.mp nodup clash, ?_⟩
  obtain ⟨rfl, rfl⟩ : before = [] ∧ s = ⟨"a", "/a"⟩ := by
    cases before with
    | nil => exact ⟨rfl, (List.cons.inj split).1.symm⟩
    | cons t before => simp [overlapping] at split
  exact (start ⟨[(["a"], .directory)]⟩ []).1.mounted _ _ rfl ⟨["a"]⟩ rfl

end Cluster

end DistFs
