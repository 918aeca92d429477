import DistFs.Joining
import DistFs.Proofs.Service.Offers
import DistFs.Proofs.Storage.Contents
import DistFs.Proofs.Storage.Shape
import DistFs.Proofs.Wire.Endpoints

namespace DistFs

theorem storageEndpoint_inj {a b : String} (same : storageEndpoint a = storageEndpoint b) :
    a = b := by
  have chars := congrArg String.toList same
  simp only [storageEndpoint, String.toList_append] at chars
  exact String.toList_inj.mp (List.append_cancel_right chars)

theorem commandEndpoint_inj {a b : String} (same : commandEndpoint a = commandEndpoint b) :
    a = b := by
  have chars := congrArg String.toList same
  simp only [commandEndpoint, String.toList_append] at chars
  exact String.toList_inj.mp (List.append_cancel_right chars)

theorem storageEndpoint_ne_commandEndpoint (a b : String) :
    storageEndpoint a ≠ commandEndpoint b := by
  intro same
  have chars := congrArg String.toList same
  simp only [storageEndpoint, commandEndpoint, String.toList_append] at chars
  have same := List.append_inj_right' chars (by simp)
  simp at same

def Container.bound (server : String) : Container :=
  ⟨.remote (storageEndpoint server), .remote (commandEndpoint server)⟩

def Binds (server endpoint : String) : Prop :=
  endpoint = storageEndpoint server ∨ endpoint = commandEndpoint server

instance (server endpoint : String) : Decidable (Binds server endpoint) :=
  inferInstanceAs (Decidable (_ ∨ _))

theorem Binds.unique {a b endpoint : String} (h : Binds a endpoint) (h' : Binds b endpoint) :
    a = b := by
  rcases h with rfl | rfl <;> rcases h' with same | same
  · exact storageEndpoint_inj same
  · exact absurd same (storageEndpoint_ne_commandEndpoint a b)
  · exact absurd same.symm (storageEndpoint_ne_commandEndpoint b a)
  · exact commandEndpoint_inj same

namespace Servers

variable {s s' s'' : Servers} {name other : String} {store store' : MemoryStore} {p q : Path}
  {list : List Path}

def hasDirectory (s : Servers) (name : String) (p : Path) : Bool :=
  (s.memory? name).any (·.directories.contains p)

def Runs (s : Servers) (name : String) (store : MemoryStore) : Prop :=
  s.find? name = some { backend := .memory store }

theorem Runs.memory? (runs : s.Runs name store) : s.memory? name = some store := by
  rw [Servers.memory?, runs]

theorem Runs.content (runs : s.Runs name store) (p : Path) :
    s.content name p = store.files.get? p := content_of_found runs rfl p

structure Renewed (s s' : Servers) (name : String) (store : MemoryStore) : Prop where
  runs : s'.Runs name store
  elsewhere : ∀ other, other ≠ name → s'.find? other = s.find? other
  network : s'.network = s.network

theorem Renewed.refl (runs : s.Runs name store) : Renewed s s name store :=
  ⟨runs, fun _ _ => rfl, rfl⟩

theorem Renewed.trans (h : Renewed s s' name store) (h' : Renewed s' s'' name store') :
    Renewed s s'' name store' :=
  ⟨h'.runs, fun other apart => (h'.elsewhere other apart).trans (h.elsewhere other apart),
    h'.network.trans h.network⟩

theorem Runs.set (runs : s.Runs name store) (store' : MemoryStore) :
    Renewed s (s.set name { backend := .memory store' }) name store' := by
  have found := find?_set runs { backend := .memory store' }
  exact ⟨(found name).trans (if_pos rfl), fun other apart => (found other).trans (if_neg apart),
    rfl⟩

theorem Runs.listFiles (runs : s.Runs name store) : s.listFiles name = .ok store.files.keys := by
  simp [Servers.listFiles, dataOf, show s.find? name = _ from runs, Bind.bind, Except.bind, pure,
    Except.pure]

theorem Runs.deleteOn (runs : s.Runs name store) (p : Path) :
    ∃ s', s.deleteOn name p = (.ok (store.delete p).1, s') ∧
      Renewed s s' name (store.delete p).2 := by
  refine ⟨_, ?_, runs.set _⟩
  simp [Servers.deleteOn, command, show s.find? name = _ from runs, keepMemory]

theorem Runs.pruneOn (runs : s.Runs name store) :
    ∃ s', s.pruneOn name = (.ok (), s') ∧ Renewed s s' name store.prune := by
  refine ⟨_, ?_, runs.set _⟩
  simp [Servers.pruneOn, show s.find? name = _ from runs]

theorem Runs.dropDuplicates (runs : s.Runs name store) (wf : store.WellFormed)
    (files : ∀ p ∈ list, store.files.contains p = true) (nodup : list.Nodup) :
    ∃ s' store', Cluster.dropDuplicates name list s = (.ok (), s') ∧ Renewed s s' name store' ∧
      store'.WellFormed ∧ store'.directories = store.directories ∧
      ∀ q, store'.files.get? q = if q ∈ list then none else store.files.get? q := by
  induction list generalizing s store with
  | nil => exact ⟨s, store, rfl, .refl runs, wf, rfl, by simp⟩
  | cons p list ih =>
    have file := files p List.mem_cons_self
    obtain ⟨first, nodup⟩ := List.nodup_cons.mp nodup
    have below : ¬ p.isRoot = true := by
      intro root
      have apart := wf.apart p file
      rw [MemoryStore.isDirectory, root] at apart
      cases apart
    have deleted : store.delete p = (true, { store with files := store.files.erase p }) := by
      rw [MemoryStore.delete, if_neg below, if_pos file]
    obtain ⟨s', dropped, renewed⟩ := runs.deleteOn p
    rw [deleted] at dropped renewed
    obtain ⟨s'', store', later, renewed', wf', directories, contents⟩ :=
      ih renewed.runs (wf.erase p) (fun q member => (PathMap.contains_erase ..).mpr
        ⟨fun same => first (same ▸ member), files q (List.mem_cons_of_mem p member)⟩) nodup
    refine ⟨s'', store', ?_, renewed.trans renewed', wf', directories, fun q => ?_⟩
    · rw [Cluster.dropDuplicates, dropped]
      exact later
    · rw [contents, PathMap.get?_erase]
      by_cases here : q = p <;> by_cases there : q ∈ list <;> simp [here, there]

end Servers

namespace Network

variable {net : Network} {endpoint other : String}

def withBinding (net : Network) (endpoint : String) (target : Target) : Network :=
  { net with
    bindings := net.bindings ++ [⟨endpoint, net.serial, target⟩], serial := net.serial + 1 }

theorem bind_of_unbound (free : net.isBound endpoint = false) (target : Target) :
    net.bind endpoint target =
      .ok (⟨endpoint, net.serial, target⟩, net.withBinding endpoint target) := by
  rw [Network.bind, free]
  rfl

theorem isBound_withBinding (net : Network) (endpoint : String) (target : Target) (other : String) :
    (net.withBinding endpoint target).isBound other = true ↔
      net.isBound other = true ∨ other = endpoint := by
  simp only [isBound, find?, withBinding, List.find?_append, Option.isSome_or, Bool.or_eq_true]
  refine or_congr_right ?_
  by_cases same : endpoint = other
  · simp [same]
  · simp [same, Ne.symm same]

theorem find?_withBinding {binding : Binding} (bound : net.find? other = some binding)
    (endpoint : String) (target : Target) :
    (net.withBinding endpoint target).find? other = some binding := by
  unfold find? at bound
  simp [find?, withBinding, List.find?_append, bound]

end Network

namespace Cluster

open Servers

variable {s : Servers} {c : Cluster} {registration name other : String} {names : List String}
  {store : MemoryStore} {l : Listing} {p q : Path} {binding : Binding}

/-! ## One server -/

theorem bind_of_unbound {endpoint : String} (free : c.servers.network.isBound endpoint = false)
    (target : Target) : ∃ binding, c.bind endpoint target =
      .ok (binding, c.setNetwork (c.servers.network.withBinding endpoint target)) := by
  refine ⟨⟨endpoint, c.servers.network.serial, target⟩, ?_⟩
  rw [Cluster.bind, Network.bind_of_unbound free]
  rfl

def opened (c : Cluster) (name : String) : Cluster :=
  c.setNetwork ((c.servers.network.withBinding (storageEndpoint name)
    (.storage (.direct name))).withBinding (commandEndpoint name) (.command (.direct name)))

theorem isBound_opened (c : Cluster) (name endpoint : String) :
    (c.opened name).servers.network.isBound endpoint = true ↔
      c.servers.network.isBound endpoint = true ∨ Binds name endpoint := by
  unfold opened setNetwork
  rw [Network.isBound_withBinding, Network.isBound_withBinding, or_assoc]
  rfl

theorem find?_opened {endpoint : String} (bound : c.servers.network.find? endpoint = some binding)
    (name : String) : (c.opened name).servers.network.find? endpoint = some binding :=
  Network.find?_withBinding (Network.find?_withBinding bound _ _) _ _

theorem startServer_of_free
    (free : ∀ endpoint, Binds name endpoint → c.servers.network.isBound endpoint = false) :
    c.startServer name registration =
      match (c.opened name).join name registration with
      | (.ok duplicates, c) => (.ok ⟨name, duplicates⟩, c)
      | (.error e, c) => (.error e, c.stopServer name) := by
  obtain ⟨b, stored⟩ := bind_of_unbound (free _ (.inl rfl)) (.storage (.direct name))
  have free' : (c.setNetwork (c.servers.network.withBinding (storageEndpoint name)
      (.storage (.direct name)))).servers.network.isBound (commandEndpoint name) = false := by
    rw [← Bool.not_eq_true]
    intro listed
    rcases (Network.isBound_withBinding ..).mp listed with old | same
    · rw [free _ (.inr rfl)] at old
      cases old
    · exact storageEndpoint_ne_commandEndpoint name name same.symm
  obtain ⟨b', commanded⟩ : ∃ b', (c.setNetwork (c.servers.network.withBinding
      (storageEndpoint name) (.storage (.direct name)))).bind (commandEndpoint name)
      (.command (.direct name)) = .ok (b', c.opened name) := bind_of_unbound free' _
  cases joined : (c.opened name).join name registration with
  | mk result c' => cases result <;> simp only [startServer, stored, commanded, joined]

theorem registerAt_bound (bound : c.servers.network.find? registration = some binding)
    (target : binding.target = .registration) (name : String) (files : List Path) :
    c.registerAt registration (.bound name) files =
      (c.setNetwork c.servers.network.dial).register (.bound name) files := by
  have served : serve binding.target (.register (Container.bound name).endpoints.1
      (Container.bound name).endpoints.2 files) (c.setNetwork c.servers.network.dial) =
      (((c.setNetwork c.servers.network.dial).register (.bound name) files).1.map .paths,
        ((c.setNetwork c.servers.network.dial).register (.bound name) files).2) := by
    rw [target]
    rfl
  unfold registerAt
  simp only [Network.exchange_bound bound, served]
  cases (c.setNetwork c.servers.network.dial).register (.bound name) files with
  | mk result c' => cases result <;> rfl

theorem beside_keys (wf : store.WellFormed) : store.files.keys.Pairwise Path.Beside := by
  have apart {p q : Path} (there : p ∈ store.files.keys) (there' : q ∈ store.files.keys)
      (other : q ≠ p) : p.isUnder q = false := by
    rw [← Bool.not_eq_true]
    intro under
    have above := Path.mem_ancestors.mpr ⟨under, other⟩
    have directory := wf.above_file p (PathMap.mem_keys_iff_contains.mp there) q above
    rw [wf.apart q (PathMap.mem_keys_iff_contains.mp there')] at directory
    cases directory
  refine store.files.nodup_keys.imp_of_mem fun there there' other => ?_
  exact ⟨apart there there' other.symm, apart there' there other⟩

/-- What a server that joins keeps: the files whose places are free, and the directories above. -/
structure Keeps (l : Listing) (store kept : MemoryStore) : Prop where
  files : ∀ p, kept.files.get? p =
    if p ∈ store.files.keys.filter l.isOccupied then none else store.files.get? p
  directories : ∀ q, kept.directories.contains q = true ↔
    q ≠ .root ∧ ∃ p, kept.files.contains p = true ∧ q ∈ p.ancestors

theorem Keeps.mem_keptOf {kept : MemoryStore} (h : Keeps l store kept) (p : Path) :
    p ∈ keptOf l store.files.keys ↔ kept.files.get? p ≠ none := by
  have listed : p ∈ store.files.keys ↔ store.files.get? p ≠ none :=
    PathMap.mem_keys.trans Option.ne_none_iff_exists'.symm
  rw [keptOf, List.mem_filter, h.files]
  cases occupied : l.isOccupied p <;> simp [List.mem_filter, occupied, listed]

structure Admits (c c' : Cluster) (name : String) (l l' : Listing) (store kept : MemoryStore) :
    Prop where
  shows : c'.tree.Shows l'
  extended : Listing.Extends (.bound name) (keptOf l store.files.keys) l l'
  registered : ∀ e ∈ c'.naming.registered, e ∈ c.naming.registered ∨ Binds name e
  bound : ∀ e, c'.servers.network.isBound e = true →
    c.servers.network.isBound e = true ∨ Binds name e
  stays : ∀ e binding, c.servers.network.find? e = some binding →
    c'.servers.network.find? e = some binding
  elsewhere : ∀ other, other ≠ name → c'.servers.find? other = c.servers.find? other
  runs : c'.servers.Runs name kept
  keeps : Keeps l store kept

theorem mem_enroll_bound {e : String} (member : e ∈ (c.enroll (.bound name)).naming.registered) :
    e ∈ c.naming.registered ∨ Binds name e := by
  rcases List.mem_append.mp member with old | new
  · exact .inl old
  · right
    split at new
    · exact .inl (List.mem_singleton.mp new)
    · exact (List.mem_cons.mp new).imp_right List.mem_singleton.mp

theorem join_outcome (h : c.tree.Shows l) (runs : c.servers.Runs name store)
    (wf : store.WellFormed) (bound : c.servers.network.find? registration = some binding)
    (target : binding.target = .registration)
    (new : ∀ endpoint ∈ c.naming.registered, ¬ Binds name endpoint) :
    ∃ c' l' kept, c.join name registration = (.ok (store.files.keys.filter l.isOccupied), c') ∧
      Admits c c' name l l' store kept := by
  have below (p : Path) (member : p ∈ store.files.keys) : p ≠ .root := by
    rintro rfl
    cases wf.apart .root (PathMap.mem_keys_iff_contains.mp member)
  have unknown : ¬ ((Container.bound name).endpoints.1 ∈ c.naming.registered ∨
      (Container.bound name).endpoints.2 ∈ c.naming.registered) := by
    rintro (known | known)
    · exact new _ known (.inl rfl)
    · exact new _ known (.inr rfl)
  obtain ⟨u, l', registered, shows, extended⟩ := register_outcome
    (c := c.setNetwork c.servers.network.dial) h unknown below (beside_keys wf)
  have dialed : (c.setNetwork c.servers.network.dial).servers.Runs name store := runs
  obtain ⟨s', store', dropped, renewed, wf', -, contents⟩ := dialed.dropDuplicates wf
    (fun p member => PathMap.mem_keys_iff_contains.mp (List.mem_filter.mp member).1)
    (store.files.nodup_keys.filter l.isOccupied)
  obtain ⟨s'', pruned, renewed'⟩ := renewed.runs.pruneOn
  have whole := renewed.trans renewed'
  refine ⟨{ ((c.setNetwork c.servers.network.dial).enroll (.bound name)).setTree u s'' with
    servers := s'' }, l', store'.prune, ?_, shows, extended, fun e => mem_enroll_bound,
    fun e listed => ?_, fun e binding found => ?_, whole.elsewhere, whole.runs, ?_, ?_⟩
  · have asked := (registerAt_bound bound target name store.files.keys).trans registered
    unfold Container.bound at asked
    unfold join
    simp only [runs.listFiles, asked]
    have dropped' : dropDuplicates name (store.files.keys.filter l.isOccupied)
        (((c.setNetwork c.servers.network.dial).enroll (.bound name)).setTree u
          (c.setNetwork c.servers.network.dial).servers).servers = (.ok (), s') := dropped
    unfold Container.bound at dropped'
    simp only [dropped', pruned]
    rfl
  · rw [whole.network] at listed
    exact .inl listed
  · rw [whole.network]
    exact found
  · exact contents
  · exact wf'.contains_prune_iff

theorem startServer_outcome (h : c.tree.Shows l) (runs : c.servers.Runs name store)
    (wf : store.WellFormed) (bound : c.servers.network.find? registration = some binding)
    (target : binding.target = .registration)
    (new : ∀ endpoint ∈ c.naming.registered, ¬ Binds name endpoint)
    (free : ∀ endpoint, Binds name endpoint → c.servers.network.isBound endpoint = false) :
    ∃ c' l' kept, c.startServer name registration =
        (.ok ⟨name, store.files.keys.filter l.isOccupied⟩, c') ∧
      Admits c c' name l l' store kept := by
  obtain ⟨binding', registrar, target'⟩ : ∃ b,
      (c.opened name).servers.network.find? registration = some b ∧ b.target = .registration :=
    ⟨binding, find?_opened bound name, target⟩
  obtain ⟨c', l', kept, joined, admits⟩ :=
    join_outcome (c := c.opened name) h runs wf registrar target' new
  refine ⟨c', l', kept, by rw [startServer_of_free free, joined],
    { admits with bound := fun e listed => ?_, stays := ?_ }⟩
  · rcases admits.bound e listed with old | own
    · exact (isBound_opened c name e).mp old
    · exact .inr own
  · intro e binding found
    exact admits.stays e binding (find?_opened found name)

/-! ## One server after the other -/

/-- Some servers have joined, and the tree has a file for each one that they keep. -/
structure Joined (s : Servers) (registration : String) (names : List String) (c : Cluster)
    (l : Listing) : Prop where
  shows : c.tree.Shows l
  registrar : ∃ binding, c.servers.network.find? registration = some binding ∧
    binding.target = .registration
  bound : ∀ e, c.servers.network.isBound e = true → e = registration ∨ ∃ name ∈ names, Binds name e
  registered : ∀ e ∈ c.naming.registered, ∃ name ∈ names, Binds name e
  waiting : ∀ name, name ∉ names → c.servers.find? name = s.find? name
  holders : ∀ p containers, l.holders p = some containers ↔
    ∃ name ∈ names, c.servers.content name p ≠ none ∧ containers = [.bound name]

theorem holders_of_kept {paths : List Path} {p : Path} (mine : p ∈ keptOf l paths) :
    l.holders p = none := by
  have free := (List.mem_filter.mp mine).2
  rw [← Option.not_isSome_iff_eq_none, Listing.isSome_holders]
  intro file
  have there : l.contains p = true := by
    unfold Listing.isFile at file
    cases entry : l.get? p with
    | none => simp [entry] at file
    | some e => simp [PathMap.contains, entry]
  rw [Listing.isOccupied_iff.mpr (.inl there)] at free
  cases free

theorem Admits.holders (admits : Admits c c' name l l' store kept) (p : Path)
    (containers : List Container) : l'.holders p = some containers ↔
      l.holders p = some containers ∨
        p ∈ keptOf l store.files.keys ∧ containers = [.bound name] := by
  rw [admits.extended.holders]
  by_cases mine : p ∈ keptOf l store.files.keys
  · simp [mine, holders_of_kept mine, eq_comm]
  · simp [mine]

theorem Joined.endpoints (h : Joined s registration names c l) (new : name ∉ names)
    (apart : ¬ Binds name registration) :
    (∀ endpoint ∈ c.naming.registered, ¬ Binds name endpoint) ∧
    ∀ endpoint, Binds name endpoint → c.servers.network.isBound endpoint = false := by
  refine ⟨fun endpoint known own => ?_, fun endpoint own => ?_⟩
  · obtain ⟨other, member, theirs⟩ := h.registered endpoint known
    exact new (own.unique theirs ▸ member)
  · rw [← Bool.not_eq_true]
    intro listed
    rcases h.bound endpoint listed with rfl | ⟨other, member, theirs⟩
    · exact apart own
    · exact new (own.unique theirs ▸ member)

theorem Joined.start (h : Joined s registration names c l) (new : name ∉ names)
    (runs : s.Runs name store) (wf : store.WellFormed) (apart : ¬ Binds name registration) :
    ∃ c' l' kept, c.startServer name registration =
        (.ok ⟨name, store.files.keys.filter l.isOccupied⟩, c') ∧
      Admits c c' name l l' store kept ∧ Joined s registration (names ++ [name]) c' l' := by
  obtain ⟨binding, bound, target⟩ := h.registrar
  obtain ⟨unknown, free⟩ := h.endpoints new apart
  obtain ⟨c', l', kept, started, admits⟩ := startServer_outcome h.shows
    ((h.waiting name new).trans runs) wf bound target unknown free
  have contents (other : String) (p : Path) (member : other ∈ names) :
      c'.servers.content other p = c.servers.content other p := by
    have same := admits.elsewhere other fun same => new (same ▸ member)
    rw [Servers.content, memory?, same, Servers.content, memory?]
  refine ⟨c', l', kept, started, admits, admits.shows, ⟨binding, admits.stays _ _ bound, target⟩,
    fun e listed => ?_, fun e known => ?_, fun other absent => ?_, fun p containers => ?_⟩
  · rcases admits.bound e listed with old | own
    · rcases h.bound e old with rfl | ⟨other, member, theirs⟩
      · exact .inl rfl
      · exact .inr ⟨other, List.mem_append_left _ member, theirs⟩
    · exact .inr ⟨name, List.mem_append_right _ List.mem_cons_self, own⟩
  · rcases admits.registered e known with old | own
    · obtain ⟨other, member, theirs⟩ := h.registered e old
      exact ⟨other, List.mem_append_left _ member, theirs⟩
    · exact ⟨name, List.mem_append_right _ List.mem_cons_self, own⟩
  · rw [List.mem_append, not_or, List.mem_singleton] at absent
    exact (admits.elsewhere other absent.2).trans (h.waiting other absent.1)
  · have own : c'.servers.content name p ≠ none ↔ p ∈ keptOf l store.files.keys := by
      rw [admits.runs.content, admits.keeps.mem_keptOf]
    rw [admits.holders, h.holders]
    simp only [List.mem_append, List.mem_singleton, or_and_right, exists_or, exists_eq_left, own]
    refine or_congr_left (exists_congr fun other => and_congr_right fun member => ?_)
    rw [contents other p member]

def startServers (registration : String) (names : List String) (c : Cluster) : Cluster :=
  names.foldl (fun c name => (c.startServer name registration).2) c

def Ready (s : Servers) (registration name : String) : Prop :=
  ∃ store, s.Runs name store ∧ store.Built ∧ ¬ Binds name registration

theorem Joined.startServers (h : Joined s registration names c l) (more : List String)
    (distinct : (names ++ more).Nodup) (ready : ∀ name ∈ more, Ready s registration name) :
    ∃ l', Joined s registration (names ++ more) (c.startServers registration more) l' ∧
      ∀ other, other ∉ more →
        (c.startServers registration more).servers.find? other = c.servers.find? other := by
  induction more generalizing names c l with
  | nil => exact ⟨l, (List.append_nil names).symm ▸ h, fun _ _ => rfl⟩
  | cons name more ih =>
    obtain ⟨store, runs, built, apart⟩ := ready name List.mem_cons_self
    have new : name ∉ names := fun member =>
      (List.nodup_append.mp distinct).2.2 name member name List.mem_cons_self rfl
    obtain ⟨c', l', kept, started, admits, joined⟩ := h.start new runs built.wellFormed apart
    have second : (c.startServer name registration).2 = c' := by rw [started]
    rw [List.append_cons] at distinct
    obtain ⟨l'', joined', others⟩ :=
      ih joined distinct fun other later => ready other (List.mem_cons_of_mem name later)
    rw [Cluster.startServers, List.foldl_cons, second, List.append_cons]
    refine ⟨l'', joined', fun other absent => ?_⟩
    rw [List.mem_cons, not_or] at absent
    exact (others other absent.2).trans (admits.elsewhere other absent.1)

theorem Joined.startServers_at {before after : List String} (h : Joined s registration [] c l)
    (distinct : (before ++ name :: after).Nodup)
    (ready : ∀ other ∈ before ++ name :: after, Ready s registration other) :
    ∃ l₁ store kept, s.Runs name store ∧
      Joined s registration before (c.startServers registration before) l₁ ∧
      ((c.startServers registration before).startServer name registration).1 =
        .ok ⟨name, store.files.keys.filter l₁.isOccupied⟩ ∧
      (c.startServers registration (before ++ name :: after)).servers.Runs name kept ∧
      Keeps l₁ store kept := by
  obtain ⟨store, runs, built, apart⟩ := ready name (by simp)
  obtain ⟨distinct', -, separate⟩ := List.nodup_append.mp distinct
  have new : name ∉ before := fun member => separate name member name List.mem_cons_self rfl
  obtain ⟨l₁, joined₁, -⟩ := h.startServers before distinct' fun other member =>
    ready other (List.mem_append_left _ member)
  obtain ⟨c₂, l₂, kept, started, admits, joined₂⟩ :=
    joined₁.start new runs built.wellFormed apart
  rw [List.append_cons] at distinct
  obtain ⟨l₃, -, others⟩ := joined₂.startServers after distinct fun other member =>
    ready other (List.mem_append_right _ (List.mem_cons_of_mem name member))
  have last : c.startServers registration (before ++ name :: after) =
      c₂.startServers registration after := by
    have second := congrArg Prod.snd started
    simp only [Cluster.startServers, List.foldl_append, List.foldl_cons] at second ⊢
    rw [second]
  have absent : name ∉ after := fun member =>
    (List.nodup_append.mp distinct).2.2 name (by simp) name member rfl
  refine ⟨l₁, store, kept, runs, joined₁, congrArg Prod.fst started, ?_, admits.keeps⟩
  rw [last]
  exact (others name absent).trans admits.runs

theorem joined_start {config : NamingConfig} {naming : NamingServer}
    (created : NamingServer.create config = .ok naming) (fresh : s.network = {})
    (started : ({ naming, servers := s } : Cluster).start = .ok c) :
    Joined s config.registrationEndpoint [] c .initial := by
  obtain ⟨threshold, rfl⟩ : ∃ threshold, naming = { config, catalog := .empty threshold } := by
    unfold NamingServer.create at created
    cases valid : config.validate with
    | error e => simp [valid, Bind.bind, Except.bind] at created
    | ok _ =>
      simp only [valid, Bind.bind, Except.bind, pure, Except.pure, Except.ok.injEq] at created
      exact ⟨_, created.symm⟩
  have free : s.network.isBound config.registrationEndpoint = false := by
    rw [fresh]
    rfl
  obtain ⟨binding, bound⟩ := bind_of_unbound
    (c := { naming := { config, catalog := .empty threshold }, servers := s }) free .registration
  simp only [Cluster.start, Bool.false_eq_true, if_false, bound, Bind.bind, Except.bind, pure,
    Except.pure, Except.ok.injEq] at started
  subst started
  have alone (e : String) :
      (s.network.withBinding config.registrationEndpoint .registration).isBound e = true ↔
        e = config.registrationEndpoint := by
    rw [Network.isBound_withBinding, fresh]
    simp [Network.isBound, Network.find?]
  refine ⟨.empty threshold, ?_, fun e listed => .inl ((alone e).mp listed), ?_, fun _ _ => rfl, ?_⟩
  · refine ⟨⟨config.registrationEndpoint, s.network.serial, .registration⟩, ?_, rfl⟩
    simp [setNetwork, Network.find?, Network.withBinding, fresh]
  · intro e known
    cases known
  · intro p containers
    have none : Listing.initial.holders p = none := by
      unfold Listing.holders Listing.initial
      rw [PathMap.get?_insert]
      split <;> rfl
    simp [none]

/-! ## All servers -/

/-- However many servers join, and whatever they hold: each of them succeeds, and gives up just the
files whose places are occupied when it comes. In the end each holds its other files as they were,
and no directories but those above them, and these are the files of the tree, each with the server
that holds it as its only copy. -/
theorem joining_keeps_files {config : NamingConfig} {naming : NamingServer}
    (created : NamingServer.create config = .ok naming) (fresh : s.network = {})
    (started : ({ naming, servers := s } : Cluster).start = .ok c) (distinct : names.Nodup)
    (ready : ∀ name ∈ names, Ready s config.registrationEndpoint name) :
    let joined := fun names => c.startServers config.registrationEndpoint names
    (∀ before name after, names = before ++ name :: after →
      ∃ duplicates, ((joined before).startServer name config.registrationEndpoint).1 =
          .ok ⟨name, duplicates⟩ ∧ duplicates.Nodup ∧
        (∀ p, p ∈ duplicates ↔ s.content name p ≠ none ∧ (joined before).tree.Occupied p) ∧
        (∀ p, (joined names).servers.content name p =
          if p ∈ duplicates then none else s.content name p) ∧
        ∀ q, (joined names).servers.hasDirectory name q = true ↔ q ≠ .root ∧
          ∃ p, (joined names).servers.content name p ≠ none ∧ q ∈ p.ancestors) ∧
    (∀ p containers, (joined names).tree.holders p = some containers ↔
      ∃ name ∈ names, (joined names).servers.content name p ≠ none ∧
        containers = [.bound name]) ∧
    ∀ p, ∀ name ∈ names, ∀ other ∈ names, (joined names).servers.content name p ≠ none →
      (joined names).servers.content other p ≠ none → name = other := by
  intro joined
  have first := joined_start created fresh started
  obtain ⟨l, all, -⟩ := first.startServers names distinct ready
  refine ⟨fun before name after split => ?_, fun p containers => ?_, ?_⟩
  · subst split
    obtain ⟨l₁, store, kept, runs, joined₁, started, final, keeps⟩ :=
      first.startServers_at distinct ready
    refine ⟨store.files.keys.filter l₁.isOccupied, started, store.files.nodup_keys.filter _,
      fun p => ?_, fun p => ?_, fun q => ?_⟩
    · rw [List.mem_filter, PathMap.mem_keys, ← Option.ne_none_iff_exists', runs.content,
        joined₁.shows.occupied]
    · rw [final.content, runs.content, keeps.files]
    · rw [hasDirectory, final.memory?, Option.any_some, keeps.directories]
      simp only [joined, final.content, PathMap.contains, Option.isSome_iff_ne_none]
  · rw [all.shows.holders]
    exact all.holders p containers
  · intro p name member other member' here there
    have held := (all.holders p _).mpr ⟨name, member, here, rfl⟩
    have held' := (all.holders p _).mpr ⟨other, member', there, rfl⟩
    have same : [Container.bound name] = [Container.bound other] :=
      Option.some.inj (held.symm.trans held')
    have same := congrArg Container.storage (List.head_eq_of_cons_eq same)
    exact storageEndpoint_inj (Handle.remote.inj same)

def pairFresh : Servers :=
  { servers := [("s", { backend := .memory (MemoryStore.receive {} .sole [1]).2 }),
      ("t", { backend := .memory (MemoryStore.receive {} .sole [2]).2 })] }

theorem ready_pairFresh (name : String) (member : name ∈ ["s", "t"]) :
    Ready pairFresh "naming.registration" name := by
  have apart : ∀ name ∈ ["s", "t"], "naming.registration" ≠ storageEndpoint name ∧
      "naming.registration" ≠ commandEndpoint name := by decide
  refine ⟨(MemoryStore.receive {} .sole (if name = "s" then [1] else [2])).2, ?_,
    .receive .empty _ _, not_or.mpr (apart name member)⟩
  simp only [List.mem_cons, List.not_mem_nil, or_false] at member
  rcases member with rfl | rfl <;> rfl

theorem pairFresh_joins : ∃ c,
    ({ naming := { catalog := .empty 20 }, servers := pairFresh } : Cluster).start = .ok c ∧
      (c.startServers "naming.registration" ["s", "t"]).servers.content "s" .sole = some [1] ∧
      (c.startServers "naming.registration" ["s", "t"]).servers.content "t" .sole = none ∧
      (c.startServers "naming.registration" ["s", "t"]).tree.holders .sole =
        some [.bound "s"] := by
  obtain ⟨c, started⟩ : ∃ c,
      ({ naming := { catalog := .empty 20 }, servers := pairFresh } : Cluster).start = .ok c :=
    ⟨_, rfl⟩
  have created : NamingServer.create {} = .ok { catalog := .empty 20 } := rfl
  have empty : ¬ c.tree.Occupied .sole := by
    rw [(joined_start created rfl started).shows.occupied]
    decide
  obtain ⟨each, held, alone⟩ := joining_keeps_files created rfl started (by decide) ready_pairFresh
  obtain ⟨duplicates, -, -, reported, contents, -⟩ := each [] "s" ["t"] rfl
  have kept := contents .sole
  rw [if_neg fun member => empty ((reported .sole).mp member).2] at kept
  have there : pairFresh.content "s" .sole = some [1] := rfl
  have first := kept.trans there
  refine ⟨c, started, first, ?_, (held .sole _).mpr ⟨"s", by simp, ?_, rfl⟩⟩
  · by_contra second
    have same := alone .sole "s" (by simp) "t" (by simp) (by simp [first]) second
    exact absurd same (by decide)
  · simp [first]

end Cluster

end DistFs
