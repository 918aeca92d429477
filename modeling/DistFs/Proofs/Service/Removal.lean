import DistFs.Proofs.Service.Availability
import DistFs.Proofs.Service.Joining
import DistFs.Proofs.Service.Writers
import DistFs.Proofs.Tree.Search
import DistFs.Proofs.Wire.Commands

namespace DistFs

namespace Container

variable {d : Container} {name other : String}

/-- The handles of a container are the server's own: the server itself, or its own endpoints. -/
def Of (d : Container) (name : String) : Prop := d.endpoints = (own name).endpoints

theorem Of.unique (h : d.Of name) (h' : d.Of other) : name = other :=
  storageEndpoint_inj (congrArg Prod.fst (h.symm.trans h'))

end Container

namespace Network

variable {net net' : Network} {d : Container} {name other : String}

/-- Nobody but the server itself answers at the command endpoint of a server. -/
def Honest (net : Network) : Prop :=
  ∀ name other, net.Serves .command (commandEndpoint name) other → other = name

theorem Honest.congr (same : net'.bindings = net.bindings) (honest : net.Honest) : net'.Honest :=
  fun name other serves => honest name other (serves.imp fun _ leads => leads.congr same.symm)

theorem Honest.reaches (honest : net.Honest) (of : d.Of name)
    (reaches : net.Commands d.command other) : other = name := by
  have same : d.command.commandEndpoint = commandEndpoint name := congrArg Prod.snd of
  cases command : d.command with
  | direct server =>
    rw [command] at same reaches
    exact reaches.symm.trans (commandEndpoint_inj same)
  | remote endpoint =>
    rw [command] at same reaches
    obtain rfl : endpoint = commandEndpoint name := same
    exact honest name other reaches

end Network

namespace Tree

variable {t : Tree} {m n : NodeId} {p : Path} {c : Container} {l : List Container}
  {name : String}

/-! ## What is listed for a path -/

def Copied (t : Tree) (p : Path) (name : String) : Prop :=
  ∃ m d, t.Attached m ∧ (t.node m).path.isUnder p = true ∧ d ∈ (t.node m).replicas ∧ d.Of name

structure Lists (t : Tree) (p : Path) (l : List Container) : Prop where
  listed : t.containersUnder p = .ok l
  available : ∀ d ∈ l, t.Available d
  exact : ∀ name, t.Copied p name ↔ ∃ d ∈ l, d.Of name

theorem lists_of_found (wf : t.WellFormed) (furnished : t.Furnished) (found : t.find? p = some n) :
    ∃ l, t.Lists p l := by
  have listed := containersUnder_of_found found
  have isIn := fun d => isIn_containersUnder wf (c := d) found listed
  refine ⟨_, listed, fun d member => ?_, fun name => ⟨?_, ?_⟩⟩
  · obtain ⟨m, there, -, copy⟩ := (isIn d).mp (Container.isIn_iff.mpr ⟨d, member, rfl⟩)
    obtain ⟨e, member, same⟩ := Container.isIn_iff.mp copy
    exact .inr ⟨m, there, Container.isIn_iff.mpr ⟨e, (furnished m).mem_keeps member, same⟩⟩
  · rintro ⟨m, d, there, under, copy, of⟩
    obtain ⟨e, member, same⟩ := Container.isIn_iff.mp
      ((isIn d).mpr ⟨m, there, under, Container.isIn_iff.mpr ⟨d, copy, rfl⟩⟩)
    exact ⟨e, member, same.trans of⟩
  · rintro ⟨d, member, of⟩
    obtain ⟨m, there, under, copy⟩ := (isIn d).mp (Container.isIn_iff.mpr ⟨d, member, rfl⟩)
    obtain ⟨e, member, same⟩ := Container.isIn_iff.mp copy
    exact ⟨m, e, there, under, member, same.trans of⟩

end Tree

namespace Servers

variable {s s' s'' : Servers} {p : Path} {l : List Container} {d : Container} {h : Handle}
  {name : String}

/-! ## Telling one server after the other -/

theorem Works.echoed (echoes : s.Echoes s') (works : s.Works h) : s'.Works h := by
  obtain ⟨name, server, reaches, found, working⟩ := works
  obtain ⟨server', found', same⟩ : ∃ server', s'.find? name = some server' ∧
      server'.commands = server.commands := by simpa [found] using echoes.states name
  exact ⟨name, server', reaches.congr echoes.bindings, found', same.trans working⟩

structure Stripped (s : Servers) (p : Path) (l : List Container) (s' : Servers) : Prop where
  echoes : s.Echoes s'
  stores : s'.InStores
  entries : ∀ name q, s'.entryOn name q = s.entryOn name q ∨
    q.isUnder p = true ∧ (∃ d ∈ l, d.Of name) ∧ s'.entryOn name q = none

theorem Stripped.outside {q : Path} (h : Stripped s p l s') (name : String)
    (outside : q.isUnder p = false) : s'.entryOn name q = s.entryOn name q := by
  rcases h.entries name q with same | ⟨under, -⟩
  · exact same
  · rw [outside] at under
    cases under

theorem Stripped.others (h : Stripped s p l s') (other : ¬ ∃ d ∈ l, d.Of name) (q : Path) :
    s'.entryOn name q = s.entryOn name q := by
  rcases h.entries name q with same | ⟨-, listed, -⟩
  · exact same
  · exact absurd listed other

theorem Stripped.stays {q : Path} (h : Stripped s p l s') (gone : s.entryOn name q = none) :
    s'.entryOn name q = none := by
  rcases h.entries name q with same | ⟨-, -, gone⟩
  · exact same.trans gone
  · exact gone

theorem Stripped.cons (h : Stripped s p [d] s') (h' : Stripped s' p l s'') :
    Stripped s p (d :: l) s'' := by
  refine ⟨h.echoes.trans h'.echoes, h'.stores, fun name q => ?_⟩
  rcases h'.entries name q with same | ⟨under, ⟨e, member, of⟩, gone⟩
  · rw [same]
    exact (h.entries name q).imp_right fun ⟨under, ⟨e, member, of⟩, gone⟩ =>
      ⟨under, ⟨e, List.mem_cons.mpr (.inl (List.mem_singleton.mp member)), of⟩, gone⟩
  · exact .inr ⟨under, ⟨e, List.mem_cons_of_mem d member, of⟩, gone⟩

theorem delete_stripped (stores : s.InStores) (honest : s.network.Honest) (below : p ≠ .root)
    (of : d.Of name) : Stripped s p [d] (s.delete d.command p).2 := by
  by_cases works : s.Works d.command
  · refine ⟨(delete_sent stores d.command p).echoes, delete_inStores stores d.command p,
      fun other q => ?_⟩
    obtain ⟨name', server, reaches, -⟩ := id works
    obtain rfl := honest.reaches of reaches
    rw [(delete_works stores below works reaches).2]
    split
    next here => exact .inr ⟨here.2, ⟨d, List.mem_singleton_self d, here.1 ▸ of⟩, rfl⟩
    next => exact .inl rfl
  · have untouched := delete_idle stores works p
    exact ⟨untouched.echoes, untouched.inStores stores,
      fun other q => .inl (untouched.entryOn other q)⟩

theorem deleteOnAll_stripped (stores : s.InStores) (honest : s.network.Honest) (below : p ≠ .root)
    (hosted : ∀ d ∈ l, ∃ name, d.Of name) : Stripped s p l (Cluster.deleteOnAll p l s).2 := by
  induction l generalizing s with
  | nil => exact ⟨.refl s, stores, fun _ _ => .inl rfl⟩
  | cons d rest ih =>
    obtain ⟨name, of⟩ := hosted d List.mem_cons_self
    have first := delete_stripped stores honest below of
    have later := ih first.stores (honest.congr first.echoes.bindings)
      fun e member => hosted e (List.mem_cons_of_mem d member)
    rw [Cluster.deleteOnAll]
    cases answer : s.delete d.command p with
    | mk result s' =>
      rw [answer] at first later
      cases result with
      | ok done => exact first.cons later
      | error e => exact first.cons ⟨.refl s', first.stores, fun _ _ => .inl rfl⟩

theorem deleteOnAll_works (stores : s.InStores) (honest : s.network.Honest) (below : p ≠ .root)
    (hosted : ∀ d ∈ l, ∃ name, d.Of name) (works : ∀ d ∈ l, s.Works d.command) :
    (Cluster.deleteOnAll p l s).1 = .ok () ∧ ∀ d ∈ l, ∀ name, d.Of name → ∀ q, q.isUnder p = true →
      (Cluster.deleteOnAll p l s).2.entryOn name q = none := by
  induction l generalizing s with
  | nil => exact ⟨rfl, nofun⟩
  | cons d rest ih =>
    obtain ⟨name, of⟩ := hosted d List.mem_cons_self
    have first := delete_stripped stores honest below of
    have honest' := honest.congr first.echoes.bindings
    have hosted' := fun e member => hosted e (List.mem_cons_of_mem d member)
    have later := deleteOnAll_stripped first.stores honest' below hosted'
    have working := works d List.mem_cons_self
    obtain ⟨name', server, reaches, -⟩ := id working
    obtain rfl := honest.reaches of reaches
    obtain ⟨⟨done, answer⟩, entries⟩ := delete_works stores below working reaches
    obtain ⟨result, cleared⟩ := ih first.stores honest' hosted'
      fun e member => (works e (List.mem_cons_of_mem d member)).echoed first.echoes
    have split : Cluster.deleteOnAll p (d :: rest) s =
        Cluster.deleteOnAll p rest (s.delete d.command p).2 := by
      rw [Cluster.deleteOnAll, ← Prod.eta (s.delete d.command p), answer]
    rw [split]
    refine ⟨result, fun e member name of' q under => ?_⟩
    rcases List.mem_cons.mp member with rfl | member
    · obtain rfl := of.unique of'
      exact later.stays (by rw [entries, if_pos ⟨rfl, under⟩])
    · exact cleared e member name of' q under

def firstError (s : Servers) (p : Path) (l : List Container) : Option Error :=
  l.findSome? fun d =>
    match (s.delete d.command p).1 with
    | .error e => some e
    | .ok _ => none

theorem firstError_congr (stores : s.InStores) (stores' : s'.InStores) (echoes : s.Echoes s')
    (p : Path) (l : List Container) : s'.firstError p l = s.firstError p l := by
  unfold firstError
  congr 1
  funext d
  have same := delete_error_iff (h := d.command) (p := p) stores stores' echoes
  cases before : (s.delete d.command p).1 <;> cases after : (s'.delete d.command p).1 <;>
    simp_all

theorem deleteOnAll_answer (stores : s.InStores) (p : Path) (l : List Container) :
    (Cluster.deleteOnAll p l s).1 = match s.firstError p l with
      | some e => .error e
      | none => .ok () := by
  induction l generalizing s with
  | nil => rfl
  | cons d rest ih =>
    have stores' := delete_inStores stores d.command p
    have echoes := (delete_sent stores d.command p).echoes
    have later := ih stores'
    rw [firstError_congr stores stores' echoes] at later
    rw [Cluster.deleteOnAll, firstError, List.findSome?_cons]
    cases answer : s.delete d.command p with
    | mk result s' =>
      rw [answer] at later
      cases result with
      | error e => rfl
      | ok done => exact later

/-! ## Servers that work again -/

theorem find?_setMode (s : Servers) (name : String) (commands : Option CommandMode)
    (data : Option Bool) (other : String) :
    (s.setMode name commands data).find? other = (s.find? other).map fun server =>
      if other = name then { server with
        commands := commands.getD server.commands, dataWorks := data.getD server.dataWorks }
      else server := by
  unfold setMode
  cases found : s.find? name with
  | none =>
    by_cases same : other = name
    · simp [same, found]
    · simp [same]
  | some server =>
    simp only
    rw [find?_set found]
    by_cases same : other = name
    · simp [same, found]
    · simp [same]

theorem network_setMode (s : Servers) (name : String) (commands : Option CommandMode)
    (data : Option Bool) : (s.setMode name commands data).network = s.network := by
  unfold setMode
  split <;> rfl

theorem works_setMode (reaches : s.network.Commands h name) (there : (s.find? name).isSome = true) :
    (s.setMode name (some .working) none).Works h := by
  obtain ⟨server, found⟩ := Option.isSome_iff_exists.mp there
  refine ⟨name, { server with commands := .working }, ?_, ?_, rfl⟩
  · rwa [network_setMode]
  · rw [find?_setMode, found, Option.map_some, if_pos rfl]
    rfl

theorem Works.setMode (works : s.Works h) (name : String) :
    (s.setMode name (some .working) none).Works h := by
  obtain ⟨other, server, reaches, found, working⟩ := works
  by_cases same : other = name
  · exact works_setMode (same ▸ reaches) (by rw [← same, found]; rfl)
  · refine ⟨other, server, by rwa [network_setMode], ?_, working⟩
    rw [find?_setMode, found, Option.map_some, if_neg same]

theorem InStores.setMode (stores : s.InStores) (name : String) (commands : Option CommandMode)
    (data : Option Bool) : (s.setMode name commands data).InStores := by
  intro other server there
  rw [find?_setMode] at there
  obtain ⟨before, found, rfl⟩ := Option.map_eq_some_iff.mp there
  obtain ⟨store, memory, built⟩ := stores other before found
  exact ⟨store, by split <;> exact memory, built⟩

theorem entryOn_setMode (s : Servers) (name : String) (commands : Option CommandMode)
    (data : Option Bool) (other : String) (q : Path) :
    (s.setMode name commands data).entryOn other q = s.entryOn other q := by
  unfold entryOn memory?
  rw [find?_setMode]
  cases s.find? other with
  | none => rfl
  | some server =>
    obtain ⟨backend, mode, dataWorks⟩ := server
    by_cases same : other = name
    · simp only [Option.map_some, if_pos same]
      cases backend <;> rfl
    · simp only [Option.map_some, if_neg same]

end Servers

namespace Cluster

variable {c : Cluster} {p : Path} {n : NodeId} {l : List Container} {servers : Servers}

/-! ## The request -/

theorem delete_answer (stores : c.servers.InStores) (below : p ≠ .root)
    (found : c.tree.find? p = some n) (listed : c.tree.containersUnder p = .ok l) :
    c.delete p = match c.servers.firstError p l with
      | some e => (.error e, { c with servers := (deleteOnAll p l c.servers).2 })
      | none => (.ok true, c.setTree (c.tree.unlink n) (deleteOnAll p l c.servers).2) := by
  have answer := Servers.deleteOnAll_answer stores p l
  have branch : p.isRoot ≠ true := fun root => below (Path.isRoot_iff.mp root)
  have removed : c.tree.remove p = (true, c.tree.unlink n) := by
    rw [Tree.remove_eq, if_neg branch, found]
  unfold delete
  rw [if_neg branch, listed]
  simp only [removed]
  cases outcome : deleteOnAll p l c.servers with
  | mk result servers =>
    rw [outcome] at answer
    cases failed : c.servers.firstError p l with
    | some e =>
      rw [failed] at answer
      obtain rfl : result = .error e := answer
      rfl
    | none =>
      rw [failed] at answer
      obtain rfl : result = .ok () := answer
      rfl

/-- The path is gone, from the tree and from the servers with a copy of a file at or below it.
Everything else is as it was. -/
structure Removed (c : Cluster) (p : Path) (c' : Cluster) : Prop where
  find? : ∀ q, c'.tree.find? q = if q.isUnder p then none else c.tree.find? q
  nodes : ∀ m, c.tree.find? p ≠ some m → c'.tree.node m = c.tree.node m
  cleared : ∀ name, c.tree.Copied p name → ∀ q, q.isUnder p = true →
    c'.servers.entryOn name q = none
  outside : ∀ name q, q.isUnder p = false → c'.servers.entryOn name q = c.servers.entryOn name q
  others : ∀ name, ¬ c.tree.Copied p name → ∀ q,
    c'.servers.entryOn name q = c.servers.entryOn name q
  rest : ∃ n, c.tree.find? p = some n ∧ c' = c.setTree (c.tree.unlink n) c'.servers

theorem delete_removed (tidy : c.Tidy) (stores : c.servers.InStores)
    (honest : c.servers.network.Honest) (below : p ≠ .root) (found : c.tree.find? p = some n)
    (lists : c.tree.Lists p l) (hosted : ∀ d ∈ l, ∃ name, d.Of name)
    (works : ∀ d ∈ l, c.servers.Works d.command) :
    (c.delete p).1 = .ok true ∧ c.Removed p (c.delete p).2 ∧
      c.servers.Echoes (c.delete p).2.servers := by
  have stripped := Servers.deleteOnAll_stripped stores honest below hosted
  obtain ⟨done, cleared⟩ := Servers.deleteOnAll_works stores honest below hosted works
  have answer := Servers.deleteOnAll_answer stores p l
  have result := delete_answer stores below found lists.listed
  have other : n ≠ Tree.rootId := by
    rintro rfl
    obtain ⟨-, path⟩ := (Tree.find?_eq_some_iff tidy.wellFormed).mp found
    exact below (path.symm.trans tidy.wellFormed.root_path)
  cases failed : c.servers.firstError p l with
  | some e =>
    rw [failed, done] at answer
    cases answer
  | none =>
    rw [failed] at result
    rw [result]
    refine ⟨rfl, ⟨Tree.find?_unlink tidy.wellFormed found other, fun m apart => ?_,
      fun name copied => ?_, fun name q => stripped.outside name, fun name apart => ?_,
      ⟨n, found, rfl⟩⟩, stripped.echoes⟩
    · rw [tree_setTree, Tree.node_unlink, if_neg]
      exact fun here => apart (here.1 ▸ found)
    · obtain ⟨d, member, of⟩ := (lists.exact name).mp copied
      exact cleared d member name of
    · exact stripped.others fun listed => apart ((lists.exact name).mpr listed)

theorem Removed.of_stripped {stripped : Servers}
    (before : Servers.Stripped c.servers p l stripped) (lists : c.tree.Lists p l)
    (same : ∀ name q, servers.entryOn name q = stripped.entryOn name q) {c' : Cluster}
    (removed : ({ c with servers } : Cluster).Removed p c') : c.Removed p c' := by
  refine ⟨removed.find?, removed.nodes, removed.cleared, fun name q outside => ?_,
    fun name other q => ?_, removed.rest⟩
  · rw [removed.outside name q outside]
    exact (same name q).trans (before.outside name outside)
  · rw [removed.others name other q]
    exact (same name q).trans
      (before.others (fun listed => other ((lists.exact name).mpr listed)) q)

end Cluster

namespace Service

variable {s : Service} {config : NamingConfig} {x : Container} {p : Path} {n : NodeId}

/-! ## Whose containers the tree knows -/

/-- Every server registers with the handles that are its own, or is refused. -/
def Houses (s : Service) : Event → Prop
  | .register d _ => (∃ name, d.Of name) ∨ d.endpoints.1 ∈ s.cluster.naming.registered ∨
      d.endpoints.2 ∈ s.cluster.naming.registered
  | _ => True

abbrev Housed (config : NamingConfig) : Service → Prop :=
  Reached (fun s e => s.Admits False e ∧ s.Houses e) config

namespace Housed

theorem requested (housed : Housed config s) : Requested config False s :=
  housed.mono fun _ _ may => may.1

theorem hosted (housed : Housed config s) (available : s.tree.Available x) :
    ∃ name, x.Of name := by
  induction housed with
  | start servers =>
    rcases available with pooled | ⟨n, -, kept⟩
    · cases pooled
    · have node : (Service.start config servers).tree.node n = default := Tree.node_empty ..
      rw [node] at kept
      cases kept
  | @next s before e may ih =>
    have tidy := (requested before).inOrder.tidy
    cases e with
    | register d files =>
      rcases may.2 with ⟨name, own⟩ | known
      · by_cases same : d.endpoints = x.endpoints
        · exact ⟨name, same.symm.trans own⟩
        · exact ih ((Cluster.available_register_other tidy files same).mp available)
      · change (s.cluster.register d files).2.tree.Available x at available
        rw [Cluster.register_known s.cluster files known] at available
        exact ih available
    | _ =>
      refine ih ((available_step tidy _ ?_).mp available).1
      rintro d files ⟨⟩

end Housed

/-- A request to remove a path is answered by the error of the first server that cannot be told, and
else by yes. If all servers do what they are told, the path is gone everywhere and nothing else is.
If one cannot be told, the tree and all that is not at or below the path are as they were, and once
all servers do what they are told the same request has its full effect. -/
theorem delete_everywhere (housed : Housed config s) (stores : s.cluster.servers.InStores)
    (honest : s.cluster.servers.network.Honest) (below : p ≠ .root)
    (found : s.tree.find? p = some n) :
    ∃ l, s.tree.Lists p l ∧
      ((s.cluster.delete p).1 = match s.cluster.servers.firstError p l with
        | some e => .error e
        | none => .ok true) ∧
      ((∀ d ∈ l, s.cluster.servers.Works d.command) → (s.cluster.delete p).1 = .ok true ∧
        s.cluster.Removed p (s.cluster.delete p).2 ∧
        s.cluster.servers.Echoes (s.cluster.delete p).2.servers) ∧
      ∀ e, s.cluster.servers.firstError p l = some e →
        (s.cluster.delete p).1 = .error e ∧ ∃ stripped : Servers,
          (s.cluster.delete p).2 = { s.cluster with servers := stripped } ∧
          s.cluster.servers.Stripped p l stripped ∧
          ∀ servers : Servers, servers.InStores → servers.network.Honest →
            (∀ name q, servers.entryOn name q = stripped.entryOn name q) →
            (∀ d ∈ l, servers.Works d.command) →
            (({ s.cluster with servers } : Cluster).delete p).1 = .ok true ∧
              s.cluster.Removed p (({ s.cluster with servers } : Cluster).delete p).2 := by
  have tidy := housed.requested.inOrder.tidy
  obtain ⟨l, lists⟩ := Tree.lists_of_found tidy.wellFormed tidy.furnished found
  have hosted := fun d member => housed.hosted (lists.available d member)
  have result := Cluster.delete_answer stores below found lists.listed
  refine ⟨l, lists, ?_, Cluster.delete_removed tidy stores honest below found lists hosted,
    fun e failed => ?_⟩
  · rw [result]
    cases s.cluster.servers.firstError p l <;> rfl
  have stripped := Servers.deleteOnAll_stripped stores honest below hosted
  rw [failed] at result
  refine ⟨by rw [result], _, by rw [result], stripped, fun servers stores' honest' same works => ?_⟩
  obtain ⟨done, removed, -⟩ := Cluster.delete_removed (c := { s.cluster with servers })
    (tidy.of_tree rfl) stores' honest' below found lists hosted works
  exact ⟨done, removed.of_stripped stripped lists same⟩

def splitServers : Servers :=
  { servers := [("s", { backend := .memory (({} : MemoryStore).create .sole).2 }),
      ("t", { backend := .memory (({} : MemoryStore).create .sole).2, commands := .failing })] }

theorem splitServers_inStores : splitServers.InStores := by
  intro name server found
  obtain ⟨entry, listed, rfl⟩ := Option.map_eq_some_iff.mp found
  have member := List.mem_of_find?_eq_some listed
  simp only [splitServers, List.mem_cons, List.not_mem_nil, or_false] at member
  rcases member with rfl | rfl
  · exact ⟨_, rfl, .create .empty _⟩
  · exact ⟨_, rfl, .create .empty _⟩

def pairSplit : Service := pairReady.run [.lock .sole .shared 0, .servers splitServers]

theorem housed_pairSplit : Housed { replicationThreshold := 1 } pairSplit := by
  have ready : Housed { replicationThreshold := 1 } pairReady :=
    Reached.run (.start pairServers)
      ⟨⟨trivial, .inl ⟨"s", rfl⟩⟩, ⟨trivial, .inl ⟨"t", rfl⟩⟩, trivial⟩
  have fresh : 0 ∉ pairReady.calls.tickets := by decide +kernel
  exact ready.run ⟨⟨fresh, trivial⟩, ⟨trivial, trivial⟩, trivial⟩

theorem containersUnder_pairSplit :
    pairSplit.tree.containersUnder .sole = .ok [.own "s", .own "t"] := by
  have found : pairSplit.tree.find? .sole = some 1 := by decide +kernel
  have childless : (List.range pairSplit.tree.size).filter (pairSplit.tree.lists 1) = [] := by
    decide +kernel
  have alone : pairSplit.tree.walk [1] = [1] := by simp [Tree.walk, Tree.children, childless]
  simp only [Tree.containersUnder, Tree.get, found, alone, Bind.bind, Except.bind]
  decide +kernel

theorem pairSplit_deleted_everywhere :
    let failed := pairSplit.cluster.delete .sole
    let servers := failed.2.servers.setMode "t" (some .working) none
    let again := ({ pairSplit.cluster with servers } : Cluster).delete .sole
    failed.1 = .error (Servers.unreachable (commandEndpoint "t")) ∧
      failed.2.tree.find? .sole = some 1 ∧
      again.1 = .ok true ∧ pairSplit.cluster.Removed .sole again.2 ∧
      again.2.servers.entryOn "t" .sole = none := by
  intro failed servers again
  have honest : pairSplit.cluster.servers.network.Honest := by
    rintro name other ⟨k, leads⟩
    cases leads with
    | arrive bound | forward bound => cases bound
  have found : pairSplit.tree.find? .sole = some 1 := by decide +kernel
  obtain ⟨l, lists, -, -, fails⟩ := delete_everywhere housed_pairSplit splitServers_inStores honest
    (p := .sole) (by decide) found
  obtain rfl : l = [.own "s", .own "t"] :=
    Except.ok.inj (lists.listed.symm.trans containersUnder_pairSplit)
  obtain ⟨answer, stripped, kept, before, retry⟩ :=
    fails (Servers.unreachable (commandEndpoint "t")) (by decide +kernel)
  obtain rfl : stripped = failed.2.servers := (congrArg Cluster.servers kept).symm
  have works : ∀ d ∈ [Container.own "s", Container.own "t"], servers.Works d.command := by
    intro d member
    rcases List.mem_pair.mp member with rfl | rfl
    · have first : splitServers.Works (.direct "s") := ⟨"s", _, rfl, rfl, rfl⟩
      exact (first.echoed before.echoes).setMode "t"
    · refine Servers.works_setMode rfl ?_
      have state := congrArg Option.isSome (before.echoes.states "t")
      rwa [Option.isSome_map, Option.isSome_map] at state
  obtain ⟨done, removed⟩ := retry servers (before.stores.setMode "t" (some .working) none)
    (honest.congr (by rw [Servers.network_setMode]; exact before.echoes.bindings))
    (fun name q => Servers.entryOn_setMode ..) works
  refine ⟨answer, ?_, done, removed, removed.cleared "t" ?_ .sole (Path.isUnder_refl _)⟩
  · rw [kept]
    exact found
  · exact (lists.exact "t").mpr ⟨.own "t", by simp, rfl⟩

end Service

end DistFs
