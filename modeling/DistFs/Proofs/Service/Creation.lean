import DistFs.Proofs.Service.ReadCount
import DistFs.Proofs.Service.Requests
import DistFs.Proofs.Wire.Commands
/-!
# Making a file, or nothing at all

A file is made where a directory has room for it, on one storage server that is chosen by fixed
rules and agrees to it. In every other case the request leaves no trace: a container that was taken
from the pool stands where it stood, because the pool never lists one twice.
-/

namespace DistFs

open Container

namespace Tree

variable {t u : Tree} {m : NodeId} {d : Container} {pool : List Container} {fromPool : Bool}

/-- Where a new file of a directory is put, and what that leaves of the pool: at the home of the
directory, or else with the oldest container in the pool, or else with the first that a walk
meets. -/
inductive Places (t : Tree) (m : NodeId) : Container → List Container → Prop
  | home {d : Container} (home : (t.node m).home = some d) : Places t m d t.pool
  | pooled {d : Container} {pool : List Container} (homeless : (t.node m).home = none)
      (oldest : t.pool = d :: pool) : Places t m d pool
  | met {d : Container} (homeless : (t.node m).home = none) (drained : t.pool = [])
      (first : t.met.head? = some d) : Places t m d t.pool

theorem Drawn.oldest (drawn : t.Drawn [] (some (d, fromPool), u)) :
    if fromPool then t.pool = d :: u.pool ∧ u = { t with pool := u.pool }
    else t.pool = [] ∧ t.met.head? = some d ∧ u = t := by
  cases drawn with
  | @pooled _ before after split passed =>
    have none : before = [] := List.eq_nil_iff_forall_not_mem.mpr fun c member => by
      cases passed c member
    subst none
    exact ⟨split, rfl⟩
  | met drained first =>
    have none : t.pool = [] := List.eq_nil_iff_forall_not_mem.mpr fun c member => by
      cases drained c member
    refine ⟨none, ?_, rfl⟩
    cases listed : t.met with
    | nil => simp [listed] at first
    | cons c rest => simpa [listed] using first

theorem placeFor_eq_some (placed : Cluster.placeFor t m = (some (d, fromPool), u)) :
    t.Places m d u.pool ∧ u = { t with pool := u.pool } ∧
      (Distinct t.pool → (if fromPool then u.returnToPool d else u) = t) := by
  unfold Cluster.placeFor at placed
  cases home : (t.node m).home with
  | some e =>
    simp only [home, Prod.mk.injEq, Option.some.injEq] at placed
    obtain ⟨⟨rfl, rfl⟩, rfl⟩ := placed
    exact ⟨.home home, rfl, fun _ => rfl⟩
  | none =>
    simp only [home] at placed
    have drawn := t.takeAvailable_drawn []
    rw [placed] at drawn
    have found := drawn.oldest
    cases fromPool with
    | false =>
      obtain ⟨drained, first, rfl⟩ := found
      exact ⟨.met home drained first, rfl, fun _ => rfl⟩
    | true =>
      obtain ⟨oldest, same⟩ := found
      refine ⟨.pooled home oldest, same, fun distinct => ?_⟩
      rw [if_pos rfl, pool_returnToPool, (drawn.distinct distinct).2 rfl, if_neg (by simp),
        ← oldest, same]

theorem Places.distinct (places : t.Places m d pool) (distinct : Distinct t.pool) :
    Distinct pool := by
  cases places with
  | home | met => exact distinct
  | pooled homeless oldest => exact (distinct_cons.mp (oldest ▸ distinct)).2

theorem Places.placeFor (places : t.Places m d pool) :
    ∃ fromPool, Cluster.placeFor t m = (some (d, fromPool), { t with pool }) := by
  unfold Cluster.placeFor
  cases places with
  | home home =>
    rw [home]
    exact ⟨false, rfl⟩
  | pooled homeless oldest =>
    rw [homeless]
    refine ⟨true, ?_⟩
    simp [takeAvailable, oldest]
  | met homeless drained first =>
    rw [homeless]
    refine ⟨false, ?_⟩
    obtain ⟨rest, listed⟩ := List.head?_eq_some_iff.mp first
    unfold Tree.met at listed
    simp [takeAvailable, drained, listed]
    exact congrArg (fun pool => ({ t with pool } : Tree)) drained

end Tree

namespace Cluster

variable {c : Cluster} {u : Tree} {m : NodeId} {p : Path} {d : Container}
  {pool : List Container} {fromPool : Bool}

structure Vacant (c : Cluster) (p : Path) (m : NodeId) : Prop where
  parent : ∃ q a, p = q.child a ∧ c.tree.find? q = some m
  directory : (c.tree.node m).isFile = false
  absent : c.tree.find? p = none
  known : c.naming.registered ≠ []

theorem createFile_vacant (c : Cluster) (p : Path) :
    (∃ m, c.Vacant p m) ∨ ∃ result, result ≠ .ok true ∧ c.createFile p = (result, c) := by
  rcases p.eq_root_or_child with rfl | ⟨q, a, rfl⟩
  · exact .inr ⟨.ok false, by simp, rfl⟩
  · cases found : c.tree.find? q with
    | none =>
      right
      refine ⟨.error (.notFound q), by simp, ?_⟩
      simp [createFile, creationParent_child, found]
    | some m =>
      cases directory : (c.tree.node m).isFile with
      | true =>
        right
        refine ⟨.error (.notADirectory q), by simp, ?_⟩
        simp [createFile, creationParent_child, found, directory]
      | false =>
        cases absent : c.tree.find? (q.child a) with
        | some n =>
          right
          refine ⟨.ok false, by simp, ?_⟩
          simp [createFile, creationParent_child, found, directory, Tree.contains, absent]
        | none =>
          by_cases known : c.naming.registered = []
          · right
            refine ⟨.error .noStorage, by simp, ?_⟩
            simp [createFile, creationParent_child, found, directory, Tree.contains, absent, known]
          · exact .inl ⟨m, ⟨q, a, rfl, found⟩, directory, absent, known⟩

theorem createFile_unplaced (vacant : c.Vacant p m) (unplaced : (placeFor c.tree m).1 = none) :
    c.createFile p = (.error .noStorage, c) := by
  obtain ⟨⟨q, a, rfl, found⟩, directory, absent, known⟩ := vacant
  cases placed : placeFor c.tree m with
  | mk choice u =>
    rw [placed] at unplaced
    obtain rfl : choice = none := unplaced
    simp [createFile, creationParent_child, found, directory, Tree.contains, absent, known, placed]

theorem createFile_placed (vacant : c.Vacant p m)
    (placed : placeFor c.tree m = (some (d, fromPool), u)) :
    c.createFile p =
      if (c.servers.create d.command p).1 = .ok true then
        (.ok true, c.setTree (u.insert m { path := p, kind := .file, replicas := [d] }).2
          (c.servers.create d.command p).2)
      else ((c.servers.create d.command p).1,
        c.setTree (if fromPool then u.returnToPool d else u) (c.servers.create d.command p).2) := by
  obtain ⟨⟨q, a, rfl, found⟩, directory, absent, known⟩ := vacant
  obtain ⟨-, same, -⟩ := Tree.placeFor_eq_some placed
  have added : u.add (q.child a) .file (some d) =
      .ok (u.insert m { path := q.child a, kind := .file, replicas := [d] }) := by
    rw [same]
    exact add_file (t := { c.tree with pool := u.pool }) found directory absent d
  simp only [createFile, creationParent_child, found, directory, Bool.false_eq_true, if_false,
    Tree.contains, absent, Option.isSome_none, known, placed]
  cases answer : c.servers.create d.command (q.child a) with
  | mk result servers =>
    cases result with
    | error e => simp
    | ok done =>
      cases done with
      | false => simp
      | true => simp [added]

structure Made (c : Cluster) (p : Path) (m : NodeId) (d : Container) (name : String)
    (c' : Cluster) : Prop where
  vacant : c.Vacant p m
  places : c.tree.Places m d c'.tree.pool
  tree : c'.tree = ({ c.tree with pool := c'.tree.pool }.insert m
    { path := p, kind := .file, replicas := [d] }).2
  found : ∀ q, c'.tree.find? q = if q = p then some c.tree.size else c.tree.find? q
  gains : c.servers.Gains d.command p name c'.servers
  rest : c' = c.setTree c'.tree c'.servers

theorem find?_made (tidy : c.Tidy) (vacant : c.Vacant p m) (x : Node) (path : x.path = p)
    (kind : x.kind = .file) (linked : x.linked = true) (q : Path) :
    (({ c.tree with pool } : Tree).insert m x).2.find? q =
      if q = p then some c.tree.size else c.tree.find? q := by
  obtain ⟨⟨r, a, rfl, found⟩, directory, absent, -⟩ := vacant
  obtain ⟨attached, here⟩ := (Tree.find?_eq_some_iff tidy.wellFormed).mp found
  have free : c.tree.child? m a = none := by simpa [Tree.find?_child, found] using absent
  have inserted := Tree.find?_insert tidy.wellFormed.of_pool (Tree.attached_pool.mpr attached)
    directory free (path.trans (congrArg (Path.child · a) here.symm)) (by simp [kind]) linked q
  rw [path] at inserted
  exact inserted

theorem createFile_eq_ok (made : (c.createFile p).1 = .ok true) :
    ∃ m d pool, c.Vacant p m ∧ c.tree.Places m d pool ∧
      (c.servers.create d.command p).1 = .ok true ∧
      (c.createFile p).2 = c.setTree ({ c.tree with pool }.insert m
        { path := p, kind := .file, replicas := [d] }).2 (c.servers.create d.command p).2 := by
  rcases createFile_vacant c p with ⟨m, vacant⟩ | ⟨result, refused, failed⟩
  · cases placed : placeFor c.tree m with
    | mk choice u =>
      cases choice with
      | none =>
        rw [createFile_unplaced vacant (by rw [placed])] at made
        cases made
      | some chosen =>
        obtain ⟨d, fromPool⟩ := chosen
        obtain ⟨places, same, -⟩ := Tree.placeFor_eq_some placed
        have outcome := createFile_placed vacant placed
        rw [outcome] at made
        split at made
        next created =>
          rw [if_pos created] at outcome
          refine ⟨m, d, u.pool, vacant, places, created, ?_⟩
          rw [outcome, ← same]
        next refused => exact absurd made refused
  · rw [failed] at made
    exact absurd made refused

theorem createFile_of_places (vacant : c.Vacant p m) (places : c.tree.Places m d pool)
    (created : (c.servers.create d.command p).1 = .ok true) : (c.createFile p).1 = .ok true := by
  obtain ⟨fromPool, placed⟩ := places.placeFor
  rw [createFile_placed vacant placed, if_pos created]

theorem createFile_ne_ok (distinct : Distinct c.tree.pool)
    (refused : (c.createFile p).1 ≠ .ok true) :
    ∃ servers, (c.createFile p).2 = { c with servers } ∧ (servers = c.servers ∨
      ∃ h, (c.servers.create h p).1 ≠ .ok true ∧ servers = (c.servers.create h p).2) := by
  rcases createFile_vacant c p with ⟨m, vacant⟩ | ⟨result, -, failed⟩
  · cases placed : placeFor c.tree m with
    | mk choice u =>
      cases choice with
      | none =>
        rw [createFile_unplaced vacant (by rw [placed])]
        exact ⟨c.servers, rfl, .inl rfl⟩
      | some chosen =>
        obtain ⟨d, fromPool⟩ := chosen
        obtain ⟨-, -, restored⟩ := Tree.placeFor_eq_some placed
        have outcome := createFile_placed vacant placed
        by_cases created : (c.servers.create d.command p).1 = .ok true
        · rw [outcome, if_pos created] at refused
          exact absurd rfl refused
        · rw [outcome, if_neg created, restored distinct]
          exact ⟨_, rfl, .inr ⟨d.command, created, rfl⟩⟩
  · rw [failed]
    exact ⟨c.servers, rfl, .inl rfl⟩

theorem createFile_untouched (distinct : Distinct c.tree.pool) (stores : c.servers.InStores)
    (refused : (c.createFile p).1 ≠ .ok true) :
    ∃ servers, (c.createFile p).2 = { c with servers } ∧ c.servers.Untouched servers := by
  obtain ⟨servers, kept, rfl | ⟨h, declined, rfl⟩⟩ := createFile_ne_ok distinct refused
  · exact ⟨c.servers, kept, (Servers.Alike.refl c.servers).untouched⟩
  · exact ⟨_, kept, Servers.create_untouched stores declined⟩

theorem createFile_made (tidy : c.Tidy) (stores : c.servers.InStores)
    (made : (c.createFile p).1 = .ok true) : ∃ m d name, c.Made p m d name (c.createFile p).2 := by
  obtain ⟨m, d, pool, vacant, places, created, result⟩ := createFile_eq_ok made
  obtain ⟨name, gains⟩ := Servers.create_gains stores created
  rw [result]
  exact ⟨m, d, name, vacant, places, rfl, find?_made tidy vacant _ rfl rfl rfl, gains, rfl⟩

end Cluster

/-! ## The pool never lists a container twice -/

namespace Tree

variable {t : Tree} {n : NodeId}

theorem distinct_recordRead (distinct : Distinct t.pool) (n : NodeId) (s : Servers) :
    Distinct (t.recordRead n s).2.1.pool := by
  cases file : (t.node n).isFile with
  | false =>
    simp only [recordRead, file, Bool.not_false, if_true]
    exact distinct
  | true =>
    cases Nat.lt_or_ge ((t.node n).reads + 1) t.threshold with
    | inl more =>
      rw [recordRead_counted file more]
      exact distinct
    | inr due =>
      rw [recordRead_attempted file due]
      exact (counted_attempt t n s).distinct distinct

theorem pool_consolidate (t : Tree) (n : NodeId) (s : Servers) :
    (t.consolidate n s).2.1.pool = t.pool := by
  rw [consolidate_tree]
  split <;> rfl

end Tree

namespace Cluster

variable {c : Cluster} {p : Path} {mode : LockMode} {result : LockAnswer × Catalog}

theorem distinct_conclude (distinct : Distinct c.tree.pool) (p : Path) (mode : LockMode)
    (same : result.2.tree = c.tree) : Distinct (c.conclude p mode result).2.tree.pool := by
  rw [tree_conclude c p mode same]
  cases result.1 with
  | granted target =>
    cases mode with
    | shared => exact Tree.distinct_recordRead distinct target c.servers
    | exclusive =>
      change Distinct (c.tree.consolidate target c.servers).2.1.pool
      rwa [Tree.pool_consolidate]
  | waiting a => exact distinct
  | failed e => exact distinct

theorem distinct_createFile (distinct : Distinct c.tree.pool) (p : Path) :
    Distinct (c.createFile p).2.tree.pool := by
  by_cases made : (c.createFile p).1 = .ok true
  · obtain ⟨m, d, pool, -, places, -, result⟩ := createFile_eq_ok made
    rw [result]
    exact places.distinct distinct
  · obtain ⟨servers, kept, -⟩ := createFile_ne_ok distinct made
    rw [kept]
    exact distinct

theorem distinct_register (tidy : c.Tidy) (distinct : Distinct c.tree.pool)
    (d : Container) (files : List Path) : Distinct (c.register d files).2.tree.pool := by
  by_cases known : d.endpoints.1 ∈ c.naming.registered ∨ d.endpoints.2 ∈ c.naming.registered
  · rwa [register_known c files known]
  · obtain ⟨offers, u, recorded, -, result⟩ := register_new tidy.wellFormed files known
    have pool := (recorded.keeps tidy.wellFormed tidy.furnished).2.2.2
    rw [result, tree_setTree]
    split
    · rwa [pool]
    · exact Tree.distinct_addToPool (by rwa [pool]) d

end Cluster

namespace Service

variable {s s' : Service} {config : NamingConfig} {strict : Prop}

theorem distinct_step (tidy : s.cluster.Tidy) (distinct : Distinct s.tree.pool) (e : Event) :
    Distinct (s.step e).tree.pool := by
  cases e with
  | lock p mode ticket =>
    change Distinct (s.cluster.lock p mode ticket).2.tree.pool
    rcases s.cluster.lock_cases p mode ticket with same | same <;> rw [same]
    · exact distinct
    · exact Cluster.distinct_conclude distinct p mode (Catalog.tree_lock ..)
  | resume call => exact Cluster.distinct_conclude distinct _ _ (Catalog.tree_resume ..)
  | abandon call => rwa [step, tree_abandon]
  | unlock p mode => rwa [step, tree_unlock]
  | createFile p => exact Cluster.distinct_createFile distinct p
  | createDirectory p =>
    change Distinct (s.cluster.createDirectory p).2.tree.pool
    rcases Cluster.createDirectory_cases s.cluster p with same | ⟨n, u, made, result⟩
    · rwa [same]
    · rw [result, Cluster.tree_setTree, (Tree.add_grown tidy.wellFormed made).pool]
      exact distinct
  | delete p =>
    have deleting := Cluster.delete_deleting tidy.wellFormed p
    change Distinct (s.cluster.delete p).2.tree.pool
    generalize s.cluster.delete p = result at deleting
    cases deleting with
    | nothing | failed | removed => exact distinct
  | storageOf p =>
    change Distinct (s.cluster.storageOf p).2.tree.pool
    rcases Cluster.storageOf_cases s.cluster p with same | ⟨n, turn, result⟩
    · rwa [same]
    · rw [result]
      exact distinct
  | register d files => exact Cluster.distinct_register tidy distinct d files
  | servers servers => exact distinct
  | start => rwa [tree_start]
  | stop => rwa [step, tree_stop]

theorem Requested.distinct (requested : Requested config strict s) : Distinct s.tree.pool := by
  induction requested with
  | start servers => exact distinct_nil
  | next before _ ih => exact distinct_step (Requested.inOrder before).tidy ih _

/-- A request for a file makes it, with all that belongs to it and nothing else, or it changes
neither the tree with its pool nor any server; and it makes the file exactly if there is room for it
and the server that is chosen agrees. -/
theorem create_all_or_nothing (requested : Requested config False s)
    (stores : s.cluster.servers.InStores) (p : Path) :
    ((s.cluster.createFile p).1 = .ok true →
      ∃ m d name, s.cluster.Made p m d name (s.cluster.createFile p).2) ∧
    ((s.cluster.createFile p).1 ≠ .ok true → ∃ servers,
      (s.cluster.createFile p).2 = { s.cluster with servers } ∧
      s.cluster.servers.Untouched servers) ∧
    ((s.cluster.createFile p).1 = .ok true ↔ ∃ m d pool, s.cluster.Vacant p m ∧
      s.tree.Places m d pool ∧ (s.cluster.servers.create d.command p).1 = .ok true) := by
  refine ⟨Cluster.createFile_made requested.inOrder.tidy stores,
    Cluster.createFile_untouched requested.distinct stores, fun made => ?_, ?_⟩
  · obtain ⟨m, d, pool, vacant, places, created, -⟩ := Cluster.createFile_eq_ok made
    exact ⟨m, d, pool, vacant, places, created⟩
  · rintro ⟨m, d, pool, vacant, places, created⟩
    exact Cluster.createFile_of_places vacant places created

theorem pairServers_inStores : pairServers.InStores := by
  intro name server found
  obtain ⟨entry, listed, rfl⟩ := Option.map_eq_some_iff.mp found
  have member := List.mem_of_find?_eq_some listed
  simp only [pairServers, List.mem_cons, List.not_mem_nil, or_false] at member
  rcases member with rfl | rfl
  · exact ⟨_, rfl, .put (s := {}) (p := .sole) (d := [1]) .empty rfl⟩
  · exact ⟨_, rfl, .empty⟩

/-- Both servers register without a file, although the first has one. -/
def pairIdle : Service :=
  (start { replicationThreshold := 1 } pairServers).run
    [.register (.own "s") [], .register (.own "t") []]

theorem pairIdle_all_or_nothing :
    let b := Path.child .root ⟨"b", by decide, by decide, by decide⟩
    ((∃ m d name, pairIdle.cluster.Made b m d name (pairIdle.cluster.createFile b).2) ∧
      (pairIdle.cluster.createFile b).2.tree.pool = [.own "t"] ∧
      (pairIdle.cluster.createFile b).2.servers.entryOn "s" b = some (.file [])) ∧
    (pairIdle.cluster.createFile .sole).1 = .ok false ∧
      (pairIdle.cluster.createFile .sole).2.tree.pool = [.own "s", .own "t"] ∧
      pairIdle.cluster.servers.Untouched (pairIdle.cluster.createFile .sole).2.servers := by
  have requested : Requested { replicationThreshold := 1 } False pairIdle :=
    Reached.run (.start pairServers) (by decide +kernel)
  have refused : (pairIdle.cluster.createFile .sole).1 = .ok false := by decide +kernel
  have pool : pairIdle.tree.pool = [.own "s", .own "t"] := by decide +kernel
  refine ⟨⟨?_, by decide +kernel, by decide +kernel⟩, refused, ?_⟩
  · exact (create_all_or_nothing requested pairServers_inStores _).1 (by decide +kernel)
  · obtain ⟨servers, kept, untouched⟩ := (create_all_or_nothing requested pairServers_inStores
      .sole).2.1 (by simp [refused])
    rw [kept]
    exact ⟨pool, untouched⟩

end Service

end DistFs
