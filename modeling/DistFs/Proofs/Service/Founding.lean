import DistFs.Proofs.Service.Copying
import DistFs.Proofs.Service.Creation
import DistFs.Proofs.Service.Readers
import DistFs.Proofs.Service.Writers

namespace DistFs

open Container

namespace Cluster

variable {c : Cluster} {result : LockAnswer × Catalog}

theorem relisted_conclude (c : Cluster) (p : Path) (mode : LockMode)
    (same : result.2.tree = c.tree) (n : NodeId) :
    Relisted (c.tree.node n).replicas ((c.conclude p mode result).2.tree.node n).replicas := by
  rw [tree_conclude c p mode same]
  cases result.1 with
  | granted target =>
    cases mode with
    | shared => exact Tree.relisted_recordRead c.tree target n c.servers
    | exclusive => exact Tree.relisted_consolidate c.tree target n c.servers
  | waiting a => exact .same _
  | failed e => exact .same _

/-! ## New files -/

variable {d : Container} {p : Path} {t u v : Tree} {offer : Offer} {offers : List (Path × Offer)}
  {n : NodeId}

theorem Recording.founded (h : Recording d t p offer v) (wf : t.WellFormed) (new : t.size ≤ n)
    (file : (v.node n).isFile = true) :
    (v.node n).replicas = [d] ∧ (v.node n).path = p := by
  have known := Tree.known_of_isFile file
  cases h.grown wf with
  | inl same => exact absurd (same ▸ known) (Nat.not_lt.mpr new)
  | inr grown =>
    obtain ⟨-, m, x, -, made, node⟩ :=
      grown.new (wf.settleRoot d) known (by simpa [Tree.settleRoot] using new)
    rw [node] at file ⊢
    exact ⟨made.1.lives.2.1 file, made.2 file⟩

theorem Recorded.founded (h : Recorded d t offers u) (wf : t.WellFormed) (furnished : t.Furnished)
    (new : t.size ≤ n) (file : (u.node n).isFile = true) :
    (u.node n).replicas = [d] ∧ (u.node n).path ∈ offers.map Prod.fst := by
  induction h with
  | nil => exact absurd (Tree.known_of_isFile file) (Nat.not_lt.mpr new)
  | @cons t u v p offer offers first rest ih =>
    obtain ⟨-, wf', furnished', -⟩ := first.keeps wf
    cases Nat.lt_or_ge n v.size with
    | inl known =>
      have same := (rest.keeps wf' (furnished' furnished)).1.same n known
      rw [same.isFile] at file
      obtain ⟨replicas, path⟩ := first.founded wf new file
      exact ⟨(rest.replicas wf' known).trans replicas, by simp [same.path, path]⟩
    | inr later =>
      obtain ⟨replicas, path⟩ := ih wf' (furnished' furnished) later file
      exact ⟨replicas, List.mem_cons_of_mem _ path⟩

theorem isFile_createDirectory (c : Cluster) (p : Path) (new : c.tree.size ≤ n) :
    ((c.createDirectory p).2.tree.node n).isFile = false := by
  rw [Bool.eq_false_iff]
  intro file
  have known := Tree.known_of_isFile file
  rcases c.createDirectory_cases p with same | ⟨m, u, made, result⟩
  · rw [same] at known
    exact absurd known (Nat.not_lt.mpr new)
  · obtain ⟨m, x, added, inserted⟩ := Tree.add_eq_ok made
    have tree : (c.createDirectory p).2.tree = (c.tree.insert m x).2 := by
      rw [result, tree_setTree]
      exact (congrArg Prod.snd inserted).symm
    rw [tree, Tree.size_insert] at known
    obtain rfl : n = c.tree.size := Nat.le_antisymm (Nat.le_of_lt_succ known) new
    rw [tree, Tree.node_insert, if_pos rfl] at file
    simp [Node.isFile, added.kind_eq] at file

end Cluster

namespace Service

variable {s s' : Service} {config : NamingConfig} {strict : Prop} {n : NodeId}

/-- What makes a file: a container registers with it, or it is made in a container that has room. -/
inductive Founds (s : Service) (n : NodeId) (c : Container) : Service → Prop
  | registered {files : List Path}
      (offered : ((s.cluster.register c files).2.tree.node n).path ∈ files) :
      Founds s n c (s.setCluster (s.cluster.register c files).2)
  | created {p : Path} {m : NodeId} {pool : List Container} (vacant : s.cluster.Vacant p m)
      (places : s.tree.Places m c pool)
      (created : (s.cluster.servers.create c.command p).1 = .ok true)
      (here : ((s.cluster.createFile p).2.tree.node n).path = p) :
      Founds s n c (s.setCluster (s.cluster.createFile p).2)

theorem createFile_founds (distinct : Distinct s.tree.pool) (p : Path) (new : s.tree.size ≤ n)
    (file : ((s.cluster.createFile p).2.tree.node n).isFile = true) :
    ∃ c, Founds s n c (s.setCluster (s.cluster.createFile p).2) ∧
      ((s.cluster.createFile p).2.tree.node n).replicas = [c] := by
  have known := Tree.known_of_isFile file
  by_cases made : (s.cluster.createFile p).1 = .ok true
  · obtain ⟨m, c, pool, vacant, places, created, result⟩ := Cluster.createFile_eq_ok made
    have size : (s.cluster.createFile p).2.tree.size = s.tree.size + 1 := by
      rw [result]
      exact Tree.size_insert ..
    rw [size] at known
    obtain rfl : n = s.tree.size := Nat.le_antisymm (Nat.le_of_lt_succ known) new
    refine ⟨c, .created vacant places created ?_, ?_⟩ <;> rw [result]
    · exact congrArg Node.path ((Tree.node_insert ..).trans (if_pos rfl))
    · exact congrArg Node.replicas ((Tree.node_insert ..).trans (if_pos rfl))
  · obtain ⟨servers, kept, -⟩ := Cluster.createFile_ne_ok distinct made
    rw [kept] at known
    exact absurd known (Nat.not_lt.mpr new)

theorem register_founds (tidy : s.cluster.Tidy) (d : Container) (files : List Path)
    (new : s.tree.size ≤ n)
    (file : ((s.cluster.register d files).2.tree.node n).isFile = true) :
    ∃ c, Founds s n c (s.setCluster (s.cluster.register d files).2) ∧
      ((s.cluster.register d files).2.tree.node n).replicas = [c] := by
  by_cases known : d.endpoints.1 ∈ s.cluster.naming.registered ∨
      d.endpoints.2 ∈ s.cluster.naming.registered
  · rw [Cluster.register_known s.cluster files known] at file
    exact absurd (Tree.known_of_isFile file) (Nat.not_lt.mpr new)
  · obtain ⟨offers, u, recorded, paths, result⟩ :=
      Cluster.register_new tidy.wellFormed files known
    have node : (s.cluster.register d files).2.tree.node n = u.node n := by
      rw [result, Cluster.tree_setTree]
      split
      · rfl
      · obtain ⟨pool, added⟩ := Tree.addToPool_eq u d
        rw [added]
        rfl
    rw [node] at file
    obtain ⟨replicas, path⟩ := recorded.founded tidy.wellFormed tidy.furnished new file
    exact ⟨d, .registered (by rwa [node, ← paths]), by rw [node, replicas]⟩

theorem founds_step (tidy : s.cluster.Tidy) (distinct : Distinct s.tree.pool) (e : Event)
    (new : s.tree.size ≤ n) (file : ((s.step e).tree.node n).isFile = true) :
    ∃ c, Founds s n c (s.step e) ∧ ((s.step e).tree.node n).replicas = [c] := by
  have grown (same : (s.step e).tree.size = s.tree.size) : False :=
    absurd (same ▸ Tree.known_of_isFile file) (Nat.not_lt.mpr new)
  cases e with
  | lock p mode ticket =>
    change (s.cluster.lock p mode ticket).2.tree.size = s.tree.size → False at grown
    rcases s.cluster.lock_cases p mode ticket with same | same <;> rw [same] at grown
    · exact absurd rfl grown
    · exact absurd (tidy.size_conclude p mode (Catalog.tree_lock ..)) grown
  | resume call => exact absurd (tidy.size_conclude _ _ (Catalog.tree_resume ..)) grown
  | abandon call => exact absurd (congrArg Tree.size (tree_abandon s call)) grown
  | unlock p mode => exact absurd (congrArg Tree.size (tree_unlock s p mode)) grown
  | createFile p => exact createFile_founds distinct p new file
  | createDirectory p =>
    have directory := s.cluster.isFile_createDirectory p new
    exact absurd (directory.symm.trans file) Bool.false_ne_true
  | delete p =>
    have deleting := Cluster.delete_deleting tidy.wellFormed p
    change (s.cluster.delete p).2.tree.size = s.tree.size → False at grown
    generalize s.cluster.delete p = result at deleting grown
    cases deleting with
    | nothing | failed => exact absurd rfl grown
    | removed => exact absurd (Tree.size_modify ..) grown
  | storageOf p =>
    change (s.cluster.storageOf p).2.tree.size = s.tree.size → False at grown
    rcases Cluster.storageOf_cases s.cluster p with same | ⟨m, turn, result⟩
    · exact absurd (congrArg (·.tree.size) same) grown
    · rw [result] at grown
      exact absurd (Tree.size_modify ..) grown
  | register d files => exact register_founds tidy d files new file
  | servers servers => exact absurd rfl grown
  | start => exact absurd (congrArg Tree.size (tree_start s)) grown
  | stop => exact absurd (congrArg Tree.size (tree_stop s)) grown

/-! ## Old files -/

theorem Request.relisted (request : Request strict s s') (tidy : s.cluster.Tidy)
    (known : n < s.tree.size) : Relisted (s.tree.node n).replicas (s'.tree.node n).replicas := by
  cases request.effect tidy with
  | lock p mode fresh =>
    rcases s.lock_cases p mode _ with same | same <;> rw [same]
    · exact .same _
    · exact s.cluster.relisted_conclude p mode (Catalog.tree_lock ..) n
  | resume member => exact s.cluster.relisted_conclude _ _ (Catalog.tree_resume ..) n
  | unlock p mode owned =>
    rw [tree_unlock]
    exact .same _
  | @lockFree c free =>
    change Relisted _ (c.tree.node n).replicas
    rw [free.replicas n known]
    exact .same _
  | stop =>
    rw [tree_stop]
    exact .same _

theorem listed_later (later : Relation.ReflTransGen (Request strict) s s') (h : s.InOrder strict)
    (known : n < s.tree.size) :
    s'.InOrder strict ∧ n < s'.tree.size ∧ (s'.tree.node n).isFile = (s.tree.node n).isFile ∧
      (s'.tree.node n).replicas.head? = (s.tree.node n).replicas.head? ∧
      (Distinct (s.tree.node n).replicas → Distinct (s'.tree.node n).replicas) := by
  induction later with
  | refl => exact ⟨h, known, rfl, rfl, id⟩
  | tail _ request ih =>
    obtain ⟨h', known', file, head, distinct⟩ := ih
    have extended := (request.strands h').extended
    have relisted := request.relisted h'.tidy known'
    exact ⟨h'.request request, extended.known known',
      (extended.same n known').isFile.trans file, relisted.head?.trans head,
      fun before => relisted.distinct (distinct before)⟩

def Founded (config : NamingConfig) (s : Service) (n : NodeId) (c : Container) : Prop :=
  ∃ before after, Requested config False before ∧ Request False before after ∧
    before.tree.size ≤ n ∧ Founds before n c after ∧ (after.tree.node n).replicas = [c] ∧
    Relation.ReflTransGen (Request False) after s ∧
    ∀ u, Relation.ReflTransGen (Request False) after u →
      (u.tree.node n).isFile = true ∧ (u.tree.node n).replicas.head? = some c

theorem Requested.founded (requested : Requested config False s)
    (file : (s.tree.node n).isFile = true) :
    Distinct (s.tree.node n).replicas ∧ ∃ c, Founded config s n c := by
  induction requested with
  | start servers =>
    have node : (Service.start config servers).tree.node n = default := Tree.node_empty ..
    rw [node] at file
    cases file
  | @next before requested e admitted ih =>
    have requested : Requested config False before := requested
    have request : Request False before _ := ⟨admitted⟩
    have h := requested.inOrder
    have h' := h.request request
    cases Nat.lt_or_ge n before.tree.size with
    | inl known =>
      have same := ((request.strands h).extended.same n known).isFile
      obtain ⟨distinct, c, first, second, start, made, new, founds, alone, later, always⟩ :=
        ih (same.symm.trans file)
      exact ⟨(request.relisted h.tidy known).distinct distinct, c, first, second, start, made, new,
        founds, alone, later.tail request, always⟩
    | inr new =>
      obtain ⟨c, founds, alone⟩ := founds_step h.tidy requested.distinct e new file
      refine ⟨by rw [alone]; exact distinct_singleton c, c, before, _, requested, request, new,
        founds, alone, .refl, fun u later => ?_⟩
      obtain ⟨-, -, same, head, -⟩ := listed_later later h' (Tree.known_of_isFile file)
      exact ⟨same.trans file, by rw [head, alone, List.head?_cons]⟩

/-! ## Pointing clients to a copy -/

theorem storageOf_file {c : Cluster} {p : Path} (found : c.tree.find? p = some n)
    (file : (c.tree.node n).isFile = true) (some_copy : (c.tree.node n).replicas ≠ []) :
    ∃ d, (c.tree.node n).replicas[(c.tree.node n).nextRead.toNat %
        (c.tree.node n).replicas.length]? = some d ∧
      (c.storageOf p).1 = .ok d.storage := by
  have turn : (c.tree.node n).nextRead.toNat % (c.tree.node n).replicas.length <
      (c.tree.node n).replicas.length := Nat.mod_lt _ (List.length_pos_of_ne_nil some_copy)
  have here := List.getElem?_eq_getElem turn
  exact ⟨_, here, by rw [Cluster.storageOf_eq found file here]⟩

/-- The copies of a file are in as many containers, and the first of them is in the one that the
file was made in or registered with, in the tree or out of it, for as long as the server runs.
Directories have no copies. So whoever asks for a file is pointed to a copy, and is only told that
there is none if the path is not there. -/
theorem replica_lists_sane (requested : Requested config False s) :
    (∀ n, (s.tree.node n).isFile = false → (s.tree.node n).replicas = []) ∧
    (∀ n, (s.tree.node n).isFile = true → (s.tree.node n).replicas ≠ [] ∧
      Distinct (s.tree.node n).replicas ∧ ∃ c, Founded config s n c) ∧
    (∀ p n, s.tree.find? p = some n → (s.tree.node n).isFile = true →
      ∃ d, (s.tree.node n).replicas[(s.tree.node n).nextRead.toNat %
          (s.tree.node n).replicas.length]? = some d ∧
        (s.cluster.storageOf p).1 = .ok d.storage) ∧
    ∀ p, (s.cluster.storageOf p).1 = .error (.notFound p) ↔ s.tree.find? p = none := by
  have stocked (n : NodeId) (file : (s.tree.node n).isFile = true) :
      (s.tree.node n).replicas ≠ [] := by
    obtain ⟨-, c, before, after, -, -, -, -, -, later, always⟩ := requested.founded file
    have first := (always s later).2
    exact fun bare => by simp [bare] at first
  refine ⟨fun n directory => (requested.inOrder.furnished n).directory directory,
    fun n file => ⟨stocked n file, requested.founded file⟩,
    fun p n found file => storageOf_file found file (stocked n file), fun p => ?_⟩
  cases found : s.tree.find? p with
  | none => simp [Cluster.storageOf, Tree.get, found]
  | some n =>
    cases file : (s.tree.node n).isFile with
    | false => simp [Cluster.storageOf, Tree.get, found, file]
    | true =>
      obtain ⟨d, -, answer⟩ := storageOf_file found file (stocked n file)
      simp [answer]

theorem pairRemoved_lists_sane :
    let s := pairReady.run [.lock .sole .shared 0, .unlock .sole .shared, .delete .sole]
    (s.tree.node 1).replicas = [.own "s", .own "t"] ∧ Distinct (s.tree.node 1).replicas ∧
      Founded { replicationThreshold := 1 } s 1 (.own "s") ∧
      (s.cluster.storageOf .sole).1 = .error (.notFound .sole) := by
  intro s
  have ready : Requested { replicationThreshold := 1 } False pairReady :=
    Reached.run (.start pairServers) (by decide +kernel)
  have requested : Requested { replicationThreshold := 1 } False s := ready.run (by decide +kernel)
  obtain ⟨-, files, -, missing⟩ := replica_lists_sane requested
  have replicas : (s.tree.node 1).replicas = [.own "s", .own "t"] := by decide +kernel
  obtain ⟨-, distinct, c, founded⟩ := files 1 (by decide +kernel)
  have first : c = .own "s" := by
    obtain ⟨before, after, -, -, -, -, -, later, always⟩ := founded
    have head := (always s later).2
    rw [replicas] at head
    exact (Option.some.inj head).symm
  exact ⟨replicas, distinct, first ▸ founded, (missing .sole).mpr (by decide +kernel)⟩

end Service

end DistFs
