import DistFs.Proofs.Service.Run

namespace DistFs

namespace Tree

variable {t u : Tree} {m k : Nat} {p : Path} {d : Container} {pool : List Container}

def Stocked (t : Tree) : Prop := ∀ n, (t.node n).isFile = true → (t.node n).replicas ≠ []

theorem stocked_empty (threshold : Nat) : (empty threshold).Stocked := by
  intro n file
  rw [node_empty] at file
  cases file

namespace Stocked

theorem of_pool (h : t.Stocked) : ({ t with pool } : Tree).Stocked := h

theorem modify (h : t.Stocked) (k : Nat) {change : Node → Node}
    (stocked : ((t.node k).isFile = true → (t.node k).replicas ≠ []) →
      (change (t.node k)).isFile = true → (change (t.node k)).replicas ≠ []) :
    (t.modify k change).Stocked := by
  intro n
  rw [node_modify]
  split
  next same => exact same.1 ▸ stocked (h k)
  next => exact h n

theorem insert {x : Node} (h : t.Stocked) (stocked : x.isFile = true → x.replicas ≠ []) :
    (t.insert m x).2.Stocked := by
  intro n
  rw [node_insert]
  split
  · exact stocked
  · exact h n

theorem grown {container : Option Container} (h : t.Stocked)
    (grown : Grown t (Node.Made container p) u) : u.Stocked := by
  induction grown with
  | same => exact h
  | entry _ _ _ _ _ _ _ allowed ih =>
    refine ih.insert fun file => ?_
    cases allowed.1 with
    | directory q => cases file
    | file q lives => simp

theorem recorded {offers : List (Path × Cluster.Offer)} (h : t.Stocked) (wf : t.WellFormed)
    (recorded : Cluster.Recorded d t offers u) : u.Stocked := by
  induction recorded with
  | nil => exact h
  | cons first _ ih =>
    refine ih ?_ (first.keeps wf).2.1
    cases first.grown wf with
    | inl same => rwa [same]
    | inr grown => exact Stocked.grown (h.modify rootId id) grown

theorem reading {n : Nat} {s : Servers} {result : Option Container × Tree × Servers}
    (h : t.Stocked) (reading : t.Reading n s result) : result.2.1.Stocked := by
  have counted (reads : Nat) : (t.counted n reads).Stocked := h.modify n id
  cases reading with
  | directory => exact h
  | counted kind reads => exact counted reads
  | @refused source target rest fromPool u kind replicas taken refused =>
    obtain ⟨pool, same⟩ := taken.given_back
    simp only [same]
    exact (counted 0).of_pool
  | @copied source target rest fromPool u kind replicas taken copied =>
    obtain ⟨pool, rfl⟩ := taken.nodes
    exact (counted 0).of_pool.modify n fun _ _ => by simp

theorem consolidate (h : t.Stocked) (n : NodeId) (s : Servers) :
    (t.consolidate n s).2.1.Stocked := by
  rw [consolidate_tree]
  split
  · refine h.modify n fun stocked file => ?_
    have some_copy := stocked file
    simpa using some_copy
  · exact h

end Stocked

end Tree

namespace Cluster

variable {c c' : Cluster} {granted : List Call}

structure LockFree (c c' : Cluster) : Prop where
  catalog : c'.catalog = { c.catalog with tree := c'.tree }
  extended : c.tree.Extends c'.tree
  tidy : c'.Tidy
  replicas : ∀ n, n < c.tree.size → (c'.tree.node n).replicas = (c.tree.node n).replicas
  stocked : c.tree.Stocked → c'.tree.Stocked

namespace LockFree

theorem of_tree (tidy : c.Tidy) (same : c'.catalog = c.catalog) : c.LockFree c' := by
  have tree : c'.tree = c.tree := congrArg Catalog.tree same
  refine ⟨?_, ?_, tidy.of_tree tree, ?_, ?_⟩
  · rw [tree, same]
    rfl
  · rw [tree]
    exact .refl _
  · intro n _
    rw [tree]
  · rw [tree]
    exact id

theorem createFile (tidy : c.Tidy) (p : Path) : c.LockFree (c.createFile p).2 := by
  obtain ⟨grows, tidy'⟩ := tidy.createFile p
  have replicas n (known : n < c.tree.size) :=
    congrArg Node.replicas (node_createFile tidy p known)
  cases createFile_cases tidy.wellFormed tidy.furnished p with
  | inl same => exact same.symm ▸ of_tree tidy rfl
  | inr there =>
    obtain ⟨q, a, m, -, -, -, -, creating⟩ := there
    generalize c.createFile p = result at *
    cases creating with
    | unplaced => exact of_tree tidy rfl
    | @made e fromPool u taken created =>
      obtain ⟨pool, rfl⟩ := taken.nodes
      exact ⟨rfl, grows.toExtends, tidy', replicas, fun stocked =>
        stocked.of_pool.insert fun _ => by simp⟩
    | @refused e fromPool u taken refused =>
      obtain ⟨pool, left⟩ := taken.given_back
      refine ⟨rfl, grows.toExtends, tidy', replicas, fun stocked => ?_⟩
      rw [tree_setTree, left]
      exact stocked.of_pool

theorem createDirectory (tidy : c.Tidy) (p : Path) : c.LockFree (c.createDirectory p).2 := by
  obtain ⟨grows, tidy'⟩ := tidy.createDirectory p
  cases createDirectory_cases c p with
  | inl same => exact same.symm ▸ of_tree tidy rfl
  | inr made =>
    obtain ⟨n, u, made, result⟩ := made
    have replicas n (known : n < c.tree.size) :=
      congrArg Node.replicas (node_createDirectory tidy p known)
    rw [result] at grows tidy' replicas ⊢
    exact ⟨rfl, grows.toExtends, tidy', replicas, fun stocked =>
      stocked.grown (Tree.add_grown tidy.wellFormed made)⟩

theorem delete (tidy : c.Tidy) (p : Path) : c.LockFree (c.delete p).2 := by
  have tidy' := tidy.delete p
  have node := node_delete tidy p
  have deleting := delete_deleting tidy.wellFormed p
  generalize c.delete p = result at *
  cases deleting with
  | nothing => exact of_tree tidy rfl
  | failed => exact of_tree tidy rfl
  | @removed containers n found other listed done =>
    refine ⟨rfl, Tree.extends_unlink _ n, tidy', fun m _ => ?_, fun stocked =>
      stocked.modify n id⟩
    obtain ⟨linked, same⟩ := node m
    rw [same]

theorem storageOf (tidy : c.Tidy) (p : Path) : c.LockFree (c.storageOf p).2 := by
  obtain ⟨grows, tidy'⟩ := tidy.storageOf p
  cases storageOf_cases c p with
  | inl same => exact same.symm ▸ of_tree tidy rfl
  | inr turned =>
    obtain ⟨n, turn, result⟩ := turned
    rw [result] at grows tidy' ⊢
    refine ⟨rfl, grows.toExtends, tidy', fun m known => ?_, fun stocked => ?_⟩
    · rw [tree_setTree, Cluster.turned, Tree.node_modify]
      split <;> rfl
    · exact stocked.modify n id

theorem register (tidy : c.Tidy) (d : Container) (files : List Path) :
    c.LockFree (c.register d files).2 := by
  obtain ⟨grows, tidy'⟩ := tidy.register d files
  by_cases known : d.endpoints.1 ∈ c.naming.registered ∨ d.endpoints.2 ∈ c.naming.registered
  · rw [register_known c files known]
    exact of_tree tidy rfl
  · obtain ⟨offers, u, recorded, -, result⟩ := register_new tidy.wellFormed files known
    obtain ⟨pool, added⟩ := Tree.addToPool_eq u d
    have node n (known : n < c.tree.size) := node_register tidy d files known
    rw [result] at grows tidy' node ⊢
    refine ⟨rfl, grows.toExtends, tidy', fun n known => ?_, fun stocked => ?_⟩
    · obtain ⟨home, same⟩ := node n known
      rw [same]
    · have entered := stocked.recorded tidy.wellFormed recorded
      rw [tree_setTree]
      split
      · exact entered
      · rw [added]
        exact entered.of_pool

theorem alone (free : c.LockFree c')
    (known : ∀ call ∈ granted, call.acquisition.target < c.tree.size)
    (alone : Service.Alone c.tree granted) : Service.Alone c'.tree granted := by
  intro call member writer file
  have target := known call member
  rw [(free.extended.same _ target).isFile] at file
  rw [free.replicas _ target]
  exact alone call member writer file

end LockFree

end Cluster

end DistFs
