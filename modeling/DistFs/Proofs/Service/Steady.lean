import DistFs.Proofs.Service.Backing
import DistFs.Proofs.Service.LockFree

namespace DistFs

namespace Cluster

variable {c c' : Cluster} {d : Container} {p q : Path} {a : Name} {m : Nat}

def Backed (c : Cluster) : Prop := c.tree.Backed c.servers c.naming.registered

/-- What a request does that takes no lock and removes nothing: it adds entries, and leaves each
file its copies. -/
structure Steady (c c' : Cluster) : Prop extends LockFree c c' where
  grows : c.tree.Grows c'.tree
  backed : c'.Backed

namespace Steady

theorem of_lockFree (free : c.LockFree c') (grows : c.tree.Grows c'.tree) (backed : c'.Backed) :
    c.Steady c' :=
  ⟨free, grows, backed⟩

theorem servers {servers : Servers} (tidy : c.Tidy)
    (backed : c.tree.Backed servers c.naming.registered) : c.Steady { c with servers } :=
  of_lockFree (.of_tree tidy rfl) (.refl _) backed

theorem createFile (tidy : c.Tidy) (backed : c.Backed) (p : Path) :
    c.Steady (c.createFile p).2 := by
  refine of_lockFree (.createFile tidy p) (tidy.createFile p).1 ?_
  cases createFile_cases tidy.wellFormed tidy.furnished p with
  | inl same => exact same.symm ▸ backed
  | inr there =>
      obtain ⟨q, a, m, -, -, -, absent, creating⟩ := there
      have apart (n : Nat) (attached : c.tree.Attached n) : (c.tree.node n).path ≠ p := by
        intro same
        rw [(Tree.find?_eq_some_iff tidy.wellFormed).mpr ⟨attached, same⟩] at absent
        cases absent
      generalize c.createFile p = result at *
      cases creating with
      | unplaced => exact backed
      | @made e fromPool u taken created =>
          obtain ⟨before, owned⟩ := Tree.Backed.taken backed taken
          obtain ⟨pool, rfl⟩ := taken.nodes
          refine before.created tidy.wellFormed.of_pool owned (fun n attached => ?_) created
          exact apart n (Tree.attached_pool.mp attached)
      | @refused e fromPool u taken refused =>
          have owned := (Tree.Backed.taken backed taken).2
          exact (Tree.Backed.uncreated backed owned p refused).given_back taken

theorem createDirectory (tidy : c.Tidy) (backed : c.Backed) (p : Path) :
    c.Steady (c.createDirectory p).2 := by
  refine of_lockFree (.createDirectory tidy p) (tidy.createDirectory p).1 ?_
  cases createDirectory_cases c p with
  | inl same => exact same.symm ▸ backed
  | inr made =>
      obtain ⟨n, u, made, result⟩ := made
      obtain ⟨m, x, added, inserted⟩ := Tree.add_eq_ok made
      obtain rfl : (c.tree.insert m x).2 = u := congrArg Prod.snd inserted
      rw [result]
      have place : (c.tree.node m).keeps = (c.tree.node m).home.toList := by
        rw [Node.keeps, if_neg (by simp [added.directory])]
      have lives : x.keeps = (c.tree.node m).home.toList ∧ x.isFile = false ∧ x.replicas = [] := by
        have kind := added.kind_eq
        cases added.made with
        | directory p => exact ⟨rfl, rfl, rfl⟩
        | file p lives => cases kind
      obtain ⟨keeps, directory, replicas⟩ := lives
      refine backed.insert tidy.wellFormed backed.memory (fun _ _ _ _ => rfl) ?_
        (replicas ▸ List.Pairwise.nil) ?_
      · intro c kept
        exact backed.owned c (.inr ⟨m, by rw [place, ← keeps]; exact kept⟩)
      · intro file
        exact absurd (directory.symm.trans file) (by simp)

theorem storageOf (tidy : c.Tidy) (backed : c.Backed) (p : Path) :
    c.Steady (c.storageOf p).2 := by
  refine of_lockFree (.storageOf tidy p) (tidy.storageOf p).1 ?_
  cases storageOf_cases c p with
  | inl same => exact same.symm ▸ backed
  | inr turned =>
      obtain ⟨n, turn, result⟩ := turned
      rw [result]
      refine backed.modify tidy.wellFormed ⟨rfl, rfl, rfl⟩ rfl backed.memory
        (fun _ _ _ _ _ => rfl) ?_ (backed.apart n) (backed.agree n)
      intro c kept
      exact backed.owned c (.inr ⟨n, kept⟩)

theorem join {name : String} {files duplicates dropped : List Path} (tidy : c.Tidy)
    (backed : c.Backed) (nodup : files.Nodup) (held : ∀ p ∈ files, c.servers.content name p ≠ none)
    (accepted : (c.register (.own name) files).1 = .ok duplicates) (once : dropped.Nodup)
    (given : ∀ p ∈ dropped, p ∈ duplicates) :
    c.Steady { (c.register (.own name) files).2 with
      servers := (dropDuplicates name dropped (c.register (.own name) files).2.servers).2 } := by
  obtain ⟨grows, tidy'⟩ := tidy.register (.own name) files
  refine of_lockFree { LockFree.register tidy (.own name) files with tidy := tidy'.of_tree rfl }
    grows ?_
  have new : ¬ ((Container.own name).endpoints.1 ∈ c.naming.registered ∨
      (Container.own name).endpoints.2 ∈ c.naming.registered) := by
    intro known
    rw [register_known c files known] at accepted
    cases accepted
  have unlisted (n : Nat) : .own name ∉ (c.tree.node n).replicas := by
    intro listed
    exact new (.inl (backed.owned _ (.inr ⟨n, (tidy.furnished n).mem_keeps listed⟩)).2)
  obtain ⟨offers, u, recorded, paths, result⟩ := register_new tidy.wellFormed files new
  have owned : (Container.own name).Owned (c.enroll (.own name)).naming.registered :=
    ⟨⟨name, rfl⟩, (mem_enroll c (.own name)).1⟩
  have recorded_held (p : Path) (added : (p, Offer.added) ∈ offers) :
      ∃ e, c.servers.Holds (.own name) p e := by
    have listed : p ∈ files := paths ▸ List.mem_map_of_mem added
    obtain ⟨d, there⟩ := Option.ne_none_iff_exists'.mp (held p listed)
    exact ⟨d, name, rfl, there⟩
  obtain ⟨pool, tree, entered⟩ := Tree.Backed.entered
    (backed.mono fun e known => List.mem_append_left _ known) tidy.wellFormed owned recorded
    recorded_held
  have reported (p : Path) (member : p ∈ dropped) : (p, Offer.duplicate) ∈ offers := by
    have listed := given p member
    rw [result] at accepted
    obtain rfl := Except.ok.inj accepted
    exact mem_reported.mp listed
  have there : ∀ p ∈ dropped, c.servers.content name p ≠ none := fun p member =>
    held p (paths ▸ List.mem_map_of_mem (reported p member))
  obtain ⟨memory, contents⟩ := Servers.dropDuplicates_contents backed.memory name once there
  rw [result, tree] at accepted ⊢
  refine entered.of_servers memory fun n attached file other listed => ?_
  apply contents
  by_cases same : other = name
  · subst same
    refine .inr fun member => ?_
    cases recorded.listed tidy.wellFormed tidy.furnished n listed with
    | inl old => exact unlisted n old
    | inr added =>
        -- What the server has to give up was not recorded.
        have both := List.inj_on_of_nodup_map (paths.symm ▸ nodup) added (reported _ member) rfl
        cases (Prod.mk.inj both).2
  · exact .inl same

end Steady

end Cluster

end DistFs
