import DistFs.Cluster
import DistFs.Proofs.Tree.Containers

namespace DistFs

namespace Cluster

variable {c : Cluster} {d x : Container} {p : Path} {t u v : Tree} {files : List Path}
  {offers : List (Path × Offer)} {offer : Offer} {n m : Nat}

inductive Recording (d : Container) (t : Tree) (p : Path) : Offer → Tree → Prop
  | passed {offer : Offer} (other : offer ≠ .added) : Recording d t p offer t
  | refused {offer : Offer} {v : Tree} (other : offer ≠ .added)
      (quiet : Tree.Grown (t.settleRoot d) (fun x y => x.Makes (some d) y ∧ y.isFile = false) v) :
      Recording d t p offer v
  | added {v : Tree} {n : NodeId} (registered : t.register p d = (.ok n, v)) :
      Recording d t p .added v

inductive Recorded (d : Container) : Tree → List (Path × Offer) → Tree → Prop
  | nil (t : Tree) : Recorded d t [] t
  | cons {t u v : Tree} {p : Path} {offer : Offer} {offers : List (Path × Offer)}
      (first : Recording d t p offer v) (rest : Recorded d v offers u) :
      Recorded d t ((p, offer) :: offers) u

theorem recordFile_recording (wf : t.WellFormed) (d : Container) (p : Path) :
    ∃ offer v, recordFile d p t = (.ok offer, v) ∧ Recording d t p offer v := by
  unfold recordFile
  split
  · exact ⟨.skipped, t, rfl, .passed (by simp)⟩
  · split
    · exact ⟨.duplicate, t, rfl, .passed (by simp)⟩
    · have quiet := (Tree.register_grown wf p d).2.1
      cases registered : t.register p d with
      | mk result v =>
          rw [registered] at quiet
          cases result with
          | ok n => exact ⟨.added, v, rfl, .added registered⟩
          | error e =>
              have refused : Recording d t p .duplicate v := .refused (by simp) (quiet e rfl)
              cases Tree.register_error registered with
              | inl exist =>
                  obtain ⟨q, rfl⟩ := exist
                  exact ⟨.duplicate, v, rfl, refused⟩
              | inr file =>
                  obtain ⟨q, rfl⟩ := file
                  exact ⟨.duplicate, v, rfl, refused⟩

/-! ## One file -/

namespace Recording

theorem grown (h : Recording d t p offer v) (wf : t.WellFormed) :
    v = t ∨ Tree.Grown (t.settleRoot d) (Node.Made (some d) p) v := by
  cases h with
  | passed => exact .inl rfl
  | refused other quiet =>
      right
      apply quiet.mono
      intro x y made
      exact ⟨made.1, fun file => absurd (made.2.symm.trans file) (by simp)⟩
  | added registered =>
      have grown := (Tree.register_grown wf p d).1
      rw [registered] at grown
      exact .inr grown

theorem keeps (h : Recording d t p offer v) (wf : t.WellFormed) :
    t.Grows v ∧ v.WellFormed ∧ (t.Furnished → v.Furnished) ∧ v.pool = t.pool := by
  cases h.grown wf with
  | inl same =>
      subst same
      exact ⟨.refl v, wf, id, rfl⟩
  | inr grown =>
      refine ⟨(Tree.settleRoot_grows t d).trans grown.grows, grown.wellFormed (wf.settleRoot d), ?_,
        grown.pool⟩
      exact fun furnished => (furnished.settleRoot wf d).grown grown

theorem available (h : Recording d t p offer v) (wf : t.WellFormed)
    (there : d.endpoints = x.endpoints → t.Available x) : v.Available x ↔ t.Available x := by
  cases h.grown wf with
  | inl same => rw [same]
  | inr grown =>
      have settled := Tree.available_settleRoot wf d there
      rw [Tree.available_grown (wf.settleRoot d) grown, settled]
      intro e told same
      cases told
      exact settled.mpr (there same)

theorem node (h : Recording d t p offer v) (wf : t.WellFormed) (old : n < t.size) :
    ∃ home, v.node n = { t.node n with home } := by
  cases h.grown wf with
  | inl same => exact ⟨(t.node n).home, by rw [same]⟩
  | inr grown =>
      rw [grown.node (by simpa [Tree.settleRoot] using old), Tree.settleRoot, Tree.node_modify]
      split
      · exact ⟨_, rfl⟩
      · exact ⟨(t.node n).home, rfl⟩

theorem replicas (h : Recording d t p offer v) (wf : t.WellFormed) (old : n < t.size) :
    (v.node n).replicas = (t.node n).replicas := by
  obtain ⟨home, same⟩ := h.node wf old
  rw [same]

theorem known_of_listed (listed : d ∈ (v.node n).replicas) : n < v.size := by
  by_contra unknown
  rw [Tree.node_of_size_le (Nat.not_lt.mp unknown)] at listed
  cases listed

theorem listed (h : Recording d t p offer v) (wf : t.WellFormed)
    (listed : d ∈ (v.node n).replicas) :
    d ∈ (t.node n).replicas ∨ offer = .added ∧ (v.node n).path = p := by
  by_cases old : n < t.size
  · rw [h.replicas wf old] at listed
    exact .inl listed
  · have new : (t.settleRoot d).size ≤ n := by simpa [Tree.settleRoot] using old
    have known := known_of_listed listed
    cases h with
    | passed => exact absurd known old
    | refused other quiet =>
        -- What was made on the way to a file that is refused are directories.
        obtain ⟨-, m, y, -, made, node⟩ := quiet.new (wf.settleRoot d) known new
        rw [node, made.1.lives.2.2 made.2] at listed
        cases listed
    | added registered =>
        have grown := (Tree.register_grown wf p d).1
        rw [registered] at grown
        obtain ⟨-, m, y, -, made, node⟩ := grown.new (wf.settleRoot d) known new
        right
        rw [node] at listed ⊢
        cases kind : y.isFile with
        | true => exact ⟨rfl, made.2 kind⟩
        | false =>
            rw [made.1.lives.2.2 kind] at listed
            cases listed

end Recording

/-! ## All files in turn -/

theorem recordFiles_recorded (wf : t.WellFormed) (d : Container) (files : List Path) :
    ∃ offers u, recordFiles d files t = (.ok offers, u) ∧ Recorded d t offers u ∧
      offers.map Prod.fst = files := by
  induction files generalizing t with
  | nil => exact ⟨[], t, rfl, .nil t, rfl⟩
  | cons p rest ih =>
      obtain ⟨offer, v, recorded, first⟩ := recordFile_recording wf d p
      obtain ⟨offers, u, later, done, paths⟩ := ih (first.keeps wf).2.1
      refine ⟨(p, offer) :: offers, u, ?_, .cons first done, by simp [paths]⟩
      rw [recordFiles, recorded]
      simp only [later, Except.map]

namespace Recorded

theorem keeps (h : Recorded d t offers u) (wf : t.WellFormed) (furnished : t.Furnished) :
    t.Grows u ∧ u.WellFormed ∧ u.Furnished ∧ u.pool = t.pool := by
  induction h with
  | nil t => exact ⟨.refl t, wf, furnished, rfl⟩
  | cons first rest ih =>
      obtain ⟨grows, wf', furnished', pool⟩ := first.keeps wf
      obtain ⟨grows', wf'', furnished'', pool'⟩ := ih wf' (furnished' furnished)
      exact ⟨grows.trans grows', wf'', furnished'', pool'.trans pool⟩

theorem available (h : Recorded d t offers u) (wf : t.WellFormed)
    (there : d.endpoints = x.endpoints → t.Available x) : u.Available x ↔ t.Available x := by
  induction h with
  | nil => exact Iff.rfl
  | cons first rest ih =>
      have step := first.available wf there
      rw [ih (first.keeps wf).2.1 fun same => step.mpr (there same), step]

theorem enters (h : Recorded d t offers u) (wf : t.WellFormed)
    (added : (p, Offer.added) ∈ offers) : u.Available d := by
  induction h with
  | nil => cases added
  | @cons t u v q offer offers first rest ih =>
      have wf' := (first.keeps wf).2.1
      cases List.mem_cons.mp added with
      | inr later => exact ih wf' later
      | inl here =>
          cases here
          cases first with
          | passed other => exact absurd rfl other
          | refused other => exact absurd rfl other
          | @added v n registered =>
              have made := (Tree.register_grown wf p d).2.2 n (by rw [registered])
              rw [registered] at made
              obtain ⟨attached, -, file, replicas⟩ := made
              have there : v.Available d := .inr ⟨n, attached, by simp [Node.keeps, file, replicas]⟩
              exact (rest.available wf' fun _ => there).mpr there

theorem node (h : Recorded d t offers u) (wf : t.WellFormed) (old : n < t.size) :
    ∃ home, u.node n = { t.node n with home } := by
  induction h with
  | nil t => exact ⟨(t.node n).home, rfl⟩
  | cons first rest ih =>
      obtain ⟨grows, wf', -⟩ := first.keeps wf
      obtain ⟨home, same⟩ := ih wf' (grows.known old)
      obtain ⟨home', same'⟩ := first.node wf old
      exact ⟨home, by rw [same, same']⟩

theorem replicas (h : Recorded d t offers u) (wf : t.WellFormed) (old : n < t.size) :
    (u.node n).replicas = (t.node n).replicas := by
  obtain ⟨home, same⟩ := h.node wf old
  rw [same]

theorem listed (h : Recorded d t offers u) (wf : t.WellFormed) (furnished : t.Furnished)
    (n : Nat) (listed : d ∈ (u.node n).replicas) :
    d ∈ (t.node n).replicas ∨ ((u.node n).path, Offer.added) ∈ offers := by
  induction h with
  | nil => exact .inl listed
  | @cons t u v p offer offers first rest ih =>
      obtain ⟨-, wf', furnished', -⟩ := first.keeps wf
      cases ih wf' (furnished' furnished) listed with
      | inr later => exact .inr (List.mem_cons_of_mem _ later)
      | inl before =>
          apply (first.listed wf before).imp_right
          rintro ⟨rfl, rfl⟩
          have grows := (rest.keeps wf' (furnished' furnished)).1
          rw [(grows.same n (Recording.known_of_listed before)).path]
          exact List.mem_cons_self

end Recorded

theorem mem_reported : p ∈ (offers.filter (·.2 = .duplicate)).map Prod.fst ↔
    (p, Offer.duplicate) ∈ offers := by
  constructor
  · intro reported
    obtain ⟨⟨q, offer⟩, kept, rfl⟩ := List.mem_map.mp reported
    obtain ⟨member, duplicate⟩ := List.mem_filter.mp kept
    obtain rfl : offer = .duplicate := of_decide_eq_true duplicate
    exact member
  · intro member
    exact List.mem_map_of_mem (List.mem_filter.mpr ⟨member, decide_eq_true rfl⟩)

/-! ## Registering -/

theorem register_known (c : Cluster) {d : Container} (files : List Path)
    (known : d.endpoints.1 ∈ c.naming.registered ∨ d.endpoints.2 ∈ c.naming.registered) :
    c.register d files = (.error (.alreadyRegistered d.text), c) := by
  unfold register
  simp only [if_pos known]

def enroll (c : Cluster) (d : Container) : Cluster :=
  { c with naming := { c.naming with registered := c.naming.registered ++
      if d.endpoints.1 = d.endpoints.2 then [d.endpoints.1]
      else [d.endpoints.1, d.endpoints.2] } }

theorem mem_enroll (c : Cluster) (d : Container) :
    d.endpoints.1 ∈ (c.enroll d).naming.registered ∧
      d.endpoints.2 ∈ (c.enroll d).naming.registered := by
  unfold enroll
  split
  next same => simp [← same]
  next => simp

theorem register_new (wf : c.tree.WellFormed) (files : List Path)
    (new : ¬ (d.endpoints.1 ∈ c.naming.registered ∨ d.endpoints.2 ∈ c.naming.registered)) :
    ∃ offers u, Recorded d c.tree offers u ∧ offers.map Prod.fst = files ∧
      c.register d files = (.ok ((offers.filter (·.2 = .duplicate)).map Prod.fst),
        (c.enroll d).setTree (if offers.any (·.2 = .added) then u else u.addToPool d)
          c.servers) := by
  obtain ⟨offers, u, recorded, done, paths⟩ := recordFiles_recorded wf d files
  refine ⟨offers, u, done, paths, ?_⟩
  have same : (c.enroll d).tree = c.tree := rfl
  rw [← same] at recorded
  unfold register
  unfold enroll at recorded ⊢
  simp only [if_neg new, recorded]

end Cluster

end DistFs
