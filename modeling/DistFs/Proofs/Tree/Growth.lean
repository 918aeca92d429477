import DistFs.Proofs.Tree.Shape
/-!
# How the directory tree changes

Nodes are never moved: a tree is only ever extended by entries, and a removal unlinks one node. So
the operations keep a tree well-formed, and whoever knows a node finds it unchanged in its place
(`Extends`); without a removal it also stays in the tree (`Grows`).
-/

namespace DistFs

structure Node.Same (x y : Node) : Prop where
  path : y.path = x.path
  kind : y.kind = x.kind
  lineage : y.lineage = x.lineage

namespace Node.Same

variable {x y z : Node}

theorem refl (x : Node) : x.Same x := ⟨rfl, rfl, rfl⟩

theorem trans (h : x.Same y) (h' : y.Same z) : x.Same z :=
  ⟨h'.path.trans h.path, h'.kind.trans h.kind, h'.lineage.trans h.lineage⟩

theorem isFile (h : x.Same y) : y.isFile = x.isFile := by simp [Node.isFile, h.kind]

theorem parent? (h : x.Same y) : y.parent? = x.parent? := by simp [Node.parent?, h.lineage]

end Node.Same

namespace Tree

variable {t u v : Tree} {n m k : Nat} {p : Path}

/-- The nodes of `t` stand in `u` where they were, though they may be unlinked there. -/
structure Extends (t u : Tree) : Prop where
  size : t.size ≤ u.size
  same : ∀ n, n < t.size → (t.node n).Same (u.node n)
  linked : ∀ n, n < t.size → (u.node n).linked = true → (t.node n).linked = true

/-- The nodes of `t` stand in `u` where they were, and those in the tree are still in it. -/
structure Grows (t u : Tree) : Prop extends Extends t u where
  kept : ∀ n, n < t.size → (t.node n).linked = true → (u.node n).linked = true

namespace Extends

theorem refl (t : Tree) : t.Extends t := ⟨Nat.le_refl _, fun _ _ => .refl _, fun _ _ h => h⟩

theorem trans (h : t.Extends u) (h' : u.Extends v) : t.Extends v where
  size := Nat.le_trans h.size h'.size
  same n known := (h.same n known).trans (h'.same n (Nat.lt_of_lt_of_le known h.size))
  linked n known l := h.linked n known (h'.linked n (Nat.lt_of_lt_of_le known h.size) l)

theorem known (h : t.Extends u) (known : n < t.size) : n < u.size :=
  Nat.lt_of_lt_of_le known h.size

theorem entryOf (h : t.Extends u) (known : n < t.size) (entry : t.EntryOf m n) :
    u.EntryOf m n := by
  have above := h.same m (Nat.lt_trans entry.younger known)
  have here := h.same n known
  obtain ⟨a, path⟩ := entry.path
  exact ⟨entry.younger, by rw [here.lineage, above.lineage, entry.lineage],
    ⟨a, by rw [here.path, above.path, path]⟩, by rw [above.isFile, entry.directory],
    by rw [here.kind]; exact entry.kind⟩

theorem attached_of (h : t.Extends u) (wf : t.WellFormed) (known : n < t.size)
    (attached : u.Attached n) : t.Attached n := by
  refine ⟨known, h.linked n known attached.linked, ?_⟩
  intro m member
  refine h.linked m (wf.lineage_known known member) (attached.above m ?_)
  rw [(h.same n known).lineage]
  exact member

end Extends

namespace Grows

theorem refl (t : Tree) : t.Grows t := ⟨.refl t, fun _ _ h => h⟩

theorem trans (h : t.Grows u) (h' : u.Grows v) : t.Grows v where
  toExtends := h.toExtends.trans h'.toExtends
  kept n known l := h'.kept n (h.known known) (h.kept n known l)

theorem attached (h : t.Grows u) (wf : t.WellFormed) (attached : t.Attached n) :
    u.Attached n := by
  refine ⟨h.known attached.known, h.kept n attached.known attached.linked, ?_⟩
  intro m member
  rw [(h.same n attached.known).lineage] at member
  exact h.kept m (wf.lineage_known attached.known member) (attached.above m member)

theorem attached_iff (h : t.Grows u) (wf : t.WellFormed) (known : n < t.size) :
    u.Attached n ↔ t.Attached n :=
  ⟨h.attached_of wf known, h.attached wf⟩

theorem find? (h : t.Grows u) (wf : t.WellFormed) (wf' : u.WellFormed)
    (found : t.find? p = some n) : u.find? p = some n := by
  obtain ⟨attached, path⟩ := (find?_eq_some_iff wf).mp found
  refine (find?_eq_some_iff wf').mpr ⟨h.attached wf attached, ?_⟩
  rw [(h.same n attached.known).path, path]

end Grows

/-! ## Changing a node -/

theorem extends_modify (t : Tree) (k : Nat) {change : Node → Node}
    (same : (t.node k).Same (change (t.node k)))
    (linked : (change (t.node k)).linked = true → (t.node k).linked = true) :
    t.Extends (t.modify k change) := by
  refine ⟨by simp, fun n _ => ?_, fun n _ => ?_⟩
  · rw [node_modify]
    split
    next h => exact h.1 ▸ same
    next => exact .refl _
  · rw [node_modify]
    split
    next h => exact h.1 ▸ linked
    next => exact id

theorem WellFormed.modify (wf : t.WellFormed) (k : Nat) {change : Node → Node}
    (same : (t.node k).Same (change (t.node k)))
    (linked : (change (t.node k)).linked = true → (t.node k).linked = true)
    (root : k = rootId → (change (t.node k)).linked = true) : (t.modify k change).WellFormed := by
  have ext := extends_modify t k same linked
  have at_root := ext.same rootId wf.nonempty
  refine ⟨by simpa using wf.nonempty, at_root.path.trans wf.root_path,
    at_root.kind.trans wf.root_kind, at_root.lineage.trans wf.root_lineage, ?_, ?_, ?_⟩
  · rw [node_modify]
    split
    next h => exact h.1 ▸ root h.1.symm
    next => exact wf.root_linked
  · intro n known other
    rw [size_modify] at known
    obtain ⟨m, entry⟩ := wf.entry n known other
    exact ⟨m, ext.entryOf known entry⟩
  · intro m n known known' l l' parent path
    rw [size_modify] at known known'
    rw [(ext.same m known).parent?, (ext.same n known').parent?] at parent
    rw [(ext.same m known).path, (ext.same n known').path] at path
    exact wf.unique m n known known' (ext.linked m known l) (ext.linked n known' l') parent path

theorem grows_modify (t : Tree) (k : Nat) {change : Node → Node}
    (same : (t.node k).Same (change (t.node k)))
    (linked : (change (t.node k)).linked = (t.node k).linked) : t.Grows (t.modify k change) := by
  refine ⟨extends_modify t k same (fun l => linked ▸ l), fun n _ => ?_⟩
  rw [node_modify]
  split
  next h => exact h.1 ▸ fun l => linked.trans l
  next => exact id

theorem WellFormed.hold (wf : t.WellFormed) (k : Nat) {change : Node → Node}
    (same : (t.node k).Same (change (t.node k)))
    (linked : (change (t.node k)).linked = (t.node k).linked) : (t.modify k change).WellFormed :=
  wf.modify k same (fun l => linked ▸ l) fun root => by
    rw [linked, root]
    exact wf.root_linked

theorem find?_modify (wf : t.WellFormed) (k : Nat) {change : Node → Node}
    (same : (t.node k).Same (change (t.node k)))
    (linked : (change (t.node k)).linked = (t.node k).linked) (q : Path) :
    (t.modify k change).find? q = t.find? q := by
  have grows := grows_modify t k same linked
  ext n
  rw [find?_eq_some_iff (wf.hold k same linked), find?_eq_some_iff wf]
  by_cases known : n < t.size
  · rw [grows.attached_iff wf known, (grows.same n known).path]
  · constructor
    · rintro ⟨there, -⟩
      exact absurd (by simpa using there.known) known
    · rintro ⟨there, -⟩
      exact absurd there.known known

/-! ## Adding entries -/

/-- `u` arises from `t` by adding entries to directories in the tree, one after the other. Of each
new entry `may` holds, given the directory that it was added to. -/
inductive Grown (t : Tree) (may : Node → Node → Prop) : Tree → Prop
  | same : Grown t may t
  | entry {u : Tree} {m : Nat} {x : Node} {a : Name} (grown : Grown t may u)
      (attached : u.Attached m) (directory : (u.node m).isFile = false)
      (absent : u.child? m a = none) (path : x.path = (u.node m).path.child a)
      (kind : x.kind ≠ .root) (linked : x.linked = true) (allowed : may (u.node m) x) :
      Grown t may (u.insert m x).2

theorem grows_insert (t : Tree) (m : Nat) (x : Node) : t.Grows (t.insert m x).2 := by
  have before (n : Nat) (known : n < t.size) : (t.insert m x).2.node n = t.node n := by
    rw [node_insert, if_neg (Nat.ne_of_lt known)]
  refine ⟨⟨by simp, fun n known => ?_, fun n known => ?_⟩, fun n known => ?_⟩ <;>
    rw [before n known]
  · exact .refl _
  · exact id
  · exact id

section Insert

variable {x : Node} {a : Name}

theorem entryOf_insert (known : m < t.size) (directory : (t.node m).isFile = false)
    (path : x.path = (t.node m).path.child a) (kind : x.kind ≠ .root) :
    (t.insert m x).2.EntryOf m t.size := by
  refine ⟨known, ?_, ⟨a, ?_⟩, ?_, ?_⟩ <;> simp only [node_insert, if_neg (Nat.ne_of_lt known)]
  · rfl
  · exact path
  · exact directory
  · exact kind

theorem WellFormed.insert (wf : t.WellFormed) (known : m < t.size)
    (directory : (t.node m).isFile = false) (absent : t.child? m a = none)
    (path : x.path = (t.node m).path.child a) (kind : x.kind ≠ .root) :
    (t.insert m x).2.WellFormed := by
  have grows := grows_insert t m x
  have fresh := entryOf_insert known directory path kind
  have at_root := grows.same rootId wf.nonempty
  have at_new : ((t.insert m x).2.node t.size).path = (t.node m).path.child a := by
    simp [node_insert, path]
  have old (n : Nat) (bound : n < (t.insert m x).2.size) (other : n ≠ t.size) : n < t.size := by
    rw [size_insert] at bound
    omega
  -- Nothing that the directory listed before has the name of the new entry.
  have alone (n : Nat) (bound : n < t.size) (linked : (t.node n).linked = true)
      (parent : (t.node n).parent? = some m) : (t.node n).path ≠ (t.node m).path.child a := by
    intro same
    have found := (child?_eq_some_iff wf).mpr ⟨bound, linked, .of_parent? wf bound parent, same⟩
    rw [absent] at found
    cases found
  refine ⟨by simp, at_root.path.trans wf.root_path, at_root.kind.trans wf.root_kind,
    at_root.lineage.trans wf.root_lineage, grows.kept rootId wf.nonempty wf.root_linked, ?_, ?_⟩
  · intro n bound other
    by_cases new : n = t.size
    · exact ⟨m, new ▸ fresh⟩
    · obtain ⟨k, entry⟩ := wf.entry n (old n bound new) other
      exact ⟨k, grows.entryOf (old n bound new) entry⟩
  · intro k n bound bound' l l' parent samePath
    by_cases new : k = t.size <;> by_cases new' : n = t.size
    · rw [new, new']
    · have known' := old n bound' new'
      rw [new, fresh.parent?, (grows.same n known').parent?] at parent
      rw [new, at_new, (grows.same n known').path] at samePath
      exact absurd samePath.symm (alone n known' (grows.linked n known' l') parent.symm)
    · have known' := old k bound new
      rw [new', fresh.parent?, (grows.same k known').parent?] at parent
      rw [new', at_new, (grows.same k known').path] at samePath
      exact absurd samePath (alone k known' (grows.linked k known' l) parent)
    · have known' := old k bound new
      have known'' := old n bound' new'
      rw [(grows.same k known').parent?, (grows.same n known'').parent?] at parent
      rw [(grows.same k known').path, (grows.same n known'').path] at samePath
      exact wf.unique k n known' known'' (grows.linked k known' l) (grows.linked n known'' l')
        parent samePath

theorem attached_insert (wf : t.WellFormed) (attached : t.Attached m)
    (directory : (t.node m).isFile = false) (absent : t.child? m a = none)
    (path : x.path = (t.node m).path.child a) (kind : x.kind ≠ .root) (linked : x.linked = true) :
    (t.insert m x).2.Attached t.size := by
  have wf' := wf.insert attached.known directory absent path kind
  refine ((entryOf_insert attached.known directory path kind).attached_iff wf' (by simp)).mpr
    ⟨by simpa [node_insert] using linked, (grows_insert t m x).attached wf attached⟩

theorem find?_insert (wf : t.WellFormed) (attached : t.Attached m)
    (directory : (t.node m).isFile = false) (absent : t.child? m a = none)
    (path : x.path = (t.node m).path.child a) (kind : x.kind ≠ .root) (linked : x.linked = true)
    (q : Path) : (t.insert m x).2.find? q = if q = x.path then some t.size else t.find? q := by
  have wf' := wf.insert attached.known directory absent path kind
  have grows := grows_insert t m x
  have fresh := attached_insert wf attached directory absent path kind linked
  have place : ((t.insert m x).2.node t.size).path = x.path := by simp [node_insert]
  split
  next here => exact (find?_eq_some_iff wf').mpr ⟨fresh, place.trans here.symm⟩
  next other =>
    ext n
    rw [find?_eq_some_iff wf', find?_eq_some_iff wf]
    by_cases known : n < t.size
    · rw [grows.attached_iff wf known, (grows.same n known).path]
    · constructor
      · rintro ⟨there, path'⟩
        have bound := there.known
        rw [size_insert] at bound
        obtain rfl : n = t.size :=
          Nat.le_antisymm (Nat.le_of_lt_succ bound) (Nat.not_lt.mp known)
        exact absurd (path'.symm.trans place) other
      · rintro ⟨there, -⟩
        exact absurd there.known known

end Insert

namespace Grown

variable {may : Node → Node → Prop}

theorem wellFormed (h : Grown t may u) (wf : t.WellFormed) : u.WellFormed := by
  induction h with
  | same => exact wf
  | entry _ attached directory absent path kind _ _ ih =>
      exact ih.insert attached.known directory absent path kind

theorem grows (h : Grown t may u) : t.Grows u := by
  induction h with
  | same => exact .refl t
  | entry _ _ _ _ _ _ _ _ ih => exact ih.trans (grows_insert _ _ _)

theorem pool (h : Grown t may u) : u.pool = t.pool := by
  induction h with
  | same => rfl
  | entry _ _ _ _ _ _ _ _ ih => exact ih

theorem node (h : Grown t may u) (known : n < t.size) : u.node n = t.node n := by
  induction h with
  | same => rfl
  | entry grown _ _ _ _ _ _ _ ih =>
      rw [node_insert, if_neg (Nat.ne_of_lt (grown.grows.known known)), ih]

theorem new (h : Grown t may u) (wf : t.WellFormed) (known : n < u.size) (other : t.size ≤ n) :
    u.Attached n ∧ ∃ m x, u.Attached m ∧ may (u.node m) x ∧
      u.node n = { x with lineage := (u.node m).lineage ++ [m] } := by
  induction h with
  | same => omega
  | @entry w m x a grown attached directory absent path kind linked allowed ih =>
      have wf' := grown.wellFormed wf
      have grows := grows_insert w m x
      have before (k : Nat) (bound : k < w.size) : (w.insert m x).2.node k = w.node k := by
        rw [node_insert, if_neg (Nat.ne_of_lt bound)]
      rw [size_insert] at known
      by_cases last : n = w.size
      · subst last
        refine ⟨attached_insert wf' attached directory absent path kind linked, m, x,
          grows.attached wf' attached, ?_, ?_⟩
        · rw [before m attached.known]
          exact allowed
        · rw [before m attached.known, node_insert, if_pos rfl]
      · obtain ⟨here, k, y, above, allowed', node⟩ := ih (by omega)
        refine ⟨grows.attached wf' here, k, y, grows.attached wf' above, ?_, ?_⟩
        · rw [before k above.known]
          exact allowed'
        · rw [before k above.known, before n here.known, node]

theorem mono {may' : Node → Node → Prop} (h : Grown t may u)
    (imp : ∀ x y, may x y → may' x y) : Grown t may' u := by
  induction h with
  | same => exact .same
  | entry _ attached directory absent path kind linked allowed ih =>
      exact .entry ih attached directory absent path kind linked (imp _ _ allowed)

theorem trans {w : Tree} (h : Grown t may u) (h' : Grown u may w) : Grown t may w := by
  induction h' with
  | same => exact h
  | entry _ attached directory absent path kind linked allowed ih =>
      exact .entry ih attached directory absent path kind linked allowed

end Grown

end Tree

end DistFs
