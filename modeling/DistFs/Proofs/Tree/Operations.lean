import DistFs.Proofs.Tree.Growth

namespace DistFs

/-- How a new entry is made in the directory `d`: it lives in the container, or else where the
directory is at home. -/
inductive Node.Makes (d : Node) (container : Option Container) : Node → Prop
  | directory (p : Path) :
      Makes d container { path := p, kind := .directory, home := container <|> d.home }
  | file (p : Path) {c : Container} (lives : (container <|> d.home) = some c) :
      Makes d container { path := p, kind := .file, replicas := [c] }

theorem Node.Makes.kind_ne {container : Option Container} {d x : Node}
    (h : d.Makes container x) : x.kind ≠ .root := by
  cases h <;> exact fun root => nomatch root

def Node.Made (container : Option Container) (p : Path) (d x : Node) : Prop :=
  d.Makes container x ∧ (x.isFile = true → x.path = p)

namespace Tree

variable {t u : Tree} {n m k : Nat} {p : Path} {kind : NodeKind}

theorem Grown.single {may : Node → Node → Prop} {x : Node} {a : Name} (attached : t.Attached m)
    (directory : (t.node m).isFile = false) (absent : t.child? m a = none)
    (path : x.path = (t.node m).path.child a) (kind : x.kind ≠ .root) (linked : x.linked = true)
    (allowed : may (t.node m) x) : Grown t may (t.insert m x).2 :=
  .entry .same attached directory absent path kind linked allowed

/-! ## Adding -/

structure Added (t : Tree) (p : Path) (kind : NodeKind) (container : Option Container)
    (m : NodeId) (x : Node) : Prop where
  parent : ∃ q a, p = q.child a ∧ t.find? q = some m ∧ t.child? m a = none
  directory : (t.node m).isFile = false
  path : x.path = p
  kind_eq : x.kind = kind
  linked : x.linked = true
  made : (t.node m).Makes container x

theorem add_eq_ok {container : Option Container} (h : t.add p kind container = .ok (n, u)) :
    ∃ m x, t.Added p kind container m x ∧ t.insert m x = (n, u) := by
  unfold add at h
  cases parent : p.parent? with
  | none => simp [parent] at h
  | some q =>
    cases last : p.last? with
    | none => simp [parent, last] at h
    | some a =>
      simp only [parent, last] at h
      cases found : t.find? q with
      | none => simp [get, found, bind, Except.bind] at h
      | some m =>
        simp only [get, found, bind, Except.bind] at h
        by_cases file : (t.node m).isFile = true
        · simp [file, throw, throwThe, MonadExceptOf.throw] at h
        · by_cases present : (t.child? m a).isSome = true
          · simp [file, present, throw, throwThe, MonadExceptOf.throw] at h
          · have located : ∃ q a, p = q.child a ∧ t.find? q = some m ∧ t.child? m a = none :=
              ⟨q, a, Path.child_of_parent?_last? parent last, found, by simpa using present⟩
            simp only [file, present, pure, Except.pure] at h
            cases kind with
            | root => simp [throw, throwThe, MonadExceptOf.throw] at h
            | directory =>
              refine ⟨m, _, ⟨located, by simpa using file, ?_, ?_, ?_, ?_⟩, Except.ok.inj h⟩
              · rfl
              · rfl
              · rfl
              · exact .directory p
            | file =>
              cases lives : container <|> (t.node m).home with
              | none => simp [lives, throw, throwThe, MonadExceptOf.throw] at h
              | some c =>
                simp only [lives] at h
                refine ⟨m, _, ⟨located, by simpa using file, ?_, ?_, ?_, ?_⟩, Except.ok.inj h⟩
                · rfl
                · rfl
                · rfl
                · exact .file p lives

theorem add_grown {container : Option Container} (wf : t.WellFormed)
    (h : t.add p kind container = .ok (n, u)) : Grown t (Node.Made container p) u := by
  obtain ⟨m, x, added, inserted⟩ := add_eq_ok h
  obtain ⟨q, a, rfl, found, absent⟩ := added.parent
  obtain ⟨attached, path⟩ := (find?_eq_some_iff wf).mp found
  have result : (t.insert m x).2 = u := congrArg Prod.snd inserted
  rw [← result]
  exact .single attached added.directory absent (by rw [added.path, path])
    added.made.kind_ne added.linked ⟨added.made, fun _ => added.path⟩

/-! ## Registering -/

theorem descend_grown (c : Container) (names : List Name) (wf : t.WellFormed)
    (attached : t.Attached n) (directory : (t.node n).isFile = false) :
    Grown t (fun d x => d.Makes (some c) x ∧ x.isFile = false) (descend c names n t).2 ∧
      ∀ m, (descend c names n t).1 = .ok m →
        (descend c names n t).2.Attached m ∧ ((descend c names n t).2.node m).isFile = false ∧
        ((descend c names n t).2.node m).path.names = (t.node n).path.names ++ names := by
  induction names generalizing n t with
  | nil =>
    refine ⟨.same, ?_⟩
    rintro m ⟨⟩
    exact ⟨attached, directory, by simp [descend]⟩
  | cons a names ih =>
    unfold descend
    cases found : t.child? n a with
    | some m =>
      obtain ⟨known, linked, entry, path⟩ := (child?_eq_some_iff wf).mp found
      by_cases file : (t.node m).isFile = true
      · simp only [file, if_true]
        exact ⟨.same, by simp⟩
      · simp only [file, if_false, Bool.false_eq_true]
        have below : t.Attached m := (entry.attached_iff wf known).mpr ⟨linked, attached⟩
        obtain ⟨grown, reached⟩ := ih wf below (by simpa using file)
        refine ⟨grown, fun k done => ?_⟩
        obtain ⟨here, dir, place⟩ := reached k done
        exact ⟨here, dir, by simp [place, path]⟩
    | none =>
      simp only
      generalize made :
        ({ path := (t.node n).path.child a, kind := .directory, home := some c } : Node) = x
      have path : x.path = (t.node n).path.child a := by rw [← made]
      have kind : x.kind ≠ .root := by simp [← made]
      have linked : x.linked = true := by rw [← made]
      have dir : x.isFile = false := by simp [← made, Node.isFile]
      have allowed : (t.node n).Makes (some c) x := by
        rw [← made]
        exact .directory _
      have first : Grown t (fun d x => d.Makes (some c) x ∧ x.isFile = false) (t.insert n x).2 :=
        .single attached directory found path kind linked ⟨allowed, dir⟩
      have node : ((t.insert n x).2.node t.size).isFile = false := by
        simpa [node_insert, Node.isFile] using dir
      obtain ⟨grown, reached⟩ := ih (first.wellFormed wf)
        (attached_insert wf attached directory found path kind linked) node
      refine ⟨first.trans grown, fun k done => ?_⟩
      obtain ⟨here, dir, place⟩ := reached k done
      refine ⟨here, dir, ?_⟩
      simp only [fst_insert, place, node_insert, if_pos, path, Path.names_child, List.append_assoc,
        List.singleton_append]

def settleRoot (t : Tree) (c : Container) : Tree :=
  t.modify rootId fun root => { root with home := root.home <|> some c }

theorem settleRoot_grows (t : Tree) (c : Container) : t.Grows (t.settleRoot c) :=
  grows_modify t rootId ⟨rfl, rfl, rfl⟩ rfl

theorem register_of_error {q : Path} {c : Container} {e : Error}
    (walked : descend c q.names rootId (t.settleRoot c) = (.error e, u)) (a : Name) :
    t.register (q.child a) c = (.error e, u) := by
  unfold settleRoot at walked
  simp only [register, Path.names_child, List.getLast?_append, List.getLast?_singleton,
    Option.some_or, List.dropLast_concat, walked]

theorem register_of_ok {q : Path} {c : Container}
    (walked : descend c q.names rootId (t.settleRoot c) = (.ok m, u)) (a : Name) :
    t.register (q.child a) c =
      if (u.child? m a).isSome then (.error (.alreadyExists (q.child a)), u)
      else (.ok u.size, (u.insert m { path := q.child a, kind := .file, replicas := [c] }).2) := by
  unfold settleRoot at walked
  simp only [register, Path.names_child, List.getLast?_append, List.getLast?_singleton,
    Option.some_or, List.dropLast_concat, walked, fst_insert]

theorem WellFormed.settleRoot (wf : t.WellFormed) (c : Container) : (t.settleRoot c).WellFormed :=
  wf.hold rootId ⟨rfl, rfl, rfl⟩ rfl

theorem find?_settleRoot (wf : t.WellFormed) (c : Container) (q : Path) :
    (t.settleRoot c).find? q = t.find? q :=
  find?_modify wf rootId ⟨rfl, rfl, rfl⟩ rfl q

theorem register_grown (wf : t.WellFormed) (p : Path) (c : Container) :
    Grown (t.settleRoot c) (Node.Made (some c) p) (t.register p c).2 ∧
      (∀ e, (t.register p c).1 = .error e → Grown (t.settleRoot c)
        (fun d x => d.Makes (some c) x ∧ x.isFile = false) (t.register p c).2) ∧
      ∀ n, (t.register p c).1 = .ok n → (t.register p c).2.Attached n ∧
        ((t.register p c).2.node n).path = p ∧ ((t.register p c).2.node n).isFile = true ∧
        ((t.register p c).2.node n).replicas = [c] := by
  have wf' := wf.settleRoot c
  have directory : ((t.settleRoot c).node rootId).isFile = false := by
    simp [Node.isFile, wf'.root_kind]
  rcases p.eq_root_or_child with rfl | ⟨q, a, rfl⟩
  · exact ⟨.same, fun _ _ => .same, by simp [register]⟩
  · obtain ⟨grown, reached⟩ :=
      descend_grown c q.names wf' wf'.attached_root directory
    have quiet : Grown (t.settleRoot c) (Node.Made (some c) (q.child a)) _ :=
      grown.mono fun d x h => ⟨h.1, fun file => absurd file (by simp [h.2])⟩
    cases walked : descend c q.names rootId (t.settleRoot c) with
    | mk outcome u =>
      rw [walked] at grown reached quiet
      cases outcome with
      | error e =>
        rw [register_of_error walked]
        exact ⟨quiet, fun _ _ => grown, by simp⟩
      | ok m =>
        obtain ⟨attached, dir, path⟩ := reached m rfl
        have wf'' := grown.wellFormed wf'
        have place : (u.node m).path = q := by
          cases q
          cases h : (u.node m).path
          simp_all [wf'.root_path]
        rw [register_of_ok walked]
        cases absent : u.child? m a with
        | some k => exact ⟨quiet, fun _ _ => grown, by simp⟩
        | none =>
          have child : ({ path := q.child a, kind := .file, replicas := [c] } : Node).path =
              (u.node m).path.child a := by rw [place]
          rw [if_neg (by simp)]
          refine ⟨.entry quiet attached dir absent child (by simp) rfl
            ⟨.file _ rfl, fun _ => rfl⟩, by simp, ?_⟩
          rintro n ⟨⟩
          refine ⟨attached_insert wf'' attached dir absent child (by simp) rfl, ?_⟩
          simp [node_insert, Node.isFile]

theorem descend_error {c : Container} {names : List Name} {e : Error}
    (failed : descend c names n t = (.error e, u)) : ∃ q, e = .notADirectory q := by
  induction names generalizing n t with
  | nil => simp [descend] at failed
  | cons a names ih =>
    unfold descend at failed
    split at failed
    · split at failed
      · exact ⟨_, (Except.error.inj (Prod.mk.inj failed).1).symm⟩
      · exact ih failed
    · exact ih failed

theorem register_error {c : Container} {e : Error} (failed : t.register p c = (.error e, u)) :
    (∃ q, e = .alreadyExists q) ∨ ∃ q, e = .notADirectory q := by
  rcases p.eq_root_or_child with rfl | ⟨q, a, rfl⟩
  · exact .inl ⟨_, (Except.error.inj (Prod.mk.inj failed).1).symm⟩
  · cases walked : descend c q.names rootId (t.settleRoot c) with
    | mk outcome u' =>
      cases outcome with
      | error e' =>
        rw [register_of_error walked] at failed
        cases failed
        exact .inr (descend_error walked)
      | ok m =>
        rw [register_of_ok walked] at failed
        split at failed
        · exact .inl ⟨_, (Except.error.inj (Prod.mk.inj failed).1).symm⟩
        · simp at failed

/-! ## Removing -/

theorem WellFormed.mem_lineage_of_isUnder (wf : t.WellFormed) (above : t.Attached m) :
    ∀ n, n < t.size → t.Attached n → (t.node n).path.isUnder (t.node m).path = true →
      n = m ∨ m ∈ (t.node n).lineage := by
  have found := (find?_eq_some_iff wf).mpr ⟨above, rfl⟩
  refine wf.induct ?_ ?_
  · intro _ under
    have empty : (t.node m).path = .root := by
      rw [Path.isUnder_iff, wf.root_path] at under
      cases h : (t.node m).path
      simp_all [Path.root]
    exact .inl (wf.eq_rootId above.known empty).symm
  · intro k n known entry ih attached under
    obtain ⟨a, path⟩ := entry.path
    rw [Path.isUnder_iff, path, Path.names_child, List.prefix_concat_iff] at under
    rcases under with same | higher
    · have here : t.find? (t.node m).path = some n := by
        refine (find?_eq_some_iff wf).mpr ⟨attached, ?_⟩
        rw [path]
        cases h : (t.node m).path
        simp_all [Path.child]
      rw [found, Option.some.injEq] at here
      exact .inl here.symm
    · have linked := ((entry.attached_iff wf known).mp attached).2
      right
      rcases ih linked (Path.isUnder_iff.mpr higher) with rfl | below
      · exact entry.mem_lineage
      · rw [entry.lineage]
        exact List.mem_append_left _ below

theorem WellFormed.isUnder_file (wf : t.WellFormed) (above : t.Attached m)
    (file : (t.node m).isFile = true) (attached : t.Attached n) (other : n ≠ m) :
    (t.node n).path.isUnder (t.node m).path = false := by
  rw [Bool.eq_false_iff]
  intro under
  cases wf.mem_lineage_of_isUnder above n attached.known attached under with
  | inl same => exact other same
  | inr below =>
    have directory := wf.directory_of_mem_lineage attached.known m below
    rw [file] at directory
    cases directory

def unlink (t : Tree) (n : NodeId) : Tree := t.modify n ({ · with linked := false })

theorem extends_unlink (t : Tree) (n : Nat) : t.Extends (t.unlink n) :=
  extends_modify t n ⟨rfl, rfl, rfl⟩ (by simp)

theorem remove_eq (t : Tree) (p : Path) :
    t.remove p = match if p.isRoot then none else t.find? p with
      | some n => (true, t.unlink n)
      | none => (false, t) := by
  unfold remove unlink
  split
  · rfl
  · cases t.find? p <;> rfl

theorem remove_cases (wf : t.WellFormed) (p : Path) :
    (∃ n, t.find? p = some n ∧ n ≠ rootId ∧ t.remove p = (true, t.unlink n)) ∨
      t.remove p = (false, t) := by
  rw [remove_eq]
  by_cases root : p.isRoot = true
  · simp [root]
  · cases found : t.find? p with
    | none => simp
    | some n =>
      refine .inl ⟨n, rfl, ?_, by simp [root]⟩
      rintro rfl
      obtain ⟨-, path⟩ := (find?_eq_some_iff wf).mp found
      rw [wf.root_path] at path
      simp [← path, Path.isRoot] at root

theorem WellFormed.unlink (wf : t.WellFormed) (other : n ≠ rootId) : (t.unlink n).WellFormed :=
  wf.modify n ⟨rfl, rfl, rfl⟩ (by simp) fun root => absurd root other

theorem attached_unlink (wf : t.WellFormed) (found : t.find? p = some n) :
    (t.unlink n).Attached k ↔ t.Attached k ∧ (t.node k).path.isUnder p = false := by
  obtain ⟨here, rfl⟩ := (find?_eq_some_iff wf).mp found
  have ext := extends_unlink t n
  have off (m : Nat) : ((t.unlink n).node m).linked =
      (if m = n ∧ m < t.size then false else (t.node m).linked) := by
    unfold unlink
    rw [node_modify]
    split <;> rfl
  constructor
  · intro attached
    have known : k < t.size := by simpa [unlink] using attached.known
    have before := ext.attached_of wf known attached
    refine ⟨before, ?_⟩
    rw [Bool.eq_false_iff]
    intro under
    have gone : ((t.unlink n).node n).linked = false := by
      rw [off, if_pos ⟨rfl, here.known⟩]
    rcases wf.mem_lineage_of_isUnder here k known before under with rfl | member
    · rw [attached.linked] at gone
      cases gone
    · rw [attached.above n ((ext.same k known).lineage ▸ member)] at gone
      cases gone
  · rintro ⟨before, apart⟩
    have other (m : Nat) (under : (t.node k).path.isUnder (t.node m).path = true) : m ≠ n := by
      rintro rfl
      rw [apart] at under
      cases under
    refine ⟨ext.known before.known, ?_, fun m member => ?_⟩
    · rw [off, if_neg fun h => other k (Path.isUnder_refl _) h.1]
      exact before.linked
    · rw [(ext.same k before.known).lineage] at member
      rw [off, if_neg fun h => other m (wf.isUnder_of_mem_lineage before.known m member) h.1]
      exact before.above m member

theorem node_unlink (t : Tree) (n k : Nat) :
    (t.unlink n).node k =
      if k = n ∧ k < t.size then { t.node k with linked := false } else t.node k :=
  node_modify t n k _

theorem find?_unlink (wf : t.WellFormed) (found : t.find? p = some n) (other : n ≠ rootId)
    (q : Path) : (t.unlink n).find? q = if q.isUnder p then none else t.find? q := by
  have path (k : Nat) : ((t.unlink n).node k).path = (t.node k).path := by
    rw [node_unlink]
    split <;> rfl
  ext k
  rw [find?_eq_some_iff (wf.unlink other), attached_unlink wf found, path]
  split
  next under =>
    constructor
    · rintro ⟨⟨-, apart⟩, rfl⟩
      rw [under] at apart
      cases apart
    · exact nofun
  next apart =>
    rw [find?_eq_some_iff wf]
    constructor
    · rintro ⟨⟨there, -⟩, here⟩
      exact ⟨there, here⟩
    · rintro ⟨there, here⟩
      exact ⟨⟨there, by simpa [here] using apart⟩, here⟩

end Tree

end DistFs
