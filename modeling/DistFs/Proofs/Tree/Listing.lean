import DistFs.Tree
import DistFs.Proofs.PathMap
/-!
# The name space as a flat map

The rules of the name space, put down on a map from paths to entries: what is answered about a path,
what a new entry looks like, and which entries come and go. There are no nodes in a listing, and
nothing that leads from one entry to another.
-/

namespace DistFs

/-- What is known of a path. A directory may have a home; a file has replicas instead. -/
structure Entry where
  kind : NodeKind
  home : Option Container := none
  replicas : List Container := []
deriving DecidableEq

def Entry.isFile (e : Entry) : Bool := e.kind = .file

abbrev Listing := PathMap Entry

inductive TreeCall where
  | get (p : Path)
  | names (p : Path)
  | add (p : Path) (kind : NodeKind) (container : Option Container)
  | remove (p : Path)
  | register (p : Path) (c : Container)

inductive TreeAnswer where
  | node (answer : Except Error (Path × Entry))
  | names (answer : Except Error (List Name))
  | removed (answer : Bool)
deriving DecidableEq

namespace Listing

variable {l : Listing} {p q : Path} {c : Container}

def initial : Listing := PathMap.empty.insert .root { kind := .root }

/-! ## Answers -/

def entry (l : Listing) (p : Path) : Except Error Entry :=
  match l.get? p with
  | some e => .ok e
  | none => .error (.notFound p)

def isFile (l : Listing) (p : Path) : Bool := (l.get? p).any Entry.isFile

def names (l : Listing) (p : Path) : Except Error (List Name) :=
  match l.entry p with
  | .error e => .error e
  | .ok e =>
    if e.isFile then .error (.notADirectory p)
    else .ok ((l.keys.filter fun q => q.parent? = some p).filterMap Path.last?)

/-! ## New entries -/

def newEntry (l : Listing) (p : Path) (kind : NodeKind) (container : Option Container) :
    Except Error Entry :=
  match p.parent? with
  | none => .error (.alreadyExists p)
  | some q =>
    match l.entry q with
    | .error e => .error e
    | .ok d =>
      if d.isFile then .error (.notADirectory q)
      else if l.contains p then .error (.alreadyExists p)
      else match kind, container <|> d.home with
        | .root, _ => .error (.invalidPath p.text "cannot add a root")
        | .directory, home => .ok { kind, home }
        | .file, some c => .ok { kind, replicas := [c] }
        | .file, none => .error .noStorage

def settle (l : Listing) (c : Container) : Listing :=
  match l.get? .root with
  | some e => l.insert .root { e with home := e.home <|> some c }
  | none => l

def obstacle (l : Listing) (p : Path) : Option Error :=
  match p.ancestors.find? l.isFile with
  | some q => some (.notADirectory q)
  | none => if l.contains p then some (.alreadyExists p) else none

def establish (l : Listing) (c : Container) (paths : List Path) : Listing :=
  paths.foldl (fun l q =>
    if l.contains q then l else l.insert q { kind := .directory, home := some c }) l

/-! ## Calls -/

def perform (l : Listing) : TreeCall → TreeAnswer × Listing
  | .get p => (.node ((l.entry p).map (p, ·)), l)
  | .names p => (.names (l.names p), l)
  | .add p kind container =>
    match l.newEntry p kind container with
    | .ok e => (.node (.ok (p, e)), l.insert p e)
    | .error e => (.node (.error e), l)
  | .remove p =>
    if p.isRoot then (.removed false, l)
    else (.removed (l.contains p), l.filter fun q => !q.isUnder p)
  | .register p c =>
    let l := l.settle c
    match l.obstacle p with
    | some e => (.node (.error e), l)
    | none =>
      let e : Entry := { kind := .file, replicas := [c] }
      (.node (.ok (p, e)), (l.establish c p.ancestors).insert p e)

def performAll (l : Listing) : List TreeCall → List TreeAnswer × Listing
  | [] => ([], l)
  | call :: calls =>
    let (answer, l) := l.perform call
    let (answers, l) := l.performAll calls
    (answer :: answers, l)

/-- The root is there, and above an entry there are only entries of directories. -/
structure Closed (l : Listing) : Prop where
  root : ∃ e, l.get? .root = some e ∧ e.kind = .root
  above : ∀ p, l.contains p = true → ∀ q ∈ p.ancestors, ∃ d, l.get? q = some d ∧ d.isFile = false
  sole : ∀ p e, l.get? p = some e → e.kind = .root → p = .root

theorem get?_settle (l : Listing) (c : Container) (q : Path) :
    (l.settle c).get? q =
      if q = .root then (l.get? q).map fun e => { e with home := e.home <|> some c }
      else l.get? q := by
  unfold settle
  cases there : l.get? .root with
  | none => by_cases root : q = .root <;> simp [root, there]
  | some e => by_cases root : q = .root <;> simp [root, there]

theorem get?_establish (l : Listing) (c : Container) (paths : List Path) (q : Path) :
    (l.establish c paths).get? q =
      (l.get? q <|> if q ∈ paths then some { kind := .directory, home := some c } else none) := by
  unfold establish
  induction paths generalizing l with
  | nil => simp
  | cons p paths ih =>
    rw [List.foldl_cons, ih]
    by_cases there : l.contains p = true
    · obtain ⟨e, listed⟩ := Option.isSome_iff_exists.mp there
      by_cases here : q = p
      · simp [there, here, listed]
      · simp [there, here]
    · have absent : l.get? p = none := by simpa [PathMap.contains] using there
      by_cases here : q = p
      · simp [there, here, absent]
      · simp [there, here]

theorem contains_establish {paths : List Path} (other : p ∉ paths) :
    (l.establish c paths).contains p = l.contains p := by
  rw [PathMap.contains, get?_establish, if_neg other, PathMap.contains]
  cases l.get? p <;> rfl

theorem Closed.contains_above (closed : l.Closed) (there : l.contains p = true) :
    ∀ q ∈ p.ancestors, l.contains q = true := by
  intro q above
  obtain ⟨d, listed, -⟩ := closed.above p there q above
  rw [PathMap.contains, listed, Option.isSome_some]

theorem establish_of_contains {paths : List Path} (there : ∀ q ∈ paths, l.contains q = true) :
    l.establish c paths = l := by
  unfold establish
  induction paths with
  | nil => rfl
  | cons p paths ih =>
    rw [List.foldl_cons, if_pos (there p List.mem_cons_self)]
    exact ih fun q member => there q (List.mem_cons_of_mem p member)

theorem names_sorted {names : List Name} (h : l.names p = .ok names) : names.Pairwise (· < ·) := by
  have listed : names = (l.keys.filter fun q => q.parent? = some p).filterMap Path.last? := by
    unfold Listing.names at h
    split at h
    · cases h
    · split at h
      · cases h
      · exact (Except.ok.inj h).symm
  rw [listed, List.pairwise_filterMap]
  apply (l.sorted_keys.filter _).imp_of_mem
  intro q r member member' before a last b last'
  have parent := of_decide_eq_true (List.mem_filter.mp member).2
  have parent' := of_decide_eq_true (List.mem_filter.mp member').2
  rw [Path.child_of_parent?_last? parent last, Path.child_of_parent?_last? parent' last'] at before
  exact Path.child_lt_child.mp before

end Listing

end DistFs
