import DistFs.Container
import DistFs.Error
/-!
# The directory tree

The naming server keeps one node for every directory and file. Nodes are numbered in the order of
their creation, the root being node 0, and are never reused: a removed node is only unlinked from
its directory, so whoever still holds or awaits its lock finds it unchanged.
-/

namespace DistFs

abbrev NodeId := Nat

inductive NodeKind where
  | root
  | directory
  | file
deriving DecidableEq, Repr

structure Node where
  path : Path
  kind : NodeKind
  /-- The directories the node was created under, the root first. -/
  lineage : List NodeId := []
  linked : Bool := true
  home : Option Container := none
  /-- The containers with a copy of a file, the authoritative one first. -/
  replicas : List Container := []
  reads : Nat := 0
  nextRead : UInt64 := 0

namespace Node

def isFile (node : Node) : Bool := node.kind = .file

def parent? (node : Node) : Option NodeId := node.lineage.getLast?

instance : Inhabited Node := ⟨{ path := .root, kind := .root }⟩

end Node

structure Tree where
  nodes : Array Node
  /-- The containers that registered without a file, the oldest first. -/
  pool : List Container := []
  /-- A file is replicated on every so many shared grants. -/
  threshold : Nat

namespace Tree

def empty (threshold : Nat) : Tree := { nodes := #[default], threshold }

def rootId : NodeId := 0

def size (t : Tree) : Nat := t.nodes.size

def node (t : Tree) (n : NodeId) : Node := t.nodes.getD n default

def modify (t : Tree) (n : NodeId) (change : Node → Node) : Tree :=
  { t with nodes := t.nodes.modify n change }

def push (t : Tree) (node : Node) : NodeId × Tree := (t.size, { t with nodes := t.nodes.push node })

def lists (t : Tree) (n m : NodeId) : Bool :=
  n < m && (t.node m).linked && (t.node m).parent? = some n

def children (t : Tree) (n : NodeId) : List NodeId :=
  ((List.range t.size).filter (t.lists n)).mergeSort fun a b => (t.node a).path ≤ (t.node b).path

def child? (t : Tree) (n : NodeId) (name : Name) : Option NodeId :=
  (List.range t.size).find? fun m => t.lists n m && (t.node m).path.last? = some name

/-! ## Lookup -/

def find? (t : Tree) (p : Path) : Option NodeId := p.names.foldlM t.child? rootId

def get (t : Tree) (p : Path) : Except Error NodeId :=
  match t.find? p with
  | some n => .ok n
  | none => .error (.notFound p)

def contains (t : Tree) (p : Path) : Bool := (t.find? p).isSome

def entries (t : Tree) (p : Path) : Except Error (List Name) := do
  let n ← t.get p
  if (t.node n).isFile then throw (.notADirectory p)
  return (t.children n).filterMap fun m => (t.node m).path.last?

/-! ## Changing the tree -/

def insert (t : Tree) (n : NodeId) (node : Node) : NodeId × Tree :=
  t.push { node with lineage := (t.node n).lineage ++ [n] }

/-- Adds a node to an existing directory. It lives in the given container, or else where its
directory is at home; a file has to live somewhere. -/
def add (t : Tree) (p : Path) (kind : NodeKind) (container : Option Container) :
    Except Error (NodeId × Tree) := do
  match p.parent?, p.last? with
  | some parentPath, some name =>
    let parent ← t.get parentPath
    if (t.node parent).isFile then throw (.notADirectory parentPath)
    if (t.child? parent name).isSome then throw (.alreadyExists p)
    let home := container <|> (t.node parent).home
    match kind, home with
    | .root, _ => throw (.invalidPath p.text "cannot add a root")
    | .directory, _ => return t.insert parent { path := p, kind, home }
    | .file, some home => return t.insert parent { path := p, kind, replicas := [home] }
    | .file, none => throw .noStorage
  | _, _ => throw (.alreadyExists p)

def remove (t : Tree) (p : Path) : Bool × Tree :=
  if p.isRoot then (false, t)
  else match t.find? p with
    | some n => (true, t.modify n ({ · with linked := false }))
    | none => (false, t)

def descend (container : Container) : List Name → NodeId → Tree → Except Error NodeId × Tree
  | [], n, t => (.ok n, t)
  | name :: names, n, t =>
    match t.child? n name with
    | some m =>
      if (t.node m).isFile then (.error (.notADirectory (t.node m).path), t)
      else descend container names m t
    | none =>
      let (m, t) := t.insert n
        { path := (t.node n).path.child name, kind := .directory, home := some container }
      descend container names m t

def register (t : Tree) (p : Path) (container : Container) : Except Error NodeId × Tree :=
  let t := t.modify rootId fun root => { root with home := root.home <|> some container }
  match p.names.getLast? with
  | none => (.error (.alreadyExists p), t)
  | some name =>
    match t.descend container p.names.dropLast rootId with
    | (.error e, t) => (.error e, t)
    | (.ok n, t) =>
      if (t.child? n name).isSome then (.error (.alreadyExists p), t)
      else
        let (m, t) := t.insert n { path := p, kind := .file, replicas := [container] }
        (.ok m, t)

/-! ## Walking the tree -/

def toll : Nat → Nat
  | 0 => 1
  | k + 1 => toll k + toll k

theorem toll_pos : ∀ k, 0 < toll k
  | 0 => Nat.one_pos
  | k + 1 => Nat.add_pos_left (toll_pos k) (toll k)

/-- Counts what a walk may still visit: a node weighs more than all younger nodes together. -/
def weight (t : Tree) : List NodeId → Nat
  | [] => 0
  | n :: rest => toll (t.size - n) + t.weight rest

theorem weight_append (t : Tree) (a b : List NodeId) :
    t.weight (a ++ b) = t.weight a + t.weight b := by
  induction a with
  | nil => simp [weight]
  | cons n rest later =>
      rw [List.cons_append, weight, weight, later, Nat.add_assoc]

theorem weight_perm (t : Tree) {a b : List NodeId} (same : a.Perm b) : t.weight a = t.weight b := by
  induction same with
  | nil => rfl
  | cons n _ rest => rw [weight, weight, rest]
  | swap m n rest => rw [weight, weight, weight, weight, Nat.add_left_comm]
  | trans _ _ first second => rw [first, second]

theorem weight_younger (t : Tree) {n : Nat} {p : Nat → Bool} (younger : ∀ m, p m → n < m) :
    ∀ k, n < k → k ≤ t.size →
      t.weight ((List.range k).filter p) + toll (t.size - k + 1) ≤ toll (t.size - n)
  | 0, h, _ => absurd h (Nat.not_lt_zero n)
  | k + 1, h, bound => by
    have shift : t.size - (k + 1) + 1 = t.size - k := by omega
    rw [List.range_succ, List.filter_append, weight_append, shift]
    by_cases first : n = k
    · subst first
      have none : (List.range n).filter p = [] := by
        rw [List.filter_eq_nil_iff]
        intro m member holds
        exact Nat.lt_asymm (younger m holds) (List.mem_range.mp member)
      have self : ¬p n := fun holds => Nat.lt_irrefl n (younger n holds)
      simp [none, self, weight]
    · have earlier := weight_younger t younger k (by omega) (by omega)
      have last : t.weight ([k].filter p) ≤ toll (t.size - k) := by
        cases holds : p k <;> simp [holds, weight]
      rw [toll] at earlier
      omega

theorem weight_children (t : Tree) (n : Nat) : t.weight (t.children n) < toll (t.size - n) := by
  have same : t.weight (t.children n) = t.weight ((List.range t.size).filter (t.lists n)) :=
    t.weight_perm (List.mergeSort_perm _ _)
  have younger : ∀ m : Nat, t.lists n m → n < m := by
    intro m h
    simp only [lists, Bool.and_eq_true, decide_eq_true_eq] at h
    exact h.1.1
  rw [same]
  by_cases bound : n < t.size
  · have := t.weight_younger younger t.size bound (Nat.le_refl _)
    have := toll_pos (t.size - t.size + 1)
    omega
  · have none : (List.range t.size).filter (t.lists n) = [] := by
      rw [List.filter_eq_nil_iff]
      intro m member holds
      exact bound (Nat.lt_trans (younger m holds) (List.mem_range.mp member))
    rw [none]
    exact toll_pos _

def walk (t : Tree) : List NodeId → List NodeId
  | [] => []
  | n :: rest => n :: t.walk (t.children n ++ rest)
termination_by todo => t.weight todo
decreasing_by
  have := t.weight_children n
  rw [weight_append, weight]
  omega

def reachable (t : Tree) : List NodeId := t.walk [rootId]

/-! ## Containers -/

def containersUnder (t : Tree) (p : Path) : Except Error (List Container) := do
  let n ← t.get p
  return ((t.walk [n]).flatMap fun m => (t.node m).replicas).foldl
    (fun found c => if c.isIn found then found else found ++ [c]) []

def addToPool (t : Tree) (c : Container) : Tree :=
  if c.isIn t.pool then t else { t with pool := t.pool ++ [c] }

def returnToPool (t : Tree) (c : Container) : Tree :=
  if c.isIn t.pool then t else { t with pool := c :: t.pool }

/-- A container that is not excluded, and whether it came out of the pool. The pool goes first, then
the homes and replicas in the tree. -/
def takeAvailable (t : Tree) (excluded : List Container) : Option (Container × Bool) × Tree :=
  let wanted := fun c : Container => !c.isIn excluded
  match t.pool.find? wanted with
  | some c => (some (c, true), { t with pool := t.pool.eraseP wanted })
  | none =>
    let known := t.reachable.flatMap fun n => (t.node n).home.toList ++ (t.node n).replicas
    ((known.find? wanted).map (·, false), t)

end Tree

end DistFs
