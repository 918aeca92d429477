import DistFs.Lock
import DistFs.Tree
/-!
# Locking paths

A shared lock on a path takes the node there and nothing else. An exclusive lock takes every
directory above the path shared, root first, then the path and everything below it exclusively,
level by level. Nodes are thus always taken in the order of their depth, and of their paths within
one depth, so that requests cannot wait for each other in a ring.
-/

namespace DistFs

/-- The locks of all nodes; a node without an entry has never been locked. -/
structure LockTable where
  locks : Array Lock := #[]

namespace LockTable

def get (table : LockTable) (n : NodeId) : Lock := table.locks.getD n {}

def set (table : LockTable) (n : NodeId) (l : Lock) : LockTable :=
  if h : n < table.locks.size then ⟨table.locks.set n l h⟩
  else ⟨(table.locks ++ Array.replicate (n - table.locks.size) ({} : Lock)).push l⟩

theorem get_set (table : LockTable) (n m : Nat) (l : Lock) :
    (table.set n l).get m = if m = n then l else table.get m := by
  unfold set get
  split <;> simp only [Array.getD_eq_getD_getElem?] <;> grind

def releaseAll (table : LockTable) :
    List (NodeId × LockMode) → Option (NodeId × LockMode) × LockTable
  | [] => (none, table)
  | (n, mode) :: rest =>
    match (table.get n).release mode with
    | some l => (table.set n l).releaseAll rest
    | none => let (_, table) := table.releaseAll rest; (some (n, mode), table)

end LockTable

structure Acquisition where
  path : Path
  mode : LockMode
  target : NodeId
  taken : List (NodeId × LockMode) := []
  /-- The nodes known to be taken next; the request waits for the first of them. -/
  pending : List (NodeId × LockMode)
deriving DecidableEq

namespace Acquisition

def start (t : Tree) (p : Path) (mode : LockMode) (target : NodeId) : Acquisition :=
  { path := p, mode, target
    pending := match mode with
      | .shared => [(target, .shared)]
      | .exclusive => (t.node target).lineage.map (·, .shared) ++ [(target, .exclusive)] }

/-- Takes a node. What lies in it when it is taken exclusively comes last. -/
def take (a : Acquisition) (t : Tree) (n : NodeId) (mode : LockMode)
    (rest : List (NodeId × LockMode)) :
    Acquisition :=
  { a with
    taken := a.taken ++ [(n, mode)]
    pending := rest ++ match mode with
      | .shared => []
      | .exclusive => (t.children n).map (·, .exclusive) }

end Acquisition

inductive LockProgress where
  | granted (a : Acquisition)
  | waiting (a : Acquisition)
  | interrupted (a : Acquisition) (n : NodeId)

namespace LockTable

def advance (table : LockTable) (t : Tree) (ticket : Ticket) (a : Acquisition) :
    LockProgress × LockTable :=
  match _h : a.pending with
  | [] => (.granted a, table)
  | (n, mode) :: rest =>
    match (table.get n).acquire mode ticket with
    | (.granted, l) => (table.set n l).advance t ticket (a.take t n mode rest)
    | (.waiting, l) => (.waiting a, table.set n l)
    | (.refused, _) => (.interrupted a n, table)
termination_by t.weight (a.pending.map Prod.fst)
decreasing_by
  have below := t.weight_children n
  cases mode <;>
    simp_all only [Acquisition.take, List.map_append, Tree.weight_append, List.map_map,
      List.map_nil, List.map_cons, Function.comp_def, List.map_id_fun'] <;>
    simp only [Tree.weight, id] at * <;>
    omega

def resume (table : LockTable) (t : Tree) (ticket : Ticket) (a : Acquisition) :
    LockProgress × LockTable :=
  match a.pending with
  | [] => (.granted a, table)
  | (n, mode) :: rest =>
    match (table.get n).notice ticket with
    | (.granted, l) => (table.set n l).advance t ticket (a.take t n mode rest)
    | (.waiting, _) => (.waiting a, table)
    | (.interrupted, _) => (.interrupted a n, table)

end LockTable

structure Hold where
  path : Path
  target : NodeId
  taken : List (NodeId × LockMode)
deriving DecidableEq

structure Catalog where
  tree : Tree
  locks : LockTable := {}
  /-- The granted exclusive locks, the oldest first. -/
  holds : List Hold := []

inductive LockAnswer where
  | granted (target : NodeId)
  | waiting (a : Acquisition)
  | failed (e : Error)
deriving DecidableEq

namespace Catalog

def empty (threshold : Nat) : Catalog := { tree := .empty threshold }

/-- Records a granted lock; gives up what an interrupted request has taken, latest first. -/
def conclude (c : Catalog) : LockProgress × LockTable → LockAnswer × Catalog
  | (.granted a, locks) =>
    let holds := match a.mode with
      | .shared => c.holds
      | .exclusive => c.holds ++ [⟨a.path, a.target, a.taken⟩]
    (.granted a.target, { c with locks, holds })
  | (.waiting a, locks) => (.waiting a, { c with locks })
  | (.interrupted a n, locks) =>
    (.failed (.lockInterrupted (c.tree.node n).path),
      { c with locks := (locks.releaseAll a.taken.reverse).2 })

def lock (c : Catalog) (p : Path) (mode : LockMode) (ticket : Ticket) : LockAnswer × Catalog :=
  match c.tree.get p with
  | .error e => (.failed e, c)
  | .ok target => c.conclude (c.locks.advance c.tree ticket (.start c.tree p mode target))

def resume (c : Catalog) (a : Acquisition) (ticket : Ticket) : LockAnswer × Catalog :=
  c.conclude (c.locks.resume c.tree ticket a)

def isWoken (c : Catalog) (a : Acquisition) (ticket : Ticket) : Bool :=
  match a.pending with
  | [] => true
  | (n, _) :: _ => ((c.locks.get n).notice ticket).1 ≠ .waiting

def abandon (c : Catalog) (a : Acquisition) (ticket : Ticket) : Catalog :=
  match a.pending with
  | [] => c
  | (n, _) :: _ => { c with locks := c.locks.set n ((c.locks.get n).abandon ticket) }

def giveUp (c : Catalog) (taken : List (NodeId × LockMode)) : Except Error Unit × Catalog :=
  match c.locks.releaseAll taken.reverse with
  | (none, locks) => (.ok (), { c with locks })
  | (some (n, mode), locks) =>
    (.error (.notLocked (c.tree.node n).path mode.text), { c with locks })

def holdToRelease? (c : Catalog) (p : Path) : Option Nat :=
  (c.holds.findIdx? fun h => h.path = p ∧ c.tree.find? p ≠ some h.target)
    <|> c.holds.findIdx? fun h => h.path = p

def unlock (c : Catalog) (p : Path) : LockMode → Except Error Unit × Catalog
  | .shared =>
    match c.tree.get p with
    | .error e => (.error e, c)
    | .ok n => c.giveUp [(n, .shared)]
  | .exclusive =>
    match (c.holdToRelease? p).bind fun i => c.holds[i]?.map (i, ·) with
    | some (i, h) => { c with holds := c.holds.eraseIdx i }.giveUp h.taken
    | none =>
      match c.tree.get p with
      | .error e => (.error e, c)
      | .ok _ => (.error (.notLocked p LockMode.exclusive.text), c)

def lockedPaths (c : Catalog) : List Path := Path.sort (c.holds.map (·.path))

def interrupt (c : Catalog) : Nat × Catalog :=
  let nodes := c.tree.reachable
  ((nodes.flatMap fun n => (c.locks.get n).queue).length,
    { c with locks := nodes.foldl (fun locks n => locks.set n (locks.get n).close) c.locks })

end Catalog

end DistFs
