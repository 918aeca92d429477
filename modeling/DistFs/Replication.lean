import DistFs.Servers
import DistFs.Tree
/-!
# Replication

Reading spreads copies of a file over the storage servers, and locking it exclusively takes them
back, so that a writer finds one copy only.
-/

namespace DistFs

namespace Tree

/-- A further copy of a file, for which a server has been found. -/
structure Copying where
  target : Container
  fromPool : Bool
  source : Container
deriving DecidableEq, Repr

/-- Looks for a server that can keep a further copy, given those that keep one. -/
def beginCopy (t : Tree) : List Container → Option Copying × Tree
  | [] => (none, t)
  | source :: rest =>
    match t.takeAvailable (source :: rest) with
    | (none, t) => (none, t)
    | (some (target, fromPool), t) => (some { target, fromPool, source }, t)

/-- Enters a copy once the server has answered. The file may have other copies by then than when the
server was looked for. If there is no copy, a container from the pool goes back to its head. -/
def endCopy (t : Tree) (n : NodeId) (copying : Copying) :
    Except Error Bool → Option Container × Tree
  | .ok true =>
    (some copying.target, t.modify n fun node =>
      if copying.target.isIn node.replicas then node
      else { node with replicas := node.replicas ++ [copying.target] })
  | _ => (none, if copying.fromPool then t.returnToPool copying.target else t)

/-- Tries to have one more server keep a copy of a file. -/
def replicate (t : Tree) (n : NodeId) (replicas : List Container) (s : Servers) :
    Option Container × Tree × Servers :=
  let path := (t.node n).path
  match t.beginCopy replicas with
  | (none, t) => (none, t, s)
  | (some copying, t) =>
    let (answer, s) := s.copy copying.target.command path copying.source.storage
    let (copied, t) := t.endCopy n copying answer
    (copied, t, s)

/-- Counts a shared grant. The copies of the file are looked up when the count begins again. -/
def recordRead (t : Tree) (n : NodeId) (s : Servers) : Option Container × Tree × Servers :=
  let node := t.node n
  if !node.isFile then (none, t, s)
  else if node.reads + 1 < t.threshold then
    (none, t.modify n ({ · with reads := node.reads + 1 }), s)
  else (t.modify n ({ · with reads := 0 })).replicate n node.replicas s

/-- Deletes a file from the listed containers, going on after a failure; answers the first one. -/
def deleteFrom (p : Path) : List Container → Servers → Option Error × Servers
  | [], s => (none, s)
  | c :: rest, s =>
    let (result, s) := s.delete c.command p
    let (later, s) := deleteFrom p rest s
    match result with
    | .ok _ => (later, s)
    | .error e => (some e, s)

def consolidate (t : Tree) (n : NodeId) (s : Servers) : Except Error Nat × Tree × Servers :=
  let node := t.node n
  if !node.isFile then (.ok 0, t, s)
  else
    let removed := node.replicas.drop 1
    let t := t.modify n ({ · with replicas := node.replicas.take 1 })
    match deleteFrom node.path removed s with
    | (none, s) => (.ok removed.length, t, s)
    | (some e, s) => (.error e, t, s)

end Tree

end DistFs
