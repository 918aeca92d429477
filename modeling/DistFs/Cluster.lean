import DistFs.Config
import DistFs.Locking
import DistFs.Replication
/-!
# The cluster and its naming server

The naming server knows every path and which containers hold its file. It locks paths for its
clients, has files made and removed on the storage servers, and takes new storage servers in.
-/

namespace DistFs

structure NamingServer where
  config : NamingConfig := {}
  catalog : Catalog
  registered : List String := []
  accepting : Bool := false
  stopped : Bool := false

def NamingServer.create (config : NamingConfig) : Except Error NamingServer := do
  config.validate
  return { config, catalog := .empty config.replicationThreshold.toNat }

def NamingServer.registeredCount (naming : NamingServer) : Nat := naming.registered.length / 2

structure Cluster where
  naming : NamingServer
  servers : Servers := {}

namespace Cluster

def catalog (c : Cluster) : Catalog := c.naming.catalog

def tree (c : Cluster) : Tree := c.catalog.tree

def setCatalog (c : Cluster) (catalog : Catalog) : Cluster :=
  { c with naming := { c.naming with catalog } }

def setTree (c : Cluster) (tree : Tree) (servers : Servers) : Cluster :=
  { c.setCatalog { c.catalog with tree } with servers }

/-! ## Locks -/

def unlock (c : Cluster) (p : Path) (mode : LockMode) : Except Error Unit × Cluster :=
  let (result, catalog) := c.catalog.unlock p mode
  (result, c.setCatalog catalog)

/-- What follows the grant of a lock. A reader counts towards replication; a writer has the copies
consolidated, and loses the lock again if that fails. -/
def afterGrant (c : Cluster) (p : Path) (mode : LockMode) (target : NodeId) :
    Except Error Unit × Cluster :=
  match mode with
  | .shared =>
    let (_, tree, servers) := c.tree.recordRead target c.servers
    (.ok (), c.setTree tree servers)
  | .exclusive =>
    match c.tree.consolidate target c.servers with
    | (.ok _, tree, servers) => (.ok (), c.setTree tree servers)
    | (.error e, tree, servers) => (.error e, ((c.setTree tree servers).unlock p mode).2)

def conclude (c : Cluster) (p : Path) (mode : LockMode) :
    LockAnswer × Catalog → LockAnswer × Cluster
  | (.granted target, catalog) =>
    match (c.setCatalog catalog).afterGrant p mode target with
    | (.ok _, c) => (.granted target, c)
    | (.error e, c) => (.failed e, c)
  | (answer, catalog) => (answer, c.setCatalog catalog)

def lock (c : Cluster) (p : Path) (mode : LockMode) (ticket : Ticket) : LockAnswer × Cluster :=
  if c.naming.stopped then (.failed (.lockInterrupted p), c)
  else c.conclude p mode (c.catalog.lock p mode ticket)

def resume (c : Cluster) (a : Acquisition) (ticket : Ticket) : LockAnswer × Cluster :=
  c.conclude a.path a.mode (c.catalog.resume a ticket)

/-! ## Looking around -/

def isDirectory (c : Cluster) (p : Path) : Except Error Bool :=
  (c.tree.get p).map fun n => !(c.tree.node n).isFile

def list (c : Cluster) (p : Path) : Except Error (List Name) := c.tree.entries p

def storageOf (c : Cluster) (p : Path) : Except Error Handle × Cluster :=
  match c.tree.get p with
  | .error e => (.error e, c)
  | .ok n =>
    let node := c.tree.node n
    if !node.isFile then (.error (.notAFile p), c)
    else match node.replicas[node.nextRead.toNat % node.replicas.length]? with
      | none => (.error (.notFound p), c)
      | some replica =>
        let tree := c.tree.modify n ({ · with nextRead := node.nextRead + 1 })
        (.ok replica.storage, c.setTree tree c.servers)

/-! ## Making and removing entries -/

/-- The directory that a new entry would be in; none for the root. -/
def creationParent (c : Cluster) (p : Path) : Except Error (Option NodeId) := do
  match p.parent? with
  | none => return none
  | some parentPath =>
    let parent ← c.tree.get parentPath
    if (c.tree.node parent).isFile then throw (.notADirectory parentPath)
    return some parent

def placeFor (t : Tree) (parent : NodeId) : Option (Container × Bool) × Tree :=
  match (t.node parent).home with
  | some home => (some (home, false), t)
  | none => t.takeAvailable []

/-- Makes a file; `false` if there is something already, or the storage server refuses. -/
def createFile (c : Cluster) (p : Path) : Except Error Bool × Cluster :=
  match c.creationParent p with
  | .error e => (.error e, c)
  | .ok none => (.ok false, c)
  | .ok (some parent) =>
    if c.tree.contains p then (.ok false, c)
    else if c.naming.registered = [] then (.error .noStorage, c)
    else match placeFor c.tree parent with
      | (none, _) => (.error .noStorage, c)
      | (some (container, fromPool), tree) =>
        match c.servers.create container.command p with
        | (.ok true, servers) =>
          match tree.add p .file (some container) with
          | .ok (_, tree) => (.ok true, c.setTree tree servers)
          | .error e => (.error e, c.setTree tree servers)
        | (refused, servers) =>
          (refused, c.setTree (if fromPool then tree.returnToPool container else tree) servers)

def createDirectory (c : Cluster) (p : Path) : Except Error Bool × Cluster :=
  match c.creationParent p with
  | .error e => (.error e, c)
  | .ok none => (.ok false, c)
  | .ok (some _) =>
    if c.tree.contains p then (.ok false, c)
    else match c.tree.add p .directory none with
      | .ok (_, tree) => (.ok true, c.setTree tree c.servers)
      | .error e => (.error e, c)

def deleteOnAll (p : Path) : List Container → Servers → Except Error Unit × Servers
  | [], s => (.ok (), s)
  | c :: rest, s =>
    match s.delete c.command p with
    | (.ok _, s) => deleteOnAll p rest s
    | (.error e, s) => (.error e, s)

def delete (c : Cluster) (p : Path) : Except Error Bool × Cluster :=
  if p.isRoot then (.ok false, c)
  else match c.tree.containersUnder p with
    | .error e => (.error e, c)
    | .ok containers =>
      match deleteOnAll p containers c.servers with
      | (.error e, servers) => (.error e, { c with servers })
      | (.ok _, servers) =>
        let (removed, tree) := c.tree.remove p
        (.ok removed, c.setTree tree servers)

/-! ## Registration -/

inductive Offer where
  | skipped
  | added
  | duplicate
deriving DecidableEq

/-- Records one file of a container, unless the tree has no place for it. The root is passed
over. -/
def recordFile (container : Container) (p : Path) (t : Tree) : Except Error Offer × Tree :=
  if p.isRoot then (.ok .skipped, t)
  else if t.contains p then (.ok .duplicate, t)
  else match t.register p container with
    | (.ok _, t) => (.ok .added, t)
    | (.error (.alreadyExists _), t) | (.error (.notADirectory _), t) => (.ok .duplicate, t)
    | (.error e, t) => (.error e, t)

def recordFiles (container : Container) :
    List Path → Tree → Except Error (List (Path × Offer)) × Tree
  | [], t => (.ok [], t)
  | p :: rest, t =>
    match recordFile container p t with
    | (.error e, t) => (.error e, t)
    | (.ok offer, t) =>
      let (offers, t) := recordFiles container rest t
      (offers.map ((p, offer) :: ·), t)

def register (c : Cluster) (container : Container) (files : List Path) :
    Except Error (List Path) × Cluster :=
  let (storage, command) := container.endpoints
  if storage ∈ c.naming.registered ∨ command ∈ c.naming.registered then
    (.error (.alreadyRegistered container.text), c)
  else
    let endpoints := if storage = command then [storage] else [storage, command]
    let c := { c with naming := { c.naming with registered := c.naming.registered ++ endpoints } }
    match recordFiles container files c.tree with
    | (.error e, tree) => (.error e, c.setTree tree c.servers)
    | (.ok offers, tree) =>
      let tree := if offers.any (·.2 = .added) then tree else tree.addToPool container
      (.ok ((offers.filter (·.2 = .duplicate)).map Prod.fst), c.setTree tree c.servers)

/-! ## Serving the network -/

def setNetwork (c : Cluster) (network : Network) : Cluster :=
  { c with servers := { c.servers with network } }

def bind (c : Cluster) (endpoint : String) (target : Target) :
    Except Error (Binding × Cluster) := do
  let (binding, network) ← c.servers.network.bind endpoint target
  return (binding, c.setNetwork network)

def unbind (c : Cluster) (endpoint : String) : Cluster :=
  c.setNetwork (c.servers.network.unbind endpoint)

def start (c : Cluster) : Except Error Cluster := do
  if c.naming.accepting then return c
  let (_, c) ← c.bind c.naming.config.registrationEndpoint .registration
  return { c with naming := { c.naming with accepting := true } }

/-- Stops the naming server. Nobody gets a lock any more, and those who wait are turned away. -/
def stop (c : Cluster) : Cluster :=
  let c := if c.naming.accepting then c.unbind c.naming.config.registrationEndpoint else c
  { c with naming := { c.naming with
      catalog := c.catalog.interrupt.2, stopped := true, accepting := false } }

def serve (target : Target) (request : Request) (c : Cluster) : Except Error Reply × Cluster :=
  match target, request with
  | .registration, .register storage command files =>
    let (result, c) := c.register ⟨.remote storage, .remote command⟩ files
    (result.map .paths, c)
  | _, _ =>
    let (result, servers) := Servers.serve c.servers.reach target request c.servers
    (result, { c with servers })

def registerAt (c : Cluster) (endpoint : String) (container : Container) (files : List Path) :
    Except Error (List Path) × Cluster :=
  let (storage, command) := container.endpoints
  let request := .register storage command files
  match c.servers.network.exchange endpoint request serve (c.setNetwork c.servers.network.dial) with
  | (.ok (.paths duplicates), c) => (.ok duplicates, c)
  | (.ok reply, c) => (.error (Network.unexpected request reply), c)
  | (.error e, c) => (.error e, c)

end Cluster

end DistFs
