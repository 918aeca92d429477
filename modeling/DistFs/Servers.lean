import DistFs.Network
import DistFs.Storage.Memory
import DistFs.Storage.Mounted
/-!
# Storage servers

All storage servers with what they keep, and the calls on them. A handle leads to a server either
directly or over the network, and the answer is the same.
-/

namespace DistFs

inductive Backend where
  | memory (store : MemoryStore)
  | mounted (store : MountedStore)

inductive CommandMode where
  | working
  | failing
  | refusing
deriving DecidableEq, Repr

structure Server where
  backend : Backend
  commands : CommandMode := .working
  dataWorks : Bool := true

structure Servers where
  servers : List (String × Server) := []
  host : HostFiles := {}
  network : Network := {}

namespace Servers

def find? (s : Servers) (name : String) : Option Server :=
  (s.servers.find? (·.1 = name)).map Prod.snd

def set (s : Servers) (name : String) (server : Server) : Servers :=
  { s with servers := s.servers.map fun e => if e.1 = name then (name, server) else e }

def addServer (s : Servers) (name : String) (server : Server) : Servers :=
  { s with servers := s.servers ++ [(name, server)] }

def memory? (s : Servers) (name : String) : Option MemoryStore :=
  match s.find? name with
  | some { backend := .memory store, .. } => some store
  | _ => none

def setMode (s : Servers) (name : String) (commands : Option CommandMode) (data : Option Bool) :
    Servers :=
  match s.find? name with
  | none => s
  | some server =>
    s.set name { server with
      commands := commands.getD server.commands, dataWorks := data.getD server.dataWorks }

def unreachable (endpoint : String) : Error := .communication s!"{endpoint} is unreachable"

/-! ## Data -/

def dataOf (s : Servers) (name : String) : Except Error Server :=
  match s.find? name with
  | some server =>
    if server.dataWorks then .ok server else .error (unreachable (storageEndpoint name))
  | none => .error (unreachable (storageEndpoint name))

def sizeOn (s : Servers) (name : String) (p : Path) : Except Error UInt64 := do
  match (← s.dataOf name).backend with
  | .memory store => store.size p
  | .mounted store => store.size s.host p

def readOn (s : Servers) (name : String) (p : Path) (offset length : UInt64) :
    Except Error Bytes := do
  match (← s.dataOf name).backend with
  | .memory store => store.read p offset length
  | .mounted store => store.read s.host p offset length

def writeOn (s : Servers) (name : String) (p : Path) (offset : UInt64) (w : Bytes) :
    Except Error Servers := do
  let server ← s.dataOf name
  match server.backend with
  | .memory store =>
    return s.set name { server with backend := .memory (← store.write p offset w) }
  | .mounted store => return { s with host := ← store.write s.host p offset w }

def listFiles (s : Servers) (name : String) : Except Error (List Path) := do
  match (← s.dataOf name).backend with
  | .memory store => return store.files.keys
  | .mounted store => store.listFiles s.host

def putOn (s : Servers) (name : String) (p : Path) (d : Bytes) : Except Error Unit × Servers :=
  match s.find? name with
  | some server =>
    match server.backend with
    | .memory store =>
      match store.put p d with
      | .ok store => (.ok (), s.set name { server with backend := .memory store })
      | .error e => (.error e, s)
    | .mounted _ => (.error (unreachable (storageEndpoint name)), s)
  | none => (.error (unreachable (storageEndpoint name)), s)

/-! ## Commands -/

def command (s : Servers) (name : String) (run : Server → Except Error Bool × Servers) :
    Except Error Bool × Servers :=
  match s.find? name with
  | none => (.error (unreachable (commandEndpoint name)), s)
  | some server =>
    match server.commands with
    | .failing => (.error (unreachable (commandEndpoint name)), s)
    | .refusing => (.ok false, s)
    | .working => run server

def keepMemory (s : Servers) (name : String) (server : Server) :
    Bool × MemoryStore → Except Error Bool × Servers
  | (done, store) => (.ok done, s.set name { server with backend := .memory store })

def keepHost (s : Servers) : Except Error Bool × HostFiles → Except Error Bool × Servers
  | (result, host) => (result, { s with host })

def createOn (s : Servers) (name : String) (p : Path) : Except Error Bool × Servers :=
  s.command name fun server =>
    match server.backend with
    | .memory store => s.keepMemory name server (store.create p)
    | .mounted store => s.keepHost (store.create s.host p)

def deleteOn (s : Servers) (name : String) (p : Path) : Except Error Bool × Servers :=
  s.command name fun server =>
    match server.backend with
    | .memory store => s.keepMemory name server (store.delete p)
    | .mounted store => s.keepHost (store.delete s.host p)

def receiveOn (s : Servers) (name : String) (p : Path) (d : Bytes) : Except Error Bool × Servers :=
  match s.find? name with
  | none => (.error (unreachable (commandEndpoint name)), s)
  | some server =>
    match server.backend with
    | .memory store => s.keepMemory name server (store.receive p d)
    | .mounted store => s.keepHost (store.receive s.host p d)

def refusesCopy (server : Server) (p : Path) : Bool :=
  match server.backend with
  | .memory _ => false
  | .mounted _ => p.isRoot

def pruneOn (s : Servers) (name : String) : Except Error Unit × Servers :=
  match s.find? name with
  | none => (.error (unreachable (commandEndpoint name)), s)
  | some server =>
    match server.backend with
    | .memory store => (.ok (), s.set name { server with backend := .memory store.prune })
    | .mounted store =>
      let (result, host) := store.prune s.host
      (result, { s with host })

/-! ## Calls through handles -/

def serveData (s : Servers) (name : String) : Request → Except Error Reply × Servers
  | .size p => ((s.sizeOn name p).map .size, s)
  | .read p offset length => ((s.readOn name p offset length).map .data, s)
  | .write p offset w =>
    match s.writeOn name p offset w with
    | .ok s => (.ok .unit, s)
    | .error e => (.error e, s)
  | request => (.error (Network.notServed request), s)

def flagged : Except Error Bool × Servers → Except Error Reply × Servers
  | (result, s) => (result.map .flag, s)

def copyOn (s : Servers) (name : String) (p : Path)
    (ask : Request → Servers → Except Error Reply × Servers) : Except Error Bool × Servers :=
  s.command name fun server =>
    if refusesCopy server p then (.ok false, s)
    else match ask (.size p) s with
      | (.ok (.size n), s) =>
        match ask (.read p 0 n) s with
        | (.ok (.data d), s) => s.receiveOn name p d
        | (.ok reply, s) => (.error (Network.unexpected (.read p 0 n) reply), s)
        | (.error e, s) => (.error e, s)
      | (.ok reply, s) => (.error (Network.unexpected (.size p) reply), s)
      | (.error e, s) => (.error e, s)

/-- Serves a request at what is bound at an endpoint. An endpoint may lead on to another one; after
`fuel` of them the call counts as lost. -/
def serve : Nat → Target → Request → Servers → Except Error Reply × Servers
  | _, .storage (.direct name), request, s => s.serveData name request
  | _, .command (.direct name), .create p, s => flagged (s.createOn name p)
  | _, .command (.direct name), .delete p, s => flagged (s.deleteOn name p)
  | fuel + 1, .command (.direct name), .copy p source, s =>
    flagged (s.copyOn name p (serve fuel (.storage (.remote source))))
  | fuel + 1, .storage (.remote endpoint), request, s =>
    if request.isData then
      let (result, s) := s.network.exchange endpoint request (serve fuel)
        { s with network := s.network.dial }
      (result.bind request.expect, s)
    else (.error (Network.notServed request), s)
  | fuel + 1, .command (.remote endpoint), request, s =>
    if request.isCommand then
      let (result, s) := s.network.exchange endpoint request (serve fuel)
        { s with network := s.network.dial }
      (result.bind request.expect, s)
    else (.error (Network.notServed request), s)
  | 0, .storage (.remote endpoint), request, s
  | 0, .command (.remote endpoint), request, s => (.error (Network.dropped endpoint request), s)
  | _, _, request, s => (.error (Network.notServed request), s)

def reach (s : Servers) : Nat := 2 * s.network.bindings.length + 4

def askStorage (h : Handle) (request : Request) (s : Servers) : Except Error Reply × Servers :=
  serve s.reach (.storage h) request s

def askCommand (h : Handle) (request : Request) (s : Servers) : Except Error Reply × Servers :=
  serve s.reach (.command h) request s

def size (s : Servers) (h : Handle) (p : Path) : Except Error UInt64 × Servers :=
  match askStorage h (.size p) s with
  | (.ok (.size n), s) => (.ok n, s)
  | (.ok reply, s) => (.error (Network.unexpected (.size p) reply), s)
  | (.error e, s) => (.error e, s)

def read (s : Servers) (h : Handle) (p : Path) (offset length : UInt64) :
    Except Error Bytes × Servers :=
  match askStorage h (.read p offset length) s with
  | (.ok (.data d), s) => (.ok d, s)
  | (.ok reply, s) => (.error (Network.unexpected (.read p offset length) reply), s)
  | (.error e, s) => (.error e, s)

def write (s : Servers) (h : Handle) (p : Path) (offset : UInt64) (w : Bytes) :
    Except Error Unit × Servers :=
  match askStorage h (.write p offset w) s with
  | (.ok .unit, s) => (.ok (), s)
  | (.ok reply, s) => (.error (Network.unexpected (.write p offset w) reply), s)
  | (.error e, s) => (.error e, s)

def flag (request : Request) : Except Error Reply × Servers → Except Error Bool × Servers
  | (.ok (.flag b), s) => (.ok b, s)
  | (.ok reply, s) => (.error (Network.unexpected request reply), s)
  | (.error e, s) => (.error e, s)

def create (s : Servers) (h : Handle) (p : Path) : Except Error Bool × Servers :=
  flag (.create p) (askCommand h (.create p) s)

def delete (s : Servers) (h : Handle) (p : Path) : Except Error Bool × Servers :=
  flag (.delete p) (askCommand h (.delete p) s)

/-- Has a server copy a file from another one. Over the network the other one is known by its
endpoint. -/
def copy (s : Servers) (h : Handle) (p : Path) (source : Handle) : Except Error Bool × Servers :=
  match h with
  | .direct name => s.copyOn name p (serve s.reach (.storage source))
  | .remote _ =>
    let request := .copy p source.storageEndpoint
    flag request (askCommand h request s)

/-- A call that is sent before its endpoint is unbound, and would be taken up after. It is lost if
the endpoint that got it was the one to stop, and otherwise served. -/
def sizeThenStop (s : Servers) (endpoint : String) (p : Path) (stopping : Option Binding) :
    Except Error UInt64 × Servers :=
  match s.network.find? endpoint, stopping with
  | none, _ => (.error (Network.notBound endpoint), s)
  | some _, none => s.size (.remote endpoint) p
  | some bound, some stopping =>
    let unbound := fun s : Servers => { s with network := s.network.unbind endpoint }
    if bound.serial = stopping.serial then
      (.error (Network.dropped endpoint (.size p)), unbound s)
    else
      let (result, s) := s.size (.remote endpoint) p
      (result, unbound s)

end Servers

end DistFs
