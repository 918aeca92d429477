import DistFs.Cluster
import DistFs.Failure
/-!
# Storage servers joining a cluster

A storage server that joins binds its two interfaces, registers the files it holds, gives up those
that the cluster has already, and tidies its directories.
-/

namespace DistFs

structure Member where
  name : String
  duplicates : List Path
deriving DecidableEq

namespace Cluster

def dropDuplicates (name : String) : List Path → Servers → Except Error Unit × Servers
  | [], s => (.ok (), s)
  | p :: rest, s =>
    match s.deleteOn name p with
    | (.ok _, s) => dropDuplicates name rest s
    | (.error e, s) => (.error e, s)

def join (c : Cluster) (name registration : String) : Except Error (List Path) × Cluster :=
  match c.servers.listFiles name with
  | .error e => (.error e, c)
  | .ok files =>
    let container : Container :=
      ⟨.remote (storageEndpoint name), .remote (commandEndpoint name)⟩
    match c.registerAt registration container files with
    | (.error e, c) => (.error e, c)
    | (.ok duplicates, c) =>
      match dropDuplicates name duplicates c.servers with
      | (.error e, servers) => (.error e, { c with servers })
      | (.ok _, servers) =>
        let (result, servers) := servers.pruneOn name
        (result.map fun _ => duplicates, { c with servers })

def stopServer (c : Cluster) (name : String) : Cluster :=
  (c.unbind (storageEndpoint name)).unbind (commandEndpoint name)

/-- Starts a storage server. If it cannot join, nothing of it stays bound. -/
def startServer (c : Cluster) (name registration : String) : Except Error Member × Cluster :=
  match c.bind (storageEndpoint name) (.storage (.direct name)) with
  | .error e => (.error e, c)
  | .ok (_, c) =>
    match c.bind (commandEndpoint name) (.command (.direct name)) with
    | .error e => (.error e, c.unbind (storageEndpoint name))
    | .ok (_, c) =>
      match c.join name registration with
      | (.ok duplicates, c) => (.ok ⟨name, duplicates⟩, c)
      | (.error e, c) => (.error e, c.stopServer name)

/-! ## Starting from a configuration -/

def addConfigured (here : Spot) (config : ClusterConfig) (storage : StorageConfig) (c : Cluster) :
    Except Failure Member × Cluster :=
  match MountedStore.mount c.servers.host here storage.root with
  | .error e => (.error ((Failure.ofError e).within s!"Storage server '{storage.name}'"), c)
  | .ok store =>
    let c := { c with servers := c.servers.addServer storage.name { backend := .mounted store } }
    match c.startServer storage.name config.naming.registrationEndpoint with
    | (.ok member, c) => (.ok member, c)
    | (.error e, c) =>
      (.error ((Failure.ofError e).within s!"Failed to register storage server '{storage.name}'"),
        c)

def stopAll (c : Cluster) (members : List Member) : Cluster :=
  (members.reverse.foldl (fun c member => c.stopServer member.name) c).stop

/-- Has the configured servers join one after the other. When two hold the same path, the first
keeps it. -/
def addAll (here : Spot) (config : ClusterConfig) :
    List StorageConfig → List Member → Cluster → Except Failure (List Member) × Cluster
  | [], members, c => (.ok members, c)
  | storage :: rest, members, c =>
    match c.addConfigured here config storage with
    | (.ok member, c) => addAll here config rest (members ++ [member]) c
    | (.error f, c) => (.error f, c.stopAll members)

def launch (host : HostFiles) (here : Spot) (config : ClusterConfig) :
    Except Failure (Cluster × List Member) × HostFiles :=
  match NamingServer.create config.naming with
  | .error e => (.error (.ofError e), host)
  | .ok naming =>
    match ({ naming, servers := { host } } : Cluster).start with
    | .error e => (.error (.ofError e), host)
    | .ok c =>
      let (members, c) := addAll here config config.storage [] c
      (members.map (c, ·), c.servers.host)

end Cluster

end DistFs
