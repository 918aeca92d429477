import DistFs.Config
import DistFs.Storage.Bytes
import DistFs.Text.Yaml.Writing
/-!
# Configuration files

The configuration of a cluster as a YAML document. What a file leaves out has its default, and what
it holds besides is ignored.
-/

namespace DistFs

open Yaml

namespace NamingConfig

def ofNode? (d : Document) (n : Node) : Option NamingConfig := do
  match ← d.fields? ["replication_threshold", "registration_endpoint"] n with
  | [threshold, endpoint] =>
    let default : NamingConfig := {}
    let replicationThreshold ← match threshold with
      | none => some default.replicationThreshold
      | some v => do
        let t ← d.natural? v
        if t < UInt32.size then some (UInt32.ofNat t) else none
    let registrationEndpoint ← match endpoint with
      | none => some default.registrationEndpoint
      | some v => d.text? v
    return { replicationThreshold, registrationEndpoint }
  | _ => none

end NamingConfig

namespace StorageConfig

def ofNode? (d : Document) (n : Node) : Option StorageConfig := do
  match ← d.fields? ["name", "root"] n with
  | [some name, some root] => return { name := ← d.text? name, root := ← d.text? root }
  | _ => none

end StorageConfig

namespace ClusterConfig

def ofDocument? (d : Document) : Option ClusterConfig := do
  match ← d.fields? ["naming", "storage"] d.root with
  | [naming, storage] =>
    let naming ← match naming with
      | none => some {}
      | some v => NamingConfig.ofNode? d v
    let storage ← match storage with
      | none => some []
      | some v => do (← d.items? v).mapM (StorageConfig.ofNode? d)
    return { naming, storage }
  | _ => none

def malformed : Error := .config "malformed document"

def ofBytes (contents : Bytes) : Except Error ClusterConfig :=
  match String.fromUTF8? ⟨contents.toArray⟩ >>= Document.parse >>= ofDocument? with
  | none => .error malformed
  | some config => config.validate.map fun _ => config

def toYaml (c : ClusterConfig) : String :=
  let storage := match c.storage with
    | [] => "storage: []\n"
    | servers => "storage:\n" ++ String.join (servers.map fun s =>
        "- name: " ++ writeText s.name ++ "  root: " ++ writeText s.root)
  "naming:\n  replication_threshold: " ++ toString c.naming.replicationThreshold.toNat ++
    "\n  registration_endpoint: " ++ writeText c.naming.registrationEndpoint ++ storage

end ClusterConfig

end DistFs
