import DistFs.ConfigFile
import DistFs.Failure
import DistFs.HostFiles
/-!
# What a cluster is started with

The configuration file, if one is given, and the storage servers named besides it.
-/

namespace DistFs

def StorageConfig.ofArgument (arg : String) : Except Failure StorageConfig :=
  let name := arg.toList.takeWhile (· ≠ '=')
  match name, arg.toList.dropWhile (· ≠ '=') with
  | _ :: _, '=' :: c :: root => .ok ⟨String.ofList name, String.ofList (c :: root)⟩
  | _, _ => .error (.ofText s!"expected name=dir, got '{arg}'")

namespace ClusterConfig

def readFile (host : HostFiles) (here : Spot) (file : String) : Except Error ClusterConfig :=
  let unreadable (fault : HostFault) : Except Error ClusterConfig :=
    .error (.config s!"cannot read {file}: {fault.text}")
  match host.find here file with
  | .error fault => unreadable fault
  | .ok (_, .directory) => unreadable .isADirectory
  | .ok (_, .file contents) => ofBytes contents

def load (host : HostFiles) (here : Spot) (file : Option String) (more : List StorageConfig) :
    Except Failure ClusterConfig := do
  let config ← match file with
    | none => .ok {}
    | some file => (readFile host here file).mapError fun e =>
        (Failure.ofError e).within s!"Failed to load config {file}"
  let config := { config with storage := config.storage ++ more }
  config.validate.mapError Failure.ofError
  if config.storage = [] then
    throw (.ofText "no storage servers: pass --storage name=dir or list them in --config")
  return config

end ClusterConfig

end DistFs
