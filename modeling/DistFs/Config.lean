import DistFs.Error
/-!
# Configuration

What a cluster is started from: the settings of the naming server, and the storage servers with the
directories that they serve.
-/

namespace DistFs

structure NamingConfig where
  replicationThreshold : UInt32 := 20
  registrationEndpoint : String := "naming.registration"
deriving DecidableEq

def NamingConfig.validate (c : NamingConfig) : Except Error Unit :=
  if c.replicationThreshold = 0 then .error (.config "replication_threshold must be at least 1")
  else if c.registrationEndpoint = "" then
    .error (.config "registration_endpoint must not be empty")
  else .ok ()

structure StorageConfig where
  name : String
  root : String
deriving DecidableEq

structure ClusterConfig where
  naming : NamingConfig := {}
  storage : List StorageConfig := []
deriving DecidableEq

namespace ClusterConfig

def validateStorage (i : Nat) (before : List String) : List StorageConfig → Except Error Unit
  | [] => .ok ()
  | s :: rest =>
    if s.name = "" then .error (.config s!"storage[{i}] has an empty name")
    else if s.name ∈ before then .error (.config s!"duplicate storage name '{s.name}'")
    else validateStorage (i + 1) (before ++ [s.name]) rest

def validate (c : ClusterConfig) : Except Error Unit :=
  match c.naming.validate with
  | .error e => .error e
  | .ok _ => validateStorage 0 [] c.storage

end ClusterConfig

end DistFs
