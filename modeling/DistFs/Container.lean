/-!
# Storage containers

A storage server offers two interfaces, one for data and one for administration, each known by an
endpoint. A container is the pair of them as the naming server knows it.
-/

namespace DistFs

def storageEndpoint (server : String) : String := server ++ ".storage"

def commandEndpoint (server : String) : String := server ++ ".command"

/-- How an interface is reached: on the server itself, or by calls to whatever is bound at an
endpoint. -/
inductive Handle where
  | direct (server : String)
  | remote (endpoint : String)
deriving DecidableEq, Repr

namespace Handle

def storageEndpoint : Handle → String
  | direct server => DistFs.storageEndpoint server
  | remote endpoint => endpoint

def commandEndpoint : Handle → String
  | direct server => DistFs.commandEndpoint server
  | remote endpoint => endpoint

end Handle

structure Container where
  storage : Handle
  command : Handle
deriving DecidableEq, Repr

namespace Container

def endpoints (c : Container) : String × String :=
  (c.storage.storageEndpoint, c.command.commandEndpoint)

def isIn (c : Container) (listed : List Container) : Bool :=
  listed.any fun d => d.endpoints = c.endpoints

def text (c : Container) : String :=
  s!"[storage: {c.endpoints.1}, command: {c.endpoints.2}]"

end Container

end DistFs
