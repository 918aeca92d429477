import DistFs.Error
/-!
# Messages between servers

Calls on a server that is reached over the network, and the answers to them. Handles to other
servers travel as the endpoints they are bound to.
-/

namespace DistFs

inductive Request where
  | size (path : Path)
  | read (path : Path) (offset length : UInt64)
  | write (path : Path) (offset : UInt64) (data : List UInt8)
  | create (path : Path)
  | delete (path : Path)
  | copy (path : Path) (source : String)
  | register (storage command : String) (files : List Path)
deriving DecidableEq

def Request.name : Request → String
  | size _ => "size"
  | read .. => "read"
  | write .. => "write"
  | create _ => "create"
  | delete _ => "delete"
  | copy .. => "copy"
  | register .. => "register"

inductive Reply where
  | size (n : UInt64)
  | data (bytes : List UInt8)
  | unit
  | flag (b : Bool)
  | paths (listed : List Path)
deriving DecidableEq

namespace Reply

private def listed (items : List String) : String := "[" ++ ", ".intercalate items ++ "]"

def text : Reply → String
  | size n => s!"Size({n.toNat})"
  | data bytes => "Data(" ++ listed (bytes.map fun b => toString b.toNat) ++ ")"
  | unit => "Unit"
  | flag b => s!"Flag({b})"
  | paths ps => "Paths(" ++ listed (ps.map fun p => s!"DfsPath({p})") ++ ")"

end Reply

structure Envelope where
  id : UInt64
  request : Request
deriving DecidableEq

structure Response where
  id : UInt64
  result : Except Error Reply

end DistFs
