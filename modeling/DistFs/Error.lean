import DistFs.Path
/-!
# Errors

Everything that can go wrong with a request, and how each case is worded.
-/

namespace DistFs

inductive Error where
  | notFound (path : Path)
  | notADirectory (path : Path)
  | notAFile (path : Path)
  | alreadyExists (path : Path)
  | communication (text : String)
  | lockInterrupted (path : Path)
  | notLocked (path : Path) (mode : String)
  | alreadyRegistered (container : String)
  | noStorage
  | invalidPath (path : String) (reason : String)
  | outOfBounds (path : Path) (offset length size : UInt64)
  | io (text : String)
  | config (text : String)
deriving DecidableEq

namespace Error

def message : Error → String
  | notFound p => s!"Path not found: {p}"
  | notADirectory p => s!"Not a directory: {p}"
  | notAFile p => s!"Not a file: {p}"
  | alreadyExists p => s!"Entry already exists: {p}"
  | communication text => s!"Communication error: {text}"
  | lockInterrupted p => s!"Interrupted while waiting for a lock on {p}"
  | notLocked p mode => s!"No {mode} lock held on {p}"
  | alreadyRegistered container => s!"Storage server already registered: {container}"
  | noStorage => "No storage servers registered"
  | invalidPath p reason => s!"Invalid path '{p}': {reason}"
  | outOfBounds p offset length size =>
    s!"Range {offset.toNat}+{length.toNat} out of bounds for {p} of size {size.toNat}"
  | io text => s!"I/O error: {text}"
  | config text => s!"Configuration error: {text}"

def kind : Error → String
  | notFound _ => "NotFound"
  | notADirectory _ => "NotADirectory"
  | notAFile _ => "NotAFile"
  | alreadyExists _ => "AlreadyExists"
  | communication _ => "Communication"
  | lockInterrupted _ => "LockInterrupted"
  | notLocked .. => "NotLocked"
  | alreadyRegistered _ => "AlreadyRegistered"
  | noStorage => "NoStorage"
  | invalidPath .. => "InvalidPath"
  | outOfBounds .. => "OutOfBounds"
  | io _ => "Io"
  | config _ => "Config"

def isCommunication : Error → Bool
  | communication _ => true
  | _ => false

def ofFault (s : String) (fault : PathFault) : Error := .invalidPath s fault.reason

end Error

def Path.read (s : String) : Except Error Path := (parse s).mapError (Error.ofFault s)

def Path.join (p : Path) (s : String) : Except Error Path := (p.child? s).mapError (Error.ofFault s)

end DistFs
