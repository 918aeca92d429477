import DistFs.Storage.Bytes
/-!
# The files of the host

The host keeps regular files and directories, and finds them as POSIX systems do: `.` and `..` are
resolved on the way, so that everything before them has to exist. A place is what is asked for,
component by component; a spot is where that turns out to be.
-/

namespace DistFs

inductive HostFault where
  | notFound
  | exists
  | notADirectory
  | isADirectory
  | invalidArgument
  | nameTooLong
  | notEmpty
  | nulByte
deriving DecidableEq, Repr

def HostFault.text : HostFault → String
  | notFound => "No such file or directory (os error 2)"
  | «exists» => "File exists (os error 17)"
  | notADirectory => "Not a directory (os error 20)"
  | isADirectory => "Is a directory (os error 21)"
  | invalidArgument => "Invalid argument (os error 22)"
  | nameTooLong => "File name too long (os error 36)"
  | notEmpty => "Directory not empty (os error 39)"
  | nulByte => "file name contained an unexpected NUL byte"

inductive HostEntry where
  | directory
  | file (data : Bytes)
deriving DecidableEq

abbrev Spot := List String

/-- The entries of the host in the order in which it lists them. -/
structure HostFiles where
  entries : List (Spot × HostEntry) := []

namespace HostFiles

def maxNameBytes : Nat := 255

def maxPathBytes : Nat := 4095

/-- What stands at a spot; the topmost directory always exists. -/
def entry? (fs : HostFiles) (spot : Spot) : Option HostEntry :=
  if spot = [] then some .directory else (fs.entries.find? (·.1 = spot)).map Prod.snd

def put (fs : HostFiles) (spot : Spot) (entry : HostEntry) : HostFiles :=
  if fs.entries.any (·.1 = spot) then
    ⟨fs.entries.map fun e => if e.1 = spot then (spot, entry) else e⟩
  else ⟨fs.entries ++ [(spot, entry)]⟩

/-- Follows a place component by component. The last one need not exist. -/
def follow (fs : HostFiles) : List String → Spot → Except HostFault Spot
  | [], spot => .ok spot
  | name :: rest, spot =>
    match fs.entry? spot with
    | none => .error .notFound
    | some (.file _) => .error .notADirectory
    | some .directory =>
      if name = "." then fs.follow rest spot
      else if name = ".." then fs.follow rest spot.dropLast
      else if maxNameBytes < name.utf8ByteSize then .error .nameTooLong
      else fs.follow rest (spot ++ [name])

def resolve (fs : HostFiles) (place : List String) : Except HostFault Spot :=
  if place.any fun name => name.toList.contains (Char.ofNat 0) then .error .nulByte
  else if maxPathBytes < place.foldl (fun bytes name => bytes + name.utf8ByteSize + 1) 0 then
    .error .nameTooLong
  else fs.follow place []

def stat (fs : HostFiles) (place : List String) : Except HostFault (Spot × HostEntry) := do
  let spot ← fs.resolve place
  match fs.entry? spot with
  | some entry => return (spot, entry)
  | none => throw .notFound

def isDirectory (fs : HostFiles) (place : List String) : Bool :=
  match fs.stat place with
  | .ok (_, .directory) => true
  | _ => false

def endsInDots (place : List String) : Bool :=
  place.getLast? = some "." || place.getLast? = some ".."

/-! ## Making -/

def makeDirectory (fs : HostFiles) (place : List String) : Except HostFault HostFiles := do
  let spot ← fs.resolve place
  if endsInDots place || (fs.entry? spot).isSome then throw .exists
  return fs.put spot .directory

def around (place : List String) : List String :=
  let trim := fun names : List String => (names.reverse.dropWhile (· = ".")).reverse
  trim (trim place).dropLast

theorem length_around (place : List String) (h : place ≠ []) :
    (around place).length < place.length := by
  have trimmed (names : List String) :
      ((names.reverse.dropWhile (· = ".")).reverse).length ≤ names.length := by
    have := (List.dropWhile_sublist (fun name : String => decide (name = "."))
      (l := names.reverse)).length_le
    simpa using this
  have outer := trimmed ((place.reverse.dropWhile (· = ".")).reverse).dropLast
  have inner := trimmed place
  have := List.length_pos_iff.mpr h
  simp only [around, List.length_dropLast] at *
  omega

/-- Makes a directory and all that are missing above it. What is made stays if it fails. -/
def makeDirectories (fs : HostFiles) (place : List String) : Except HostFault Unit × HostFiles :=
  if _h : place = [] then (.ok (), fs)
  else match fs.makeDirectory place with
    | .ok fs => (.ok (), fs)
    | .error .notFound =>
      match fs.makeDirectories (around place) with
      | (.error e, fs) => (.error e, fs)
      | (.ok _, fs) =>
        match fs.makeDirectory place with
        | .ok fs => (.ok (), fs)
        | .error e => (if fs.isDirectory place then .ok () else .error e, fs)
    | .error e => (if fs.isDirectory place then .ok () else .error e, fs)
termination_by place.length
decreasing_by exact length_around place _h

def createFile (fs : HostFiles) (place : List String) : Except HostFault HostFiles := do
  let spot ← fs.resolve place
  if endsInDots place || (fs.entry? spot).isSome then throw .exists
  return fs.put spot (.file [])

def writeFile (fs : HostFiles) (place : List String) (data : Bytes) :
    Except HostFault HostFiles := do
  let spot ← fs.resolve place
  if endsInDots place || fs.entry? spot = some .directory then throw .isADirectory
  return fs.put spot (.file data)

/-! ## Removing -/

def isBelow (spot top : Spot) : Bool := top.isPrefixOf spot && spot ≠ top

def removeFile (fs : HostFiles) (place : List String) : Except HostFault HostFiles := do
  match ← fs.stat place with
  | (_, .directory) => throw .isADirectory
  | (spot, .file _) => return ⟨fs.entries.filter (·.1 ≠ spot)⟩

def removeDirectory (fs : HostFiles) (place : List String) : Except HostFault HostFiles := do
  match ← fs.stat place with
  | (_, .file _) => throw .notADirectory
  | (spot, .directory) =>
    if place.getLast? = some "." then throw .invalidArgument
    if fs.entries.any fun e => isBelow e.1 spot then throw .notEmpty
    return ⟨fs.entries.filter (·.1 ≠ spot)⟩

/-- Removes all that is in a directory and then the directory, by the same name. It counts as done
if the name leads nowhere once the contents are gone. -/
def removeTree (fs : HostFiles) (place : List String) : Except HostFault Unit × HostFiles :=
  match fs.stat place with
  | .error e => (.error e, fs)
  | .ok (_, .file _) => (.error .notADirectory, fs)
  | .ok (spot, .directory) =>
    let emptied : HostFiles := ⟨fs.entries.filter fun e => !isBelow e.1 spot⟩
    match emptied.removeDirectory place with
    | .ok fs => (.ok (), fs)
    | .error .notFound => (.ok (), emptied)
    | .error e => (.error e, emptied)

/-! ## Listing -/

def list (fs : HostFiles) (place : List String) : Except HostFault (List (String × HostEntry)) := do
  match ← fs.stat place with
  | (_, .file _) => throw .notADirectory
  | (spot, .directory) =>
    return fs.entries.filterMap fun (below, entry) =>
      if below ≠ [] ∧ below.dropLast = spot then below.getLast?.map (·, entry) else none

def contents (fs : HostFiles) (spot : Spot) : List (Spot × HostEntry) :=
  ((fs.entries.filter fun e => isBelow e.1 spot).map fun e => (e.1.drop spot.length, e.2)).mergeSort
    fun a b => !b.1.lex a.1 (· < ·)

/-! ## Texts of places -/

def place (here : Spot) (s : String) : List String :=
  let names := (Path.segments s.toList).filterMap fun piece =>
    if piece = [] then none else some (String.ofList piece)
  if s.toList.head? = some '/' then names else here ++ names

def find (fs : HostFiles) (here : Spot) (s : String) : Except HostFault (Spot × HostEntry) := do
  if s = "" then throw .notFound
  let found ← fs.stat (place here s)
  match found.2 with
  | .file _ => if s.toList.getLast? = some '/' then throw .notADirectory else return found
  | .directory => return found

def spotText (spot : Spot) : String := "/" ++ "/".intercalate spot

end HostFiles

end DistFs
