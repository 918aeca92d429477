import DistFs.HostFiles
/-!
# Storage in a directory of the host

A directory of the host stands for the root, and every path for the place that the host finds by
going on from there. Entries of the host that no path can name are left alone.
-/

namespace DistFs

structure MountedStore where
  root : Spot

namespace MountedStore

def place (s : MountedStore) (p : Path) : List String := s.root ++ p.names.map (·.text)

def mount (fs : HostFiles) (here : Spot) (root : String) : Except Error MountedStore :=
  match fs.find here root with
  | .error fault => .error (.io s!"Storage root '{root}' cannot be resolved: {fault.text}")
  | .ok (spot, .file _) =>
    .error (.io s!"Storage root '{HostFiles.spotText spot}' is not a directory")
  | .ok (spot, .directory) => .ok ⟨spot⟩

def failure (fault : HostFault) : Error := .io fault.text

/-! ## Data -/

def file (s : MountedStore) (fs : HostFiles) (p : Path) : Except Error (Spot × Bytes) :=
  match fs.stat (s.place p) with
  | .ok (spot, .file d) => .ok (spot, d)
  | _ => .error (.notFound p)

def size (s : MountedStore) (fs : HostFiles) (p : Path) : Except Error UInt64 :=
  (s.file fs p).map (·.2.size)

def read (s : MountedStore) (fs : HostFiles) (p : Path) (offset length : UInt64) :
    Except Error Bytes :=
  (s.file fs p).bind fun (_, d) => d.slice p offset length

/-- Writes into an existing file. The host takes no position from 2^63 on, and nothing is changed
where nothing is written. -/
def write (s : MountedStore) (fs : HostFiles) (p : Path) (offset : UInt64) (w : Bytes) :
    Except Error HostFiles :=
  (s.file fs p).bind fun (spot, d) =>
    if UInt64.size / 2 ≤ offset.toNat then .error (failure .invalidArgument)
    else if w = [] then .ok fs
    else .ok (fs.put spot (.file (d.overwrite offset.toNat w)))

/-! ## Administration -/

def create (s : MountedStore) (fs : HostFiles) (p : Path) : Except Error Bool × HostFiles :=
  match p.parent? with
  | none => (.ok false, fs)
  | some parent =>
    if (fs.stat (s.place p)).isOk then (.ok false, fs)
    else match fs.makeDirectories (s.place parent) with
      | (.error _, fs) => (.ok false, fs)
      | (.ok _, fs) =>
        match fs.createFile (s.place p) with
        | .ok fs => (.ok true, fs)
        | .error .exists => (.ok false, fs)
        | .error fault => (.error (failure fault), fs)

def delete (s : MountedStore) (fs : HostFiles) (p : Path) : Except Error Bool × HostFiles :=
  if p.isRoot then (.ok false, fs)
  else match fs.stat (s.place p) with
    | .error _ => (.ok false, fs)
    | .ok (_, .directory) =>
      match fs.removeTree (s.place p) with
      | (.ok _, fs) => (.ok true, fs)
      | (.error fault, fs) => (.error (failure fault), fs)
    | .ok (_, .file _) =>
      match fs.removeFile (s.place p) with
      | .ok fs => (.ok true, fs)
      | .error fault => (.error (failure fault), fs)

def receive (s : MountedStore) (fs : HostFiles) (p : Path) (d : Bytes) :
    Except Error Bool × HostFiles :=
  match p.parent? with
  | none => (.ok false, fs)
  | some parent =>
    if fs.isDirectory (s.place p) then (.ok false, fs)
    else match fs.makeDirectories (s.place parent) with
      | (.error _, fs) => (.ok false, fs)
      | (.ok _, fs) =>
        match fs.writeFile (s.place p) d with
        | .ok fs => (.ok true, fs)
        | .error fault => (.error (failure fault), fs)

/-! ## Looking through the directory -/

def listed (s : MountedStore) (fs : HostFiles) (dir : Path) :
    Except HostFault (List (Path × HostEntry)) := do
  return (← fs.list (s.place dir)).filterMap fun (name, entry) =>
    (dir.child? name).toOption.map (·, entry)

def search (s : MountedStore) (fs : HostFiles) :
    Nat → List Path → Except HostFault (List Path × List Path)
  | _, [] => .ok ([], [])
  | 0, _ :: _ => .ok ([], [])
  | fuel + 1, dir :: todo => do
    let entries ← s.listed fs dir
    let found := entries.filterMap fun (p, entry) => if entry = .directory then some p else none
    let (files, dirs) ← s.search fs fuel (found.reverse ++ todo)
    return (entries.filterMap (fun (p, entry) => if entry = .directory then none else some p) ++
      files, found ++ dirs)

def survey (s : MountedStore) (fs : HostFiles) : Except Error (List Path × List Path) :=
  match s.search fs (fs.entries.length + 1) [.root] with
  | .error fault => .error (failure fault)
  | .ok (files, dirs) => .ok (Path.sort files, dirs.mergeSort fun a b => b.depth ≤ a.depth)

def listFiles (s : MountedStore) (fs : HostFiles) : Except Error (List Path) :=
  (s.survey fs).map Prod.fst

def dropIfEmpty (s : MountedStore) (fs : HostFiles) (dir : Path) : Except HostFault HostFiles := do
  if (← fs.list (s.place dir)).isEmpty then fs.removeDirectory (s.place dir) else return fs

def prune (s : MountedStore) (fs : HostFiles) : Except Error Unit × HostFiles :=
  match s.survey fs with
  | .error e => (.error e, fs)
  | .ok (_, dirs) => dropAll dirs fs
where
  dropAll : List Path → HostFiles → Except Error Unit × HostFiles
    | [], fs => (.ok (), fs)
    | dir :: dirs, fs =>
      match s.dropIfEmpty fs dir with
      | .ok fs => dropAll dirs fs
      | .error fault => (.error (failure fault), fs)

end MountedStore

end DistFs
