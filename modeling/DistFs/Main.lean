import DistFs.Program
/-!
# The program on its host

Takes in the files of the host that a run can touch, has the program run on them, and carries out on
the host what the run has changed.
-/

namespace DistFs

namespace Host

/-! ## Taking files in -/

def takeEntry (fs : HostFiles) (spot : Spot) : IO HostFiles := do
  let path := (← IO.currentDir) / HostFiles.spotText spot
  if ← path.isDir then return fs.put spot .directory
  else if ← path.pathExists then
    return fs.put spot (.file (← IO.FS.readBinFile path).toList)
  else return fs

def takePlace (fs : HostFiles) (place : List String) : IO HostFiles :=
  (List.range place.length).foldlM (fun fs n =>
    match fs.resolve (place.take (n + 1)) with
    | .ok spot => takeEntry fs spot
    | .error _ => return fs) fs

partial def takeTree (fs : HostFiles) (spot : Spot) : IO HostFiles := do
  let path := (← IO.currentDir) / HostFiles.spotText spot
  (← path.readDir).foldlM (fun fs entry => do
    let below := spot ++ [entry.fileName]
    match (← entry.path.symlinkMetadata).type with
    | .dir => takeTree (fs.put below .directory) below
    | .file => return fs.put below (.file (← IO.FS.readBinFile entry.path).toList)
    | _ => return fs) fs

def takeRoot (here : Spot) (fs : HostFiles) (storage : StorageConfig) : IO HostFiles := do
  let fs ← takePlace fs (HostFiles.place here storage.root)
  match fs.find here storage.root with
  | .ok (spot, .directory) => takeTree fs spot
  | _ => return fs

def take (here : Spot) (args : List String) : IO HostFiles := do
  let fs ← takePlace {} here
  match Invocation.parse args with
  | some (.run _ file storage) =>
    let fs ← match file with
      | some file => takePlace fs (HostFiles.place here file)
      | none => pure fs
    match ClusterConfig.load fs here file storage with
    | .ok config => config.storage.foldlM (takeRoot here) fs
    | .error _ => return fs
  | _ => return fs

/-! ## Carrying changes out -/

def remove (spot : Spot) : HostEntry → IO Unit
  | .directory => IO.FS.removeDir (HostFiles.spotText spot)
  | .file _ => IO.FS.removeFile (HostFiles.spotText spot)

def make (spot : Spot) : HostEntry → IO Unit
  | .directory => IO.FS.createDir (HostFiles.spotText spot)
  | .file data => IO.FS.writeBinFile (HostFiles.spotText spot) ⟨data.toArray⟩

def carryOut (before after : HostFiles) : IO Unit := do
  for (spot, entry) in before.entries.mergeSort fun a b => b.1.length ≤ a.1.length do
    if (after.entry? spot).isNone then remove spot entry
  for (spot, entry) in after.entries do
    if before.entry? spot ≠ some entry then make spot entry

end Host

end DistFs

open DistFs in
def main (args : List String) : IO UInt32 := do
  let here := HostFiles.place [] (← IO.currentDir).toString
  let before ← Host.take here args
  let result := Program.run before here args
  Host.carryOut before result.host
  let output ← IO.getStdout
  output.write ⟨result.output.toArray⟩
  output.flush
  IO.eprint result.errors
  return UInt32.ofNat result.status
