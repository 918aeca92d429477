import DistFs.PathMap
import DistFs.Storage.Bytes
/-!
# Storage in memory

A store keeps the contents of its files and the set of its directories. The root is always a
directory and never listed.
-/

namespace DistFs

structure MemoryStore where
  files : PathMap Bytes := .empty
  directories : PathMap Unit := .empty

namespace MemoryStore

def isDirectory (s : MemoryStore) (p : Path) : Bool := p.isRoot || s.directories.contains p

def file (s : MemoryStore) (p : Path) : Except Error Bytes :=
  match s.files.get? p with
  | some d => .ok d
  | none => .error (.notFound p)

def makeParents (s : MemoryStore) (p : Path) : Option MemoryStore :=
  if p.ancestors.any s.files.contains then none
  else some { s with
    directories := (p.ancestors.filter fun a => !a.isRoot).foldl (·.insert · ()) s.directories }

def putFile (s : MemoryStore) (p : Path) (d : Bytes) : MemoryStore :=
  { s with files := s.files.insert p d }

/-! ## Data -/

def size (s : MemoryStore) (p : Path) : Except Error UInt64 := (s.file p).map Bytes.size

def read (s : MemoryStore) (p : Path) (offset length : UInt64) : Except Error Bytes :=
  (s.file p).bind fun d => d.slice p offset length

def write (s : MemoryStore) (p : Path) (offset : UInt64) (w : Bytes) : Except Error MemoryStore :=
  (s.file p).bind fun d =>
    if offset.toNat + w.length < UInt64.size then .ok (s.putFile p (d.overwrite offset.toNat w))
    else .error (.outOfBounds p offset w.size d.size)

/-! ## Administration -/

def put (s : MemoryStore) (p : Path) (d : Bytes) : Except Error MemoryStore :=
  if s.isDirectory p then .error (.notAFile p)
  else match s.makeParents p with
    | none => .error (.notADirectory p)
    | some s => .ok (s.putFile p d)

def create (s : MemoryStore) (p : Path) : Bool × MemoryStore :=
  if s.isDirectory p || s.files.contains p then (false, s)
  else match s.makeParents p with
    | none => (false, s)
    | some s => (true, s.putFile p [])

def delete (s : MemoryStore) (p : Path) : Bool × MemoryStore :=
  if p.isRoot then (false, s)
  else if s.files.contains p then (true, { s with files := s.files.erase p })
  else if s.directories.contains p then
    (true, { files := s.files.filter fun q => !q.isUnder p
             directories := s.directories.filter fun q => !q.isUnder p })
  else (false, s)

def receive (s : MemoryStore) (p : Path) (d : Bytes) : Bool × MemoryStore :=
  if s.isDirectory p then (false, s)
  else match s.makeParents p with
    | none => (false, s)
    | some s => (true, s.putFile p d)

def prune (s : MemoryStore) : MemoryStore :=
  { s with directories := s.directories.filter fun d => s.files.keys.any (·.isUnder d) }

def ofFiles (files : List (Path × Bytes)) : Except Error MemoryStore :=
  files.foldlM (fun s (p, d) => s.put p d) {}

end MemoryStore

end DistFs
