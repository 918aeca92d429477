import DistFs.Cluster
import DistFs.Failure
/-!
# Commands

What a user does with the file system. A command locks one path, does its work and unlocks the path
again, whatever came of the work.
-/

namespace DistFs

inductive Command where
  | tree
  | list (path : Path)
  | show (path : Path)
  | makeFile (path : Path)
  | makeDirectory (path : Path)
  | remove (path : Path)
deriving DecidableEq

inductive Output where
  | lines (lines : List String)
  | bytes (data : Bytes)
  | nothing
deriving DecidableEq

namespace Command

def directoryOf (p : Path) : Except Failure Path :=
  match p.parent? with
  | some parent => .ok parent
  | none => .error (.ofText s!"'{p}' has no parent directory")

def lockFor : Command → Except Failure (Path × LockMode)
  | tree => .ok (.root, .shared)
  | list p | «show» p => .ok (p, .shared)
  | makeFile p | makeDirectory p | remove p => (directoryOf p).map (·, .exclusive)

/-! ## Looking around -/

def line (p : Path) (isDirectory : Bool) : String :=
  if isDirectory && !p.isRoot then p.text ++ "/" else p.text

def printTree (c : Cluster) : Nat → List Path → Except Error (List String)
  | _, [] => .ok []
  | 0, _ :: _ => .ok []
  | fuel + 1, p :: todo => do
    if ← c.isDirectory p then
      let below := (← c.list p).map p.child
      return line p true :: (← printTree c fuel (below ++ todo))
    else return line p false :: (← printTree c fuel todo)

def printList (c : Cluster) (p : Path) : Except Error (List String) := do
  if ← c.isDirectory p then
    (← c.list p).mapM fun name => do
      return if ← c.isDirectory (p.child name) then name.text ++ "/" else name.text
  else return [p.text]

/-! ## Reading a file -/

def chunkSize : UInt64 := 65536

theorem chunk_toNat {offset size : UInt64} (h : offset < size) :
    (min chunkSize (size - offset)).toNat = min 65536 (size.toNat - offset.toNat) := by
  have left : (size - offset).toNat = size.toNat - offset.toNat :=
    UInt64.toNat_sub_of_le _ _ (UInt64.le_of_lt h)
  have word : chunkSize.toNat = 65536 := rfl
  show (if chunkSize ≤ size - offset then chunkSize else size - offset).toNat = _
  split
  next le =>
    rw [UInt64.le_iff_toNat_le, left, word] at le
    rw [word]
    omega
  next gt =>
    rw [UInt64.le_iff_toNat_le, left, word] at gt
    rw [left]
    omega

theorem step_toNat {offset size : UInt64} (h : offset < size) :
    (offset + min chunkSize (size - offset)).toNat =
      offset.toNat + (min chunkSize (size - offset)).toNat ∧
    0 < (min chunkSize (size - offset)).toNat ∧
    offset.toNat + (min chunkSize (size - offset)).toNat ≤ size.toNat := by
  have before : offset.toNat < size.toNat := UInt64.lt_iff_toNat_lt.mp h
  have bound := size.toNat_lt
  rw [UInt64.toNat_add, chunk_toNat h]
  omega

def readFrom (h : Handle) (p : Path) (size offset : UInt64) (s : Servers) :
    Except Error (List Bytes) × Servers :=
  if _h : offset < size then
    let length := min chunkSize (size - offset)
    match s.read h p offset length with
    | (.error e, s) => (.error e, s)
    | (.ok chunk, s) =>
      match readFrom h p size (offset + length) s with
      | (.error e, s) => (.error e, s)
      | (.ok chunks, s) => (.ok (chunk :: chunks), s)
  else (.ok [], s)
termination_by size.toNat - offset.toNat
decreasing_by
  have := step_toNat _h
  omega

/-- Reads a file in chunks, and says how long it was. -/
def readFile (c : Cluster) (p : Path) : Except Error (UInt64 × Bytes) × Cluster :=
  match c.storageOf p with
  | (.error e, c) => (.error e, c)
  | (.ok handle, c) =>
    match c.servers.size handle p with
    | (.error e, servers) => (.error e, { c with servers })
    | (.ok size, servers) =>
      let (result, servers) := readFrom handle p size 0 servers
      (result.map fun chunks => (size, chunks.flatten), { c with servers })

/-! ## Running -/

inductive Yield where
  | output (o : Output)
  | change (made : Bool)

def work (command : Command) (c : Cluster) : Except Error Yield × Cluster :=
  match command with
  | tree => ((printTree c (c.tree.size + 1) [.root]).map (.output ∘ .lines), c)
  | list p => ((printList c p).map (.output ∘ .lines), c)
  | «show» p =>
    let (result, c) := readFile c p
    (result.map fun (_, data) => .output (.bytes data), c)
  | makeFile p =>
    let (result, c) := c.createFile p
    (result.map .change, c)
  | makeDirectory p =>
    let (result, c) := c.createDirectory p
    (result.map .change, c)
  | remove p =>
    let (result, c) := c.delete p
    (result.map .change, c)

def refusal : Command → String
  | makeFile p | makeDirectory p => s!"'{p}' already exists"
  | remove p => s!"'{p}' was not removed"
  | _ => ""

def result (command : Command) : Yield → Except Failure Output
  | .output o => .ok o
  | .change true => .ok .nothing
  | .change false => .error (.ofText command.refusal)

/-- Does the work and unlocks the path. A failure of the work counts before one of unlocking. -/
def complete (command : Command) (p : Path) (mode : LockMode) (c : Cluster) :
    Except Failure Output × Cluster :=
  let (done, c) := command.work c
  let (unlocked, c) := c.unlock p mode
  match done, unlocked with
  | .error e, _ => (.error (.ofError e), c)
  | .ok _, .error e => (.error (.ofError e), c)
  | .ok yield, .ok _ => (command.result yield, c)

theorem complete_of_work {command : Command} {p : Path} {mode : LockMode} {c c' c'' : Cluster}
    {done : Except Error Yield} (worked : command.work c = (done, c'))
    (unlocked : c'.unlock p mode = (.ok (), c'')) :
    command.complete p mode c = ((done.mapError .ofError).bind command.result, c'') := by
  rw [complete, worked]
  simp only [unlocked]
  cases done <;> rfl

end Command

end DistFs
