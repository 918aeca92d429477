import DistFs.Proofs.Locking.Restoring
import DistFs.Proofs.Service.Dropping
import DistFs.Session
/-!
# Commands give back what they lock

A command on a file system whose locks are all free runs to its end, whatever its work comes to. The
work takes no lock, so that what was locked before it is what the unlock gives back, on nodes that
the work may have removed and beside others that it has made.
-/

namespace DistFs

namespace Cluster

variable {c c' d : Cluster} {p : Path} {n : NodeId} {mode : LockMode} {ticket : Ticket}

inductive LockedAtOnce (c : Cluster) (p : Path) (mode : LockMode) : LockAnswer × Cluster → Prop
  | failed {e : Error} {c' : Cluster} (extended : c.tree.Extends c'.tree)
      (restored : c.catalog.Restored c'.catalog) : LockedAtOnce c p mode (.failed e, c')
  | granted {n : NodeId} {c' : Cluster} (extended : c.tree.Extends c'.tree) (tidy : c'.Tidy)
      (found : c'.tree.find? p = some n) (locked : c.catalog.Locked p n mode c'.catalog) :
      LockedAtOnce c p mode (.granted n, c')

theorem lock_idle (shape : c.InShape) (idle : c.catalog.locks.Idle c.tree)
    (unrecorded : c.catalog.holds = []) (p : Path) (mode : LockMode) (ticket : Ticket) :
    c.LockedAtOnce p mode (c.lock p mode ticket) := by
  obtain ⟨tidy, stalled⟩ := shape
  unfold Cluster.lock
  cases c.naming.stopped with
  | true => exact .failed (.refl _) ⟨unrecorded, fun _ => rfl⟩
  | false =>
    have same := Catalog.tree_lock c.catalog p mode ticket
    have ends := Catalog.lock_idle tidy.wellFormed stalled idle unrecorded p mode ticket
    generalize c.catalog.lock p mode ticket = result at same ends
    obtain ⟨grows, wf⟩ := tidy.conclude_grows p mode same
    rcases ends with ⟨e, failed, restored⟩ | ⟨n, found, granted, locked⟩
    · obtain ⟨answer, catalog⟩ := result
      obtain rfl : answer = .failed e := failed
      exact .failed grows.toExtends restored
    · have locked' := locked.of_tree (c.conclude p mode result).2.tree
      have found' := grows.find? tidy.wellFormed wf found
      have tidy' := tidy.conclude p mode same
      by_cases failed : ∃ e, (c.conclude p mode result).1 = .failed e
      · obtain ⟨e, failed⟩ := failed
        obtain ⟨rfl, -, undone⟩ := conclude_undone {} ticket granted failed
        obtain ⟨d, unlocked, -, restored⟩ := locked'.unlock nofun
        rw [unlocked] at undone
        have ends : c.LockedAtOnce p .exclusive (.failed e, (c.conclude p .exclusive result).2) :=
          .failed grows.toExtends (undone ▸ restored)
        rwa [← failed] at ends
      · obtain ⟨answer, -, kept⟩ :=
          conclude_kept {} ticket granted fun e here => failed ⟨e, here⟩
        have ends := LockedAtOnce.granted grows.toExtends tidy' found' (kept ▸ locked')
        rwa [← answer] at ends

/-- Whatever is done that takes no lock, the unlock gives back what was there before the lock. -/
theorem unlock_after (locked : c.catalog.Locked p n mode d.catalog) (free : d.LockFree c')
    (stands : mode = .shared → c'.tree.find? p = some n) :
    ∃ after, c'.unlock p mode = (.ok (), after) ∧ after.tree = c'.tree ∧
      c.catalog.Restored after.catalog := by
  have locked' : c.catalog.Locked p n mode c'.catalog := by
    rw [free.catalog]
    exact locked.of_tree c'.tree
  obtain ⟨catalog, unlocked, tree, restored⟩ := locked'.unlock stands
  refine ⟨c'.setCatalog catalog, ?_, tree, restored⟩
  rw [Cluster.unlock, unlocked]

end Cluster

namespace Command

variable {c : Cluster} {p : Path}

theorem readFile_storageOf (c : Cluster) (p : Path) :
    ∃ servers, (readFile c p).2 = { (c.storageOf p).2 with servers } := by
  unfold readFile
  cases c.storageOf p with
  | mk handed c' =>
    cases handed with
    | error e => exact ⟨_, rfl⟩
    | ok handle =>
      dsimp only
      cases c'.servers.size handle p with
      | mk sized servers => cases sized <;> exact ⟨_, rfl⟩

theorem lockFree_work (tidy : c.Tidy) (command : Command) : c.LockFree (command.work c).2 := by
  cases command with
  | tree => exact .of_tree tidy rfl
  | list p => exact .of_tree tidy rfl
  | «show» p =>
    obtain ⟨servers, after⟩ := readFile_storageOf c p
    have free := Cluster.LockFree.storageOf tidy p
    change c.LockFree (readFile c p).2
    rw [after]
    exact ⟨free.catalog, free.extended, free.tidy.of_tree rfl, free.replicas, free.stocked⟩
  | makeFile p => exact .createFile tidy p
  | makeDirectory p => exact .createDirectory tidy p
  | remove p => exact .delete tidy p

theorem find?_work_reader {command : Command} (wf : c.tree.WellFormed)
    (reader : command.lockFor = .ok (p, .shared)) (q : Path) :
    (command.work c).2.tree.find? q = c.tree.find? q := by
  cases command with
  | tree => rfl
  | list p => rfl
  | «show» p =>
    obtain ⟨servers, after⟩ := readFile_storageOf c p
    change (readFile c p).2.tree.find? q = _
    rw [after]
    exact Cluster.find?_storageOf wf p q
  | makeFile q | makeDirectory q | remove q =>
    cases directory : directoryOf q <;> simp [lockFor, directory, Except.map] at reader

inductive Reports (c : Cluster) (ticket : Ticket) (command : Command) : Outcome → Prop
  | nowhere {f : Failure} (refused : command.lockFor = .error f) :
      Reports c ticket command (.failed f)
  | unlocked {p : Path} {mode : LockMode} {e : Error} (asked : command.lockFor = .ok (p, mode))
      (failed : (c.lock p mode ticket).1 = .failed e) :
      Reports c ticket command (.failed (.ofError e))
  | failed {p : Path} {mode : LockMode} {n : NodeId} {e : Error}
      (asked : command.lockFor = .ok (p, mode)) (granted : (c.lock p mode ticket).1 = .granted n)
      (failed : (command.work (c.lock p mode ticket).2).1 = .error e) :
      Reports c ticket command (.failed (.ofError e))
  | refused {p : Path} {mode : LockMode} {n : NodeId} {y : Yield} {f : Failure}
      (asked : command.lockFor = .ok (p, mode)) (granted : (c.lock p mode ticket).1 = .granted n)
      (worked : (command.work (c.lock p mode ticket).2).1 = .ok y)
      (refused : command.result y = .error f) : Reports c ticket command (.failed f)
  | done {p : Path} {mode : LockMode} {n : NodeId} {y : Yield} {o : Output}
      (asked : command.lockFor = .ok (p, mode)) (granted : (c.lock p mode ticket).1 = .granted n)
      (worked : (command.work (c.lock p mode ticket).2).1 = .ok y)
      (done : command.result y = .ok o) : Reports c ticket command (.printed o)

def outcome : Except Failure Output → Outcome
  | .ok output => .printed output
  | .error f => .failed f

theorem reports_outcome {d : Cluster} {ticket : Ticket} {command : Command} {mode : LockMode}
    {n : NodeId} (asked : command.lockFor = .ok (p, mode))
    (answer : c.lock p mode ticket = (.granted n, d)) : command.Reports c ticket
      (outcome (((command.work d).1.mapError .ofError).bind command.result)) := by
  have granted : (c.lock p mode ticket).1 = .granted n := by rw [answer]
  obtain rfl : (c.lock p mode ticket).2 = d := congrArg Prod.snd answer
  cases worked : (command.work (c.lock p mode ticket).2).1 with
  | error e => exact .failed asked granted worked
  | ok y =>
    simp only [Except.mapError, Except.bind]
    cases result : command.result y with
    | error f => exact .refused asked granted worked result
    | ok o => exact .done asked granted worked result

theorem complete_restores {d : Cluster} {command : Command} {mode : LockMode} {n : NodeId}
    (asked : command.lockFor = .ok (p, mode)) (tidy : d.Tidy) (found : d.tree.find? p = some n)
    (locked : c.catalog.Locked p n mode d.catalog) :
    ∃ after, command.complete p mode d =
        (((command.work d).1.mapError .ofError).bind command.result, after) ∧
      d.tree.Extends after.tree ∧ c.catalog.Restored after.catalog := by
  have free := lockFree_work tidy command
  have stands (reader : mode = .shared) : (command.work d).2.tree.find? p = some n := by
    rw [find?_work_reader tidy.wellFormed (reader ▸ asked), found]
  obtain ⟨after, unlocked, tree, restored⟩ := Cluster.unlock_after locked free stands
  refine ⟨after, complete_of_work rfl unlocked, ?_, restored⟩
  rw [tree]
  exact free.extended

end Command

namespace Session

variable {r : Session} {calls : Calls} {config : NamingConfig}

structure GivenBack (r r' : Session) : Prop where
  waiting : r'.waiting = r.waiting
  aside : r'.aside = r.aside
  unrecorded : r'.cluster.catalog.holds = []
  free : ∀ n, r'.cluster.tree.Attached n → (r'.cluster.catalog.locks.get n).status = .free
  locks : ∀ n, r'.cluster.catalog.locks.get n = r.cluster.catalog.locks.get n

theorem proceed_run (r : Session) (command : Command) (p : Path) (mode : LockMode)
    (ticket : Ticket) (n : NodeId) : r.proceed (.run command) p mode ticket n =
      (some (Command.outcome (command.complete p mode r.cluster).1),
        { r with cluster := (command.complete p mode r.cluster).2 }) := by
  rw [proceed]
  cases command.complete p mode r.cluster with
  | mk result after => cases result <;> rfl

theorem givenBack_of_restored {c : Cluster} (visited : Service.Visited config ⟨r.cluster, calls⟩)
    (idle : r.cluster.catalog.locks.Idle r.cluster.tree)
    (extended : r.cluster.tree.Extends c.tree) (restored : r.cluster.catalog.Restored c.catalog) :
    r.GivenBack { r with cluster := c } := by
  refine ⟨rfl, rfl, restored.holds, fun n attached => ?_, restored.locks⟩
  rw [restored.locks]
  by_cases known : n < r.cluster.tree.size
  · exact idle n (extended.attached_of visited.reachable.inShape.tidy.wellFormed known attached)
  · -- The command has made the node, which nobody can have locked before.
    rw [visited.within.new n known]
    rfl

/-- On free locks every command ends at once. It reports the first failure there was, and leaves
every lock as it was and every node free; so it does if the storage servers turn into others once
the path is locked. -/
theorem commands_restore (visited : Service.Visited config ⟨r.cluster, calls⟩)
    (idle : ∀ n, r.cluster.tree.Attached n → (r.cluster.catalog.locks.get n).status = .free)
    (unrecorded : r.cluster.catalog.holds = []) (command : Command) (ticket : Ticket) :
    (∃ outcome r', r.startCommand command ticket = (some outcome, r') ∧ r.GivenBack r' ∧
      command.Reports r.cluster ticket outcome) ∧
    ∀ p mode n c, command.lockFor = .ok (p, mode) →
      r.cluster.lock p mode ticket = (.granted n, c) → ∀ servers,
      r.GivenBack { r with cluster := (command.complete p mode { c with servers }).2 } := by
  have back {c : Cluster} := givenBack_of_restored (c := c) visited idle
  have ends := Cluster.lock_idle visited.reachable.inShape idle unrecorded
  constructor
  · unfold startCommand
    cases asked : command.lockFor with
    | error f => exact ⟨_, _, rfl, back (.refl _) ⟨unrecorded, fun _ => rfl⟩, .nowhere asked⟩
    | ok request =>
      obtain ⟨p, mode⟩ := request
      replace ends := ends p mode ticket
      simp only [start, ask]
      generalize answer : r.cluster.lock p mode ticket = result at ends
      cases ends with
      | @failed e c extended restored =>
        exact ⟨_, _, rfl, back extended restored, .unlocked asked (by rw [answer])⟩
      | @granted n c extended tidy found locked =>
        obtain ⟨after, completed, extended', restored⟩ :=
          Command.complete_restores asked tidy found locked
        simp only [answered, proceed_run, completed]
        exact ⟨_, _, rfl, back (extended.trans extended') restored,
          Command.reports_outcome asked answer⟩
  · intro p mode n c asked answer servers
    replace ends := ends p mode ticket
    rw [answer] at ends
    cases ends with
    | granted extended tidy found locked =>
      obtain ⟨after, completed, extended', restored⟩ := Command.complete_restores
        (d := { c with servers }) asked (tidy.of_tree rfl) found locked
      rw [completed]
      exact back (extended.trans extended') restored

def deserted : Service :=
  (Service.start {} {}).run
    [.register ⟨.direct "s", .direct "s"⟩ [.inner], .lock .root .exclusive 0, .lock .root .shared 1,
      .abandon ⟨1, { path := .root, mode := .shared, target := 0, pending := [(0, .shared)] }⟩,
      .unlock .root .exclusive]

theorem visited_deserted : Service.Visited {} deserted :=
  Service.Reached.run (.start {}) (by decide +kernel)

theorem deserted_restored : ∃ outcome r',
    ({ cluster := deserted.cluster } : Session).startCommand (.makeFile .neighbour) 2 =
      (some outcome, r') ∧ r'.cluster.catalog.holds = [] ∧
    ∀ n, r'.cluster.tree.Attached n → (r'.cluster.catalog.locks.get n).status = .free := by
  have free : ∀ n < 3, (deserted.cluster.catalog.locks.get n).status = .free := by decide +kernel
  have size : deserted.cluster.tree.size = 3 := by decide +kernel
  obtain ⟨⟨outcome, r', ended, given, -⟩, -⟩ :=
    commands_restore (r := { cluster := deserted.cluster }) visited_deserted
      (fun n attached => free n (size ▸ attached.known)) (by decide +kernel)
      (.makeFile .neighbour) 2
  exact ⟨outcome, r', ended, given.unrecorded, given.free⟩

end Session

end DistFs
