import DistFs.Command
/-!
# Requests of many clients

Requests that may have to wait for a lock, and a fixed order in which they go on. Requests are
numbered as they come. A new one runs until it waits or is done; after that, and after anything else
that may have woken somebody, all woken requests run in the order of their numbers, again and again
until nobody is woken.
-/

namespace DistFs

inductive Purpose where
  | bare
  | hold
  | read (times : Nat)
  | run (command : Command)
deriving DecidableEq

inductive Outcome where
  | granted (target : NodeId)
  | locked
  | counted (reads : Nat) (replicas : List Container)
  | printed (output : Output)
  | failed (f : Failure)

structure Waiting where
  ticket : Ticket
  purpose : Purpose
  acquisition : Acquisition

structure Session where
  cluster : Cluster
  aside : Option Catalog := none
  waiting : List Waiting := []

namespace Session

def catalog (s : Session) : Catalog := s.aside.getD s.cluster.catalog

def setCatalog (s : Session) (catalog : Catalog) : Session :=
  match s.aside with
  | some _ => { s with aside := some catalog }
  | none => { s with cluster := s.cluster.setCatalog catalog }

def park (s : Session) (w : Waiting) : Session :=
  { s with waiting :=
      s.waiting.takeWhile (·.ticket < w.ticket) ++ w :: s.waiting.dropWhile (·.ticket < w.ticket) }

def failure (e : Error) : Option Outcome := some (.failed (.ofError e))

def ask (s : Session) (purpose : Purpose) (p : Path) (mode : LockMode) (ticket : Ticket) :
    LockAnswer × Session :=
  match purpose with
  | .bare =>
    let (answer, catalog) := s.catalog.lock p mode ticket
    (answer, s.setCatalog catalog)
  | _ =>
    let (answer, cluster) := s.cluster.lock p mode ticket
    (answer, { s with cluster })

def resume (s : Session) (w : Waiting) : LockAnswer × Session :=
  match w.purpose with
  | .bare =>
    let (answer, catalog) := s.catalog.resume w.acquisition w.ticket
    (answer, s.setCatalog catalog)
  | _ =>
    let (answer, cluster) := s.cluster.resume w.acquisition w.ticket
    (answer, { s with cluster })

def counters (s : Session) (p : Path) : Outcome :=
  match s.cluster.tree.get p with
  | .error e => .failed (.ofError e)
  | .ok n => .counted (s.cluster.tree.node n).reads (s.cluster.tree.node n).replicas

def readOn (s : Session) (p : Path) (mode : LockMode) (ticket : Ticket) :
    Nat → Option Outcome × Session
  | 0 => (some (s.counters p), s)
  | times + 1 =>
    match s.cluster.unlock p mode with
    | (.error e, cluster) => (failure e, { s with cluster })
    | (.ok _, cluster) =>
      let s := { s with cluster }
      match times with
      | 0 => (some (s.counters p), s)
      | _ =>
        match s.ask (.read times) p mode ticket with
        | (.granted _, s) => s.readOn p mode ticket times
        | (.waiting a, s) => (none, s.park ⟨ticket, .read times, a⟩)
        | (.failed e, s) => (failure e, s)

def proceed (s : Session) (purpose : Purpose) (p : Path) (mode : LockMode) (ticket : Ticket)
    (target : NodeId) : Option Outcome × Session :=
  match purpose with
  | .bare => (some (.granted target), s)
  | .hold => (some .locked, s)
  | .read times => s.readOn p mode ticket times
  | .run command =>
    let (result, cluster) := command.complete p mode s.cluster
    (match result with
      | .ok output => some (.printed output)
      | .error f => some (.failed f), { s with cluster })

def answered (purpose : Purpose) (p : Path) (mode : LockMode) (ticket : Ticket) :
    LockAnswer × Session → Option Outcome × Session
  | (.granted target, s) => s.proceed purpose p mode ticket target
  | (.waiting a, s) => (none, s.park ⟨ticket, purpose, a⟩)
  | (.failed e, s) => (failure e, s)

def start (s : Session) (purpose : Purpose) (p : Path) (mode : LockMode) (ticket : Ticket) :
    Option Outcome × Session :=
  answered purpose p mode ticket (s.ask purpose p mode ticket)

def startReads (s : Session) (p : Path) (times : Nat) (ticket : Ticket) :
    Option Outcome × Session :=
  if times = 0 then (some (s.counters p), s) else s.start (.read times) p .shared ticket

def startCommand (s : Session) (command : Command) (ticket : Ticket) : Option Outcome × Session :=
  match command.lockFor with
  | .error f => (some (.failed f), s)
  | .ok (p, mode) => s.start (.run command) p mode ticket

/-! ## Letting the woken requests run -/

def isWoken (s : Session) (w : Waiting) : Bool :=
  match w.purpose with
  | .bare => s.catalog.isWoken w.acquisition w.ticket
  | _ => s.cluster.catalog.isWoken w.acquisition w.ticket

def wake (s : Session) (ticket : Ticket) : List (Ticket × Outcome) × Session :=
  match s.waiting.find? (·.ticket = ticket) with
  | none => ([], s)
  | some w =>
    if s.isWoken w then
      let s := { s with waiting := s.waiting.filter (·.ticket ≠ ticket) }
      match answered w.purpose w.acquisition.path w.acquisition.mode ticket (s.resume w) with
      | (some outcome, s) => ([(ticket, outcome)], s)
      | (none, s) => ([], s)
    else ([], s)

def wakeAll : List Ticket → Session → List (Ticket × Outcome) × Session
  | [], s => ([], s)
  | ticket :: rest, s =>
    let (done, s) := s.wake ticket
    let (more, s) := wakeAll rest s
    (done ++ more, s)

def settleWithin : Nat → Session → List (Ticket × Outcome) × Session
  | 0, s => ([], s)
  | fuel + 1, s =>
    if s.waiting.any s.isWoken then
      let (done, s) := wakeAll (s.waiting.map (·.ticket)) s
      let (more, s) := settleWithin fuel s
      (done ++ more, s)
    else ([], s)

def Waiting.attempts (w : Waiting) : Nat :=
  match w.purpose with
  | .read times => times
  | _ => 1

def effort (s : Session) : Nat :=
  s.waiting.foldl (fun attempts w => attempts + Waiting.attempts w) 0 *
    (s.cluster.tree.size + s.catalog.tree.size + s.waiting.length + 1) + 1

def settle (s : Session) : List (Ticket × Outcome) × Session := settleWithin s.effort s

def cancel (s : Session) (ticket : Ticket) : Bool × Session :=
  match s.waiting.find? (·.ticket = ticket) with
  | none => (false, s)
  | some w =>
    let rest := { s with waiting := s.waiting.filter (·.ticket ≠ ticket) }
    match w.purpose with
    | .bare => (true, rest.setCatalog (s.catalog.abandon w.acquisition ticket))
    | _ =>
      (true, { rest with
        cluster := s.cluster.setCatalog (s.cluster.catalog.abandon w.acquisition ticket) })

end Session

end DistFs
