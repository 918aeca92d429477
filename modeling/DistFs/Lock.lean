/-!
# The lock of one node

A lock is held either by any number of readers or by one writer. Requests that cannot be admitted
wait in line and are served in the order of their arrival: a reader waits behind a waiting writer,
and a writer behind anyone.
-/

namespace DistFs

inductive LockMode where
  | shared
  | exclusive
deriving DecidableEq, Repr

def LockMode.text : LockMode → String
  | shared => "shared"
  | exclusive => "exclusive"

def LockMode.ofExclusive (exclusive : Bool) : LockMode := if exclusive then .exclusive else .shared

/-- Identifies a request for a lock among all requests. -/
abbrev Ticket := Nat

/-- A place in the line of a lock. The place of an abandoned request is kept and later skipped. -/
structure Waiter where
  ticket : Ticket
  mode : LockMode
  abandoned : Bool := false
deriving DecidableEq, Repr

structure Lock where
  shared : Nat := 0
  exclusive : Nat := 0
  queue : List Waiter := []
  /-- The requests granted from the queue that have not yet taken notice. -/
  granted : List Ticket := []
  closed : Bool := false
deriving DecidableEq, Repr

inductive LockStatus where
  | free
  | shared
  | exclusive
deriving DecidableEq, Repr

inductive Admission where
  | granted
  | waiting
  | refused
deriving DecidableEq, Repr

inductive Notice where
  | granted
  | waiting
  | interrupted
deriving DecidableEq, Repr

namespace Lock

def status (l : Lock) : LockStatus :=
  if 0 < l.exclusive then .exclusive else if 0 < l.shared then .shared else .free

def admits (l : Lock) : LockMode → Bool
  | .shared => l.exclusive = 0
  | .exclusive => l.exclusive = 0 ∧ l.shared = 0

def mustQueue (l : Lock) : LockMode → Bool
  | .shared => l.queue.any (·.mode = .exclusive)
  | .exclusive => !l.queue.isEmpty

def hold (l : Lock) : LockMode → Lock
  | .shared => { l with shared := l.shared + 1 }
  | .exclusive => { l with exclusive := 1 }

def acquire (l : Lock) (mode : LockMode) (ticket : Ticket) : Admission × Lock :=
  if l.closed then (.refused, l)
  else if !l.mustQueue mode && l.admits mode then (.granted, l.hold mode)
  else (.waiting, { l with queue := l.queue ++ [{ ticket, mode }] })

def serve (l : Lock) : List Waiter → Lock
  | [] => { l with queue := [] }
  | w :: rest =>
    if l.admits w.mode then
      if w.abandoned then l.serve rest
      else { l.hold w.mode with granted := l.granted ++ [w.ticket] }.serve rest
    else { l with queue := w :: rest }

def dispatch (l : Lock) : Lock := l.serve l.queue

def release (l : Lock) : LockMode → Option Lock
  | .shared => if 0 < l.shared then some { l with shared := l.shared - 1 }.dispatch else none
  | .exclusive => if l.exclusive = 1 then some { l with exclusive := 0 }.dispatch else none

def close (l : Lock) : Lock := { l with queue := [], closed := true }

/-- The request goes away. If it was granted already, its hold stays. -/
def abandon (l : Lock) (ticket : Ticket) : Lock :=
  { l with
    queue := l.queue.map fun w => if w.ticket = ticket then { w with abandoned := true } else w
    granted := l.granted.filter (· ≠ ticket) }

/-- What the request in the line finds out now; a grant is noticed once. -/
def notice (l : Lock) (ticket : Ticket) : Notice × Lock :=
  if ticket ∈ l.granted then (.granted, { l with granted := l.granted.filter (· ≠ ticket) })
  else if l.queue.any (·.ticket = ticket) then (.waiting, l)
  else (.interrupted, l)

end Lock

end DistFs
