import DistFs.Proofs.Locking.Changes
/-!
# Lines without room

In every lock the first in line has no room, whatever has been called before: this takes no account
of who calls, so it holds as well if requests go on out of turn, are abandoned or unlock what they
have not locked.
-/

namespace DistFs

theorem Lock.Stalled.turns {l l' : Lock} (stalled : l.Stalled) (turns : l.Turns l') :
    l'.Stalled := by
  cases turns with
  | acquire acquired => exact stalled.acquire acquired
  | notice noticed => exact stalled.notice noticed
  | release released => exact stalled_release released
  | abandon ticket => exact stalled.abandon ticket
  | close => exact stalled_nil rfl

namespace LockTable

variable {table table' : LockTable} {among : NodeId → Prop}

def Stalled (table : LockTable) : Prop := ∀ n : Nat, (table.get n).Stalled

theorem stalled_empty : Stalled {} := fun n => Lock.stalled_nil (by rw [get_empty])

theorem Stalled.changed (stalled : table.Stalled) (changed : Changed among table table') :
    table'.Stalled :=
  changed.keeps (P := fun _ l => l.Stalled) (fun _ _ _ _ => Lock.Stalled.turns) stalled

end LockTable

namespace Catalog

variable {c : Catalog}

theorem stalled_lock (stalled : c.locks.Stalled) (p : Path) (mode : LockMode) (ticket : Ticket) :
    (c.lock p mode ticket).2.locks.Stalled :=
  stalled.changed (changed_lock c.locks.newOutside_everywhere fun _ _ => .anywhere ..)

theorem stalled_resume (stalled : c.locks.Stalled) (a : Acquisition) (ticket : Ticket) :
    (c.resume a ticket).2.locks.Stalled :=
  stalled.changed (changed_resume c.locks.newOutside_everywhere (.anywhere ..) ticket)

theorem stalled_abandon (stalled : c.locks.Stalled) (a : Acquisition) (ticket : Ticket) :
    (c.abandon a ticket).locks.Stalled :=
  stalled.changed (changed_abandon (.anywhere a c.tree) ticket)

theorem stalled_unlock (stalled : c.locks.Stalled) (p : Path) (mode : LockMode) :
    (c.unlock p mode).2.locks.Stalled :=
  stalled.changed (changed_unlock c.locks.newOutside_everywhere p mode)

theorem stalled_interrupt (stalled : c.locks.Stalled) : c.interrupt.2.locks.Stalled := by
  have changed : LockTable.Changed (fun _ => True) c.locks c.interrupt.2.locks :=
    changed_interrupt fun _ _ => trivial
  exact stalled.changed changed

end Catalog

end DistFs
