import DistFs.Proofs.Locking.Changes

namespace DistFs

theorem Lock.Shut.turns {l l' : Lock} (shut : l.Shut) (turns : l.Turns l') : l'.Shut := by
  cases turns with
  | acquire acquired =>
    rw [shut.acquire] at acquired
    cases acquired
    exact shut
  | notice noticed =>
    obtain rfl := congrArg Prod.snd noticed
    exact (shut.notice _).2
  | release released => exact shut.release released
  | abandon ticket =>
    refine ⟨shut.closed, ?_⟩
    rw [abandon, shut.empty]
    rfl
  | close => exact shut_close l

namespace LockTable

variable {table table' : LockTable} {among : NodeId → Prop} {n : NodeId}

theorem Changed.shut (changed : Changed among table table') (shut : (table.get n).Shut) :
    (table'.get n).Shut := by
  refine changed.keeps (P := fun m l => m = n → l.Shut) ?_ (fun m same => same ▸ shut) n rfl
  exact fun m l l' _ shut turns same => (shut same).turns turns

theorem get_close_all (nodes : List NodeId) (n : Nat) :
    (nodes.foldl (fun locks n => locks.set n (locks.get n).close) table).get n =
      if n ∈ nodes then (table.get n).close else table.get n := by
  induction nodes generalizing table with
  | nil => simp
  | cons m rest ih =>
    rw [List.foldl_cons, ih, get_set]
    by_cases same : n = m
    · subst same
      simp only [if_true, List.mem_cons_self]
      split <;> rfl
    · rw [if_neg same]
      simp only [List.mem_cons, same, false_or]

end LockTable

namespace Catalog

variable {c : Catalog} {ticket : Ticket} {a : Acquisition}

theorem get_interrupt (wf : c.tree.WellFormed) (n : Nat) :
    (c.tree.Attached n → c.interrupt.2.locks.get n = (c.locks.get n).close) ∧
      (¬ c.tree.Attached n → c.interrupt.2.locks.get n = c.locks.get n) := by
  have closed : c.interrupt.2.locks.get n = _ := LockTable.get_close_all c.tree.reachable n
  have reachable := Tree.mem_reachable (n := n) wf
  exact ⟨fun attached => closed.trans (if_pos (reachable.mpr attached)),
    fun removed => closed.trans (if_neg fun walked => removed (reachable.mp walked))⟩

/-! ## Woken requests -/

theorem resume_effort_lt {b : Acquisition} (woken : c.isWoken a ticket = true)
    (waits : (c.resume a ticket).1 = .waiting b) : b.effort c.tree < a.effort c.tree := by
  have stops : (c.locks.resume c.tree ticket a).1 = .waiting b :=
    congrArg Prod.fst (waiting_of_conclude waits)
  cases pending : a.pending with
  | nil =>
    rw [LockTable.resume, pending] at stops
    cases stops
  | cons x rest =>
    rcases resume_of_woken woken pending with away | on
    · rw [away] at stops
      cases stops
    · have taken : a.Takes c.tree (a.take c.tree x.1 x.2 rest) := ⟨_, _, rest, pending, rfl⟩
      have reached := on.reached
      rw [stops] at reached
      exact Nat.lt_of_le_of_lt reached.effort_le taken.effort_lt

end Catalog

end DistFs
