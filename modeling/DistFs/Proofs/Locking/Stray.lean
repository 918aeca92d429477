import DistFs.Proofs.Locking.Accounts
import DistFs.Proofs.Locking.Churn
/-!
# Unlocks of what nobody has locked

An exclusive lock is given up only if there is a record of it, so an unlock that nobody is entitled
to is refused. A shared lock leaves no record: an unlock asks the node at the path alone, which
counts the writers below it like readers of its own. While there is one, a stray unlock succeeds
and takes away what the writer has on the node.
-/

namespace DistFs

namespace Catalog

def Takes (c : Catalog) (p : Path) (n : NodeId) : Prop :=
  ∃ locks, c.unlock p .shared = (.ok (), { c with locks }) ∧ c.locks.Released [(n, .shared)] locks

end Catalog

namespace Traffic

variable {s : Traffic} {strict : Prop} {p : Path} {mode : LockMode} {n : Nat}

/-- A lock of the path was granted in this mode and is not unlocked. A reader who is served from the
line has the lock before taking notice. -/
def Locked (s : Traffic) (p : Path) : LockMode → Prop
  | .shared => ∃ call ∈ s.calls.current, call.acquisition.path = p ∧
      s.Reads call.acquisition.target call
  | .exclusive => ∃ call ∈ s.calls.granted, call.acquisition.path = p ∧
      call.acquisition.mode = .exclusive

instance (s : Traffic) (p : Path) : (mode : LockMode) → Decidable (s.Locked p mode)
  | .shared => inferInstanceAs (Decidable (∃ call ∈ s.calls.current, _ ∧ _))
  | .exclusive => inferInstanceAs (Decidable (∃ call ∈ s.calls.granted, _ ∧ _))

namespace Sound

theorem refuses_exclusive (h : s.Sound strict) (stray : ¬ s.Locked p .exclusive) :
    s.catalog.Refuses p .exclusive := by
  refine Catalog.refuses_unrecorded fun hold kept path => stray ?_
  obtain ⟨call, member, writer, rfl⟩ := h.regular.holder kept
  exact ⟨call, member, path, writer⟩

theorem passes_of_owns (h : s.Sound strict) (stray : ¬ s.Locked p .shared)
    (found : s.catalog.tree.find? p = some n) {call : Call} (member : call ∈ s.calls.current)
    (owns : s.Owns call n .shared) : s.Passes n call := by
  rcases (h.owns_shared_iff member).mp owns with reads | passes
  · have target := reads.2.1
    have path := (h.regular.course call member).path
    rw [target, ((Tree.find?_eq_some_iff h.tree).mp found).2] at path
    exact absurd ⟨call, member, path.symm, target ▸ reads⟩ stray
  · exact passes

theorem passed_of_shared (h : s.Sound strict) (stray : ¬ s.Locked p .shared)
    (found : s.catalog.tree.find? p = some n) (held : 0 < (s.catalog.locks.get n).shared) :
    ∃ call ∈ s.calls.current, s.Passes n call := by
  have counted := (h.count_owners n .shared).le
  have owned := Nat.lt_of_lt_of_le held counted
  obtain ⟨call, member, owns⟩ := List.countP_pos_iff.mp owned
  exact ⟨call, member, h.passes_of_owns stray found member (of_decide_eq_true owns)⟩

theorem shared_of_passes (h : s.Sound strict) (exactly : strict) {call : Call}
    (member : call ∈ s.calls.current) (passes : s.Passes n call) :
    0 < (s.catalog.locks.get n).shared := by
  have counted : (s.catalog.locks.get n).shared = _ := (h.count_owners n .shared).eq exactly
  have owns := (h.owns_shared_iff member).mpr (.inr passes)
  rw [counted]
  exact List.countP_pos_iff.mpr ⟨call, member, decide_eq_true owns⟩

end Sound

end Traffic

namespace Churn

variable {s : Churn} {threshold : Nat} {strict : Prop}

/-- An unlock that nobody is entitled to is refused and changes nothing, unless it is a shared one
of a node with a writer below. Then it takes away what a writer has on the node; if all unlocks
before were in order, it always does. -/
theorem stray_unlock (reachable : Reachable threshold strict s) (p : Path) (mode : LockMode)
    (stray : ¬ s.Locked p mode) :
    (s.catalog.Refuses p mode ∨ mode = .shared ∧ ∃ n, s.catalog.tree.find? p = some n ∧
      (∃ writer ∈ s.calls.current, s.Passes n writer) ∧ s.catalog.Takes p n) ∧
    (strict → mode = .shared → ∀ n, s.catalog.tree.find? p = some n →
      (∃ writer ∈ s.calls.current, s.Passes n writer) → s.catalog.Takes p n) := by
  have sound : s.toTraffic.Sound strict := reachable.sound
  constructor
  · cases mode with
    | exclusive => exact .inl (Traffic.Sound.refuses_exclusive sound stray)
    | shared =>
      by_cases held : ∃ n, s.catalog.tree.find? p = some n ∧ 0 < (s.catalog.locks.get n).shared
      · obtain ⟨n, found, held⟩ := held
        exact .inr ⟨rfl, n, found, Traffic.Sound.passed_of_shared sound stray found held,
          Catalog.unlock_reader found held⟩
      · refine .inl (Catalog.refuses_unread sound.tree fun n found => ?_)
        exact Nat.eq_zero_of_not_pos fun read => held ⟨n, found, read⟩
  · rintro exactly rfl n found ⟨writer, member, passes⟩
    exact Catalog.unlock_reader found
      (Traffic.Sound.shared_of_passes sound exactly member passes)

def entered : Churn :=
  ((start 1).setTree ((start 1).catalog.tree.register .sole ⟨.direct "s", .direct "s"⟩).2).lock
    .sole .exclusive 0

theorem entered_loses_root :
    (¬ entered.Locked .root .shared ∧ entered.catalog.Takes .root 0) ∧
      ¬ entered.Locked .sole .shared ∧ entered.catalog.Refuses .sole .shared := by
  have reachable : Reachable 1 True entered := by
    refine .next (.next .start (.register ..)) (.lock _ _ _ ?_)
    decide +kernel
  have unread : ¬ entered.Locked .root .shared := by decide +kernel
  have unread' : ¬ entered.Locked .sole .shared := by decide +kernel
  have passed : ∃ writer ∈ entered.calls.current, entered.Passes 0 writer := by decide +kernel
  refine ⟨⟨unread, ?_⟩, unread', ?_⟩
  · exact (stray_unlock reachable .root .shared unread).2 trivial rfl 0 rfl passed
  · rcases (stray_unlock reachable .sole .shared unread').1 with refused | ⟨-, n, found, passed, -⟩
    · exact refused
    · have found' : entered.catalog.tree.find? .sole = some 1 := by decide +kernel
      obtain rfl : 1 = n := Option.some.inj (found'.symm.trans found)
      exact absurd passed (by decide +kernel)

end Churn

end DistFs
