import DistFs.Locking
import DistFs.Proofs.Locking.Line
import Mathlib.Data.List.Nodup
/-!
# Who owns the holds of a lock

The counters of a lock are explained by two things: the holds that somebody has taken, and the
requests that were granted from the line but have not yet taken notice. The account is kept by
every operation on a lock, and so by every operation on the table of all locks.

A reader who gives up a hold that he has not taken leaves an owner without one. The account of a
strict ledger admits no such thing, and its counters are exact; otherwise they count no more readers
than there are owners. Writers give up what was recorded for them, so they are always counted
exactly.
-/

namespace DistFs

abbrev Waits := Ticket → Option (NodeId × LockMode)

namespace Waits

def set (waits : Waits) (ticket : Ticket) (place : Option (NodeId × LockMode)) : Waits :=
  fun t => if t = ticket then place else waits t

theorem set_self (waits : Waits) (ticket : Ticket) (place : Option (NodeId × LockMode)) :
    waits.set ticket place ticket = place := by
  simp [set]

theorem set_other {waits : Waits} {ticket t : Ticket} {place : Option (NodeId × LockMode)}
    (other : t ≠ ticket) : waits.set ticket place t = waits t := by
  simp [set, other]

theorem set_eq_self {waits : Waits} {ticket : Ticket} {place : Option (NodeId × LockMode)}
    (h : waits ticket = place) : waits.set ticket place = waits := by
  funext t
  by_cases same : t = ticket <;> simp [set, same, h]

theorem set_set (waits : Waits) (ticket : Ticket) (place place' : Option (NodeId × LockMode)) :
    (waits.set ticket place).set ticket place' = waits.set ticket place' := by
  funext t
  by_cases same : t = ticket <;> simp [set, same]

end Waits

/-- A counter shows no more than it should, and exactly that if the ledger is strict. -/
structure Tally (strict : Prop) (shown due : Nat) : Prop where
  le : shown ≤ due
  eq : strict → shown = due

theorem Tally.of_add {strict : Prop} {a b a' b' : Nat} (h : Tally strict a b)
    (same : a' + b = a + b') : Tally strict a' b' := by
  refine ⟨?_, fun exactly => ?_⟩
  · have := h.le
    omega
  · have := h.eq exactly
    omega

theorem Tally.mono {strict strict' : Prop} {a b : Nat} (h : Tally strict a b)
    (fewer : strict' → strict) : Tally strict' a b :=
  ⟨h.le, fun exactly => h.eq (fewer exactly)⟩

abbrev Exact (strict : Prop) (mode : LockMode) : Prop := strict ∨ mode = .exclusive

namespace Lock

variable {l l' : Lock} {line : List Waiter} {n : Nat} {waits : Waits}
  {held held' : List (NodeId × LockMode)} {mode : LockMode} {ticket : Ticket} {strict : Prop}

/-- The account of the lock of the node `n`, with `line` standing in line: of the holds of a mode
each is listed in `held` or belongs to a request that was granted from the line. -/
structure Accounts (l : Lock) (line : List Waiter) (n : NodeId) (waits : Waits)
    (held : List (NodeId × LockMode)) (strict : Prop) : Prop where
  count : ∀ m, Tally (Exact strict m) (l.count m)
    (held.count (n, m) + l.granted.countP (waits · = some (n, m)))
  single : l.exclusive ≤ 1
  apart : 0 < l.shared → l.exclusive = 0
  waiting : ∀ w ∈ line, waits w.ticket = some (n, w.mode) ∧ w.abandoned = false
  granted : ∀ t ∈ l.granted, ∃ m, waits t = some (n, m)
  nodup : (line.map (·.ticket) ++ l.granted).Nodup

structure Settled (l : Lock) (n : NodeId) (waits : Waits) (held : List (NodeId × LockMode))
    (strict : Prop) : Prop extends Accounts l l.queue n waits held strict where
  head : ∀ w ∈ l.queue.head?, l.admits w.mode = false

namespace Accounts

theorem of_same (h : l.Accounts line n waits held strict) (shared : l'.shared = l.shared)
    (exclusive : l'.exclusive = l.exclusive) (granted : l'.granted = l.granted) :
    l'.Accounts line n waits held strict := by
  have count (m : LockMode) : l'.count m = l.count m := by cases m <;> simp [Lock.count, *]
  refine ⟨fun m => ?_, ?_, ?_, h.waiting, ?_, ?_⟩
  · rw [count, granted]
    exact h.count m
  · rw [exclusive]
    exact h.single
  · rw [shared, exclusive]
    exact h.apart
  · rw [granted]
    exact h.granted
  · rw [granted]
    exact h.nodup

theorem hold (h : l.Accounts line n waits held strict) (room : l.admits mode = true) :
    (l.hold mode).Accounts line n waits ((n, mode) :: held) strict := by
  obtain ⟨single, apart⟩ := unmixed_hold room
  refine ⟨fun m => ?_, single, apart, h.waiting, by simpa using h.granted, by simpa using h.nodup⟩
  refine (h.count m).of_add ?_
  rw [count_hold room, granted_hold, List.count_cons]
  simp only [beq_iff_eq, Prod.mk.injEq, true_and, eq_comm (a := mode)]
  omega

theorem grant {w : Waiter} (h : l.Accounts (w :: line) n waits held strict)
    (room : l.admits w.mode = true) :
    ({ l.hold w.mode with granted := l.granted ++ [w.ticket] } : Lock).Accounts line n waits
      held strict := by
  obtain ⟨single, apart⟩ := unmixed_hold room
  obtain ⟨place, -⟩ := h.waiting w List.mem_cons_self
  refine ⟨fun m => ?_, single, apart, fun v later => h.waiting v (List.mem_cons_of_mem _ later),
    ?_, ?_⟩
  · refine (h.count m).of_add ?_
    change (l.hold w.mode).count m + _ = _
    rw [count_hold room, List.countP_append, List.countP_singleton]
    simp only [place, Option.some.injEq, Prod.mk.injEq, true_and, decide_eq_true_eq,
      eq_comm (a := w.mode)]
    omega
  · intro t member
    rcases List.mem_append.mp member with before | last
    · exact h.granted t before
    · exact ⟨w.mode, by rw [List.mem_singleton.mp last, place]⟩
  · have := h.nodup
    simp only [List.map_cons, List.cons_append, List.nodup_cons] at this
    change (line.map (·.ticket) ++ (l.granted ++ [w.ticket])).Nodup
    rw [← List.append_assoc, List.nodup_append_comm]
    simpa using this

theorem serve (h : l.Accounts line n waits held strict) :
    (l.serve line).Settled n waits held strict := by
  induction line generalizing l with
  | nil => exact ⟨h.of_same rfl rfl rfl, by simp [Lock.serve]⟩
  | cons w rest ih =>
    unfold Lock.serve
    have present := (h.waiting w List.mem_cons_self).2
    by_cases room : l.admits w.mode = true
    · simp only [room, present, if_true, Bool.false_eq_true, if_false]
      exact ih (h.grant room)
    · simp only [room, Bool.false_eq_true, if_false]
      refine ⟨h.of_same rfl rfl rfl, ?_⟩
      rintro v ⟨⟩
      simpa [admits] using room

end Accounts

/-! ## The operations on one lock -/

namespace Settled

theorem of_held (h : l.Settled n waits held strict)
    (same : ∀ m, held'.count (n, m) = held.count (n, m)) : l.Settled n waits held' strict :=
  ⟨⟨fun m => by rw [same]; exact h.count m, h.single, h.apart, h.waiting, h.granted, h.nodup⟩,
    h.head⟩

theorem loosen (h : l.Settled n waits held True) : l.Settled n waits held strict :=
  ⟨⟨fun m => (h.count m).mono fun _ => .inl trivial, h.single, h.apart, h.waiting, h.granted,
    h.nodup⟩, h.head⟩

theorem of_waits (h : l.Settled n waits held strict) (place : Option (NodeId × LockMode))
    (line : ∀ w ∈ l.queue, w.ticket ≠ ticket) (granted : ticket ∉ l.granted) :
    l.Settled n (waits.set ticket place) held strict := by
  refine ⟨⟨fun m => ?_, h.single, h.apart, fun w member => ?_, fun t member => ?_, h.nodup⟩,
    h.head⟩
  · refine (h.count m).of_add ?_
    congr 2
    apply List.countP_congr
    intro t member
    rw [Waits.set_other (ne_of_mem_of_not_mem member granted)]
  · rw [Waits.set_other (line w member)]
    exact h.waiting w member
  · rw [Waits.set_other (ne_of_mem_of_not_mem member granted)]
    exact h.granted t member

theorem not_in_line (h : l.Settled n waits held strict) (away : ∀ m, waits ticket ≠ some (n, m)) :
    (∀ w ∈ l.queue, w.ticket ≠ ticket) ∧ ticket ∉ l.granted := by
  constructor
  · rintro w member rfl
    exact away w.mode (h.waiting w member).1
  · intro member
    obtain ⟨m, place⟩ := h.granted ticket member
    exact away m place

theorem elsewhere {place : Option (NodeId × LockMode)} (h : l.Settled n waits held strict)
    (away : ∀ m, waits ticket ≠ some (n, m)) :
    l.Settled n (waits.set ticket place) held strict := by
  obtain ⟨line, granted⟩ := h.not_in_line away
  exact h.of_waits place line granted

theorem acquire_granted (h : l.Settled n waits held strict)
    (answer : l.acquire mode ticket = (.granted, l')) :
    l'.Settled n waits ((n, mode) :: held) strict := by
  obtain ⟨-, room, empty, rfl⟩ := acquire_eq_granted h.head answer
  exact ⟨by simpa using h.hold room, by simp [empty]⟩

theorem acquire_waiting (h : l.Settled n waits held strict) (new : waits ticket = none)
    (answer : l.acquire mode ticket = (.waiting, l')) :
    l'.Settled n (waits.set ticket (some (n, mode))) held strict := by
  obtain ⟨-, stalled, rfl⟩ := acquire_eq_waiting h.head answer
  have away : ∀ m, waits ticket ≠ some (n, m) := by simp [new]
  obtain ⟨line, granted⟩ := h.not_in_line away
  have moved := h.of_waits (some (n, mode)) line granted
  refine ⟨⟨moved.count, moved.single, moved.apart, ?_, moved.granted, ?_⟩, stalled⟩
  · intro w member
    rcases List.mem_append.mp member with before | last
    · exact moved.waiting w before
    · obtain rfl := List.mem_singleton.mp last
      exact ⟨Waits.set_self _ _ _, rfl⟩
  · simp only [List.map_append, List.map_cons, List.map_nil, List.append_assoc,
      List.singleton_append]
    refine List.nodup_middle.mpr (List.nodup_cons.mpr ⟨?_, h.nodup⟩)
    simp only [List.mem_append, List.mem_map, not_or, not_exists, not_and]
    exact ⟨fun w member => line w member, granted⟩

theorem notice_granted (h : l.Settled n waits held strict) (place : waits ticket = some (n, mode))
    (answer : l.notice ticket = (.granted, l')) :
    l'.Settled n (waits.set ticket none) ((n, mode) :: held) strict := by
  unfold notice at answer
  split at answer
  next member =>
    obtain rfl : { l with granted := l.granted.filter (· ≠ ticket) } = l' :=
      (Prod.mk.inj answer).2
    have nodup := List.nodup_append'.mp h.nodup
    have line : ∀ w ∈ l.queue, w.ticket ≠ ticket := by
      rintro w listed rfl
      exact nodup.2.2 (List.mem_map_of_mem listed) member
    have erased : l.granted.filter (· ≠ ticket) = l.granted.erase ticket := by
      rw [nodup.2.1.erase_eq_filter]
      exact List.filter_congr fun t _ => by simp [bne, Bool.beq_eq_decide_eq]
    refine ⟨⟨fun m => ?_, h.single, h.apart, fun w listed => ?_, fun t kept => ?_, ?_⟩, h.head⟩
    · have others : (l.granted.erase ticket).countP (waits.set ticket none · = some (n, m)) =
          (l.granted.erase ticket).countP (waits · = some (n, m)) := by
        apply List.countP_congr
        intro t kept
        rw [Waits.set_other (nodup.2.1.mem_erase_iff.mp kept).1]
      have all := (List.perm_cons_erase member).countP_eq (waits · = some (n, m))
      refine (h.count m).of_add ?_
      change l.count m + _ = l.count m + (_ + (l.granted.filter (· ≠ ticket)).countP _)
      rw [erased, others, List.count_cons, all, List.countP_cons, place]
      simp only [decide_eq_true_eq, Option.some.injEq, beq_iff_eq]
      omega
    · rw [Waits.set_other (line w listed)]
      exact h.waiting w listed
    · have other : t ≠ ticket := by simpa using (List.mem_filter.mp kept).2
      rw [Waits.set_other other]
      exact h.granted t (List.mem_filter.mp kept).1
    · exact h.nodup.sublist (List.Sublist.append_left List.filter_sublist _)
  next => split at answer <;> cases answer

theorem notice_interrupted (h : l.Settled n waits held strict)
    (answer : l.notice ticket = (.interrupted, l')) :
    l.Settled n (waits.set ticket none) held strict := by
  unfold notice at answer
  split at answer
  · cases answer
  next granted =>
    split at answer
    · cases answer
    next line =>
      refine h.of_waits none (fun w member same => ?_) granted
      exact line (List.any_eq_true.mpr ⟨w, member, by simpa using same⟩)

theorem release_some (h : l.Settled n waits held strict) (answer : l.release mode = some l')
    (left : ∀ m, Tally (Exact strict m) (l.count m - if m = mode then 1 else 0)
      (held'.count (n, m) + l.granted.countP (waits · = some (n, m)))) :
    l'.Settled n waits held' strict := by
  unfold Lock.release at answer
  cases mode with
  | shared =>
    obtain ⟨some_reader, released⟩ := Option.ite_none_right_eq_some.mp answer
    obtain rfl := Option.some.inj released
    refine Accounts.serve ⟨fun m => ?_, h.single, fun _ => h.apart some_reader, h.waiting,
      h.granted, h.nodup⟩
    have := left m
    cases m <;> simpa [Lock.count] using this
  | exclusive =>
    obtain ⟨one_writer, released⟩ := Option.ite_none_right_eq_some.mp answer
    obtain rfl := Option.some.inj released
    refine Accounts.serve ⟨fun m => ?_, Nat.zero_le 1, fun _ => rfl, h.waiting, h.granted,
      h.nodup⟩
    have := left m
    cases m <;> simpa [Lock.count, one_writer] using this

theorem release_count (h : l.Settled n waits held strict) :
    (l.release mode).isSome = true ↔ 0 < l.count mode := release_isSome h.single

/-- Who has taken a hold gives it up. If it is missing, somebody else has given it up before. -/
theorem release_owned (h : l.Settled n waits held strict) (owned : (n, mode) ∈ held) :
    (∃ l', l.release mode = some l' ∧ l'.Settled n waits (held.erase (n, mode)) strict) ∨
      l.release mode = none ∧ ¬ Exact strict mode ∧
        l.Settled n waits (held.erase (n, mode)) strict := by
  have positive : 0 < held.count (n, mode) := List.count_pos_iff.mpr owned
  have count (m : LockMode) : (held.erase (n, mode)).count (n, m) =
      held.count (n, m) - if m = mode then 1 else 0 := by
    rw [List.count_erase]
    simp only [beq_iff_eq, Prod.mk.injEq, true_and, eq_comm (a := mode)]
  have some_hold : (l.release mode).isSome = true ↔ 0 < l.count mode := h.release_count
  cases answer : l.release mode with
  | some l' =>
    refine .inl ⟨l', rfl, h.release_some answer fun m => ?_⟩
    simp only [answer, Option.isSome_some, true_iff] at some_hold
    refine (h.count m).of_add ?_
    rw [count]
    split
    next same => subst same; omega
    next => omega
  | none =>
    simp only [answer, Option.isSome_none, Bool.false_eq_true, false_iff, Nat.not_lt,
      Nat.le_zero] at some_hold
    have inexact : ¬ Exact strict mode := fun exactly => by
      have := (h.count mode).eq exactly
      omega
    refine .inr ⟨rfl, inexact, ⟨fun m => ?_, h.single, h.apart, h.waiting, h.granted, h.nodup⟩,
      h.head⟩
    rw [count]
    split
    next same =>
      subst same
      exact ⟨by omega, fun exactly => absurd exactly inexact⟩
    next => exact h.count m

theorem release_stray (h : l.Settled n waits held strict) (loose : ¬ strict)
    (answer : l.release .shared = some l') : l'.Settled n waits held strict := by
  refine h.release_some answer fun m => ?_
  cases m with
  | shared =>
    exact ⟨Nat.le_trans (Nat.sub_le ..) (h.count .shared).le, fun exactly => by simp_all [Exact]⟩
  | exclusive => exact h.count .exclusive

theorem close (h : l.Settled n waits held strict) : l.close.Settled n waits held strict := by
  refine ⟨⟨h.count, h.single, h.apart, by simp [Lock.close], h.granted, ?_⟩, by simp [Lock.close]⟩
  exact h.nodup.sublist (by simp [Lock.close])

end Settled

end Lock

end DistFs
