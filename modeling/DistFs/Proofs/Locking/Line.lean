import DistFs.Lock
/-!
# One lock and its line

What the operations on a lock make of its counters and of its line. As long as the first in line has
no room (`Stalled`), nobody who arrives gets ahead of the line. A release serves the line from the
front up to the first who has no room, and passes over the places that were abandoned.
-/

namespace DistFs

namespace Lock

variable {l l' : Lock} {line : List Waiter} {mode : LockMode} {ticket : Ticket}

def count (l : Lock) : LockMode → Nat
  | .shared => l.shared
  | .exclusive => l.exclusive

structure Unmixed (l : Lock) : Prop where
  single : l.exclusive ≤ 1
  apart : 0 < l.shared → l.exclusive = 0

/-- The first in line has no room. -/
def Stalled (l : Lock) : Prop := ∀ w ∈ l.queue.head?, l.admits w.mode = false

/-! ## Holds -/

theorem admits_iff : l.admits mode = true ↔
    l.exclusive = 0 ∧ (mode = .exclusive → l.shared = 0) := by
  cases mode <;> simp [admits]

theorem count_hold (room : l.admits mode = true) (m : LockMode) :
    (l.hold mode).count m = l.count m + if m = mode then 1 else 0 := by
  have := admits_iff.mp room
  cases mode <;> cases m <;> simp_all [hold, count]

@[simp] theorem queue_hold (l : Lock) (mode : LockMode) : (l.hold mode).queue = l.queue := by
  cases mode <;> rfl

@[simp] theorem granted_hold (l : Lock) (mode : LockMode) : (l.hold mode).granted = l.granted := by
  cases mode <;> rfl

@[simp] theorem closed_hold (l : Lock) (mode : LockMode) : (l.hold mode).closed = l.closed := by
  cases mode <;> rfl

theorem unmixed_hold (room : l.admits mode = true) : (l.hold mode).Unmixed := by
  have := admits_iff.mp room
  cases mode <;> constructor <;> simp_all [hold]

/-! ## Requests -/

theorem queue_eq_nil (stalled : l.Stalled) (first : l.mustQueue mode = false)
    (room : l.admits mode = true) : l.queue = [] := by
  cases line : l.queue with
  | nil => rfl
  | cons w rest =>
    have full := stalled w (by simp [line])
    cases mode with
    | exclusive => simp [mustQueue, line] at first
    | shared =>
      have reader : w.mode = .shared := by
        cases same : w.mode with
        | shared => rfl
        | exclusive => simp [mustQueue, line, same] at first
      rw [reader, room] at full
      cases full

theorem acquire_eq_granted (stalled : l.Stalled)
    (answer : l.acquire mode ticket = (.granted, l')) :
    l.closed = false ∧ l.admits mode = true ∧ l.queue = [] ∧ l' = l.hold mode := by
  unfold acquire at answer
  split at answer
  · cases answer
  next opened =>
    split at answer
    next free =>
      simp only [Bool.and_eq_true, Bool.not_eq_true'] at free
      obtain ⟨first, room⟩ := free
      exact ⟨by simpa using opened, room, queue_eq_nil stalled first room,
        (Prod.mk.inj answer).2.symm⟩
    next => cases answer

theorem acquire_eq_waiting (stalled : l.Stalled)
    (answer : l.acquire mode ticket = (.waiting, l')) :
    l.closed = false ∧ l'.Stalled ∧ l' = { l with queue := l.queue ++ [{ ticket, mode }] } := by
  unfold acquire at answer
  split at answer
  · cases answer
  next opened =>
    split at answer
    · cases answer
    next full =>
      have placed := (Prod.mk.inj answer).2.symm
      refine ⟨by simpa using opened, ?_, placed⟩
      rw [placed]
      -- Behind others the newcomer leaves the head as it was; alone, it found no room itself.
      intro w head
      cases queue : l.queue with
      | nil =>
        simp only [queue, List.nil_append, List.head?_cons, Option.mem_def,
          Option.some.injEq] at head
        subst head
        have alone : l.mustQueue mode = false := by cases mode <;> simp [mustQueue, queue]
        simpa [alone, admits] using full
      | cons v rest =>
        have same : v = w := by simpa [queue] using head
        have before := stalled v (by simp [queue])
        rw [← same]
        simpa [admits] using before

theorem acquire_eq_refused (answer : l.acquire mode ticket = (.refused, l')) :
    l.closed = true ∧ l' = l := by
  unfold acquire at answer
  split at answer
  next closed => exact ⟨closed, (Prod.mk.inj answer).2.symm⟩
  next => split at answer <;> cases answer

@[simp] theorem closed_acquire (l : Lock) (mode : LockMode) (ticket : Ticket) :
    (l.acquire mode ticket).2.closed = l.closed := by
  unfold acquire
  split
  · rfl
  · split
    · exact closed_hold l mode
    · rfl

@[simp] theorem closed_notice (l : Lock) (ticket : Ticket) :
    (l.notice ticket).2.closed = l.closed := by
  unfold notice
  split
  · rfl
  · split <;> rfl

/-! ## Releases -/

theorem release_isSome (single : l.exclusive ≤ 1) :
    (l.release mode).isSome = true ↔ 0 < l.count mode := by
  cases mode with
  | shared => simp [release, count]
  | exclusive =>
    simp only [release, count, Option.isSome_ite]
    omega

theorem Unmixed.serve (h : l.Unmixed) (line : List Waiter) : (l.serve line).Unmixed := by
  induction line generalizing l with
  | nil => exact ⟨h.single, h.apart⟩
  | cons w rest ih =>
    unfold Lock.serve
    split
    next room =>
      split
      · exact ih h
      · have held := unmixed_hold room
        exact ih ⟨held.single, held.apart⟩
    next => exact ⟨h.single, h.apart⟩

theorem Unmixed.release (h : l.Unmixed) (answer : l.release mode = some l') : l'.Unmixed := by
  unfold Lock.release at answer
  cases mode with
  | shared =>
    obtain ⟨some_reader, released⟩ := Option.ite_none_right_eq_some.mp answer
    obtain rfl := Option.some.inj released
    refine Unmixed.serve ?_ _
    exact ⟨h.single, fun _ => h.apart some_reader⟩
  | exclusive =>
    obtain ⟨-, released⟩ := Option.ite_none_right_eq_some.mp answer
    obtain rfl := Option.some.inj released
    refine Unmixed.serve ?_ _
    exact ⟨Nat.zero_le 1, fun _ => rfl⟩

/-- Those who have passed from the front of the line were granted, unless they had gone away. -/
structure Serves (l : Lock) (line passed : List Waiter) (l' : Lock) : Prop where
  line : line = passed ++ l'.queue
  granted : l'.granted = l.granted ++ (passed.filter (!·.abandoned)).map (·.ticket)
  closed : l'.closed = l.closed
  stalled : l'.Stalled

theorem serve_serves (l : Lock) (line : List Waiter) :
    ∃ passed, l.Serves line passed (l.serve line) := by
  induction line generalizing l with
  | nil => exact ⟨[], rfl, by simp [serve], rfl, by simp [serve, Stalled]⟩
  | cons w rest ih =>
    unfold serve
    split
    next room =>
      split
      next gone =>
        obtain ⟨passed, serves⟩ := ih l
        exact ⟨w :: passed, congrArg (w :: ·) serves.line, by simp [serves.granted, gone],
          serves.closed, serves.stalled⟩
      next present =>
        obtain ⟨passed, line, granted, closed, stalled⟩ :=
          ih { l.hold w.mode with granted := l.granted ++ [w.ticket] }
        exact ⟨w :: passed, congrArg (w :: ·) line, granted.trans (by simp [present]),
          closed.trans (closed_hold l w.mode), stalled⟩
    next full =>
      refine ⟨[], rfl, by simp, rfl, ?_⟩
      rintro v ⟨⟩
      simpa [admits] using full

theorem release_serves (answer : l.release mode = some l') :
    ∃ passed, l.Serves l.queue passed l' := by
  unfold release at answer
  cases mode with
  | shared =>
    obtain ⟨-, released⟩ := Option.ite_none_right_eq_some.mp answer
    obtain rfl := Option.some.inj released
    obtain ⟨passed, serves⟩ := serve_serves { l with shared := l.shared - 1 } l.queue
    exact ⟨passed, serves.line, serves.granted, serves.closed, serves.stalled⟩
  | exclusive =>
    obtain ⟨-, released⟩ := Option.ite_none_right_eq_some.mp answer
    obtain rfl := Option.some.inj released
    obtain ⟨passed, serves⟩ := serve_serves { l with exclusive := 0 } l.queue
    exact ⟨passed, serves.line, serves.granted, serves.closed, serves.stalled⟩

/-! ## Requests that go away -/

theorem mem_queue_abandon {w : Waiter} : w ∈ (l.abandon ticket).queue ↔
    ∃ v ∈ l.queue, (if v.ticket = ticket then { v with abandoned := true } else v) = w :=
  List.mem_map

@[simp] theorem tickets_abandon (l : Lock) (ticket : Ticket) :
    (l.abandon ticket).queue.map (·.ticket) = l.queue.map (·.ticket) := by
  rw [abandon, List.map_map]
  refine List.map_congr_left fun w _ => ?_
  rw [Function.comp_apply]
  split <;> rfl

theorem Stalled.abandon (stalled : l.Stalled) (ticket : Ticket) : (l.abandon ticket).Stalled := by
  intro w head
  simp only [Lock.abandon, List.head?_map, Option.mem_def, Option.map_eq_some_iff] at head
  obtain ⟨v, first, rfl⟩ := head
  have full := stalled v first
  split <;> exact full

/-! ## Nobody gets ahead of the line -/

theorem stalled_nil (empty : l.queue = []) : l.Stalled := by
  intro w head
  rw [empty] at head
  cases head

theorem Stalled.acquire {admission : Admission} (stalled : l.Stalled)
    (answer : l.acquire mode ticket = (admission, l')) : l'.Stalled := by
  cases admission with
  | granted =>
    obtain ⟨-, -, empty, rfl⟩ := acquire_eq_granted stalled answer
    exact stalled_nil ((queue_hold l mode).trans empty)
  | waiting => exact (acquire_eq_waiting stalled answer).2.1
  | refused => exact (acquire_eq_refused answer).2 ▸ stalled

theorem Stalled.notice {notice : Notice} (stalled : l.Stalled)
    (answer : l.notice ticket = (notice, l')) : l'.Stalled := by
  obtain rfl := congrArg Prod.snd answer
  unfold Lock.notice
  split
  · exact stalled
  · split <;> exact stalled

theorem stalled_release (answer : l.release mode = some l') : l'.Stalled :=
  (release_serves answer).elim fun _ serves => serves.stalled

theorem release_hold (empty : l.queue = []) : (l.hold .shared).release .shared = some l := by
  obtain ⟨shared, exclusive, queue, granted, closed⟩ := l
  obtain rfl : queue = [] := empty
  simp [release, hold, dispatch, serve]

/-! ## Closed locks -/

structure Shut (l : Lock) : Prop where
  closed : l.closed = true
  empty : l.queue = []

theorem shut_close (l : Lock) : l.close.Shut := ⟨rfl, rfl⟩

namespace Shut

theorem acquire (h : l.Shut) (mode : LockMode) (ticket : Ticket) :
    l.acquire mode ticket = (.refused, l) := by
  rw [Lock.acquire, if_pos h.closed]

theorem notice (h : l.Shut) (ticket : Ticket) :
    (l.notice ticket).1 ≠ .waiting ∧ (l.notice ticket).2.Shut := by
  unfold Lock.notice
  split
  · exact ⟨nofun, h.closed, h.empty⟩
  · rw [h.empty]
    exact ⟨nofun, h⟩

theorem release (h : l.Shut) (answer : l.release mode = some l') : l'.Shut := by
  obtain ⟨passed, serves⟩ := release_serves answer
  have line := serves.line
  rw [h.empty, List.nil_eq_append_iff] at line
  exact ⟨serves.closed.trans h.closed, line.2⟩

end Shut

end Lock

end DistFs
