import DistFs.Proofs.Locking.Line

namespace DistFs

inductive LockEvent where
  | acquire (mode : LockMode)
  | release (mode : LockMode)
  | close
  | notice (ticket : Ticket)
  | abandon (ticket : Ticket)
deriving DecidableEq

structure LockHistory where
  lock : Lock := {}
  /-- How many requests have arrived. They are numbered in the order of their arrival. -/
  arrived : Nat := 0
  granted : List Ticket := []
  dropped : List Ticket := []
  refused : List Ticket := []

namespace LockHistory

variable {h : LockHistory} {mode : LockMode}

def arrive (h : LockHistory) : Admission × Lock → LockHistory
  | (.granted, lock) =>
    { h with lock, arrived := h.arrived + 1, granted := h.granted ++ [h.arrived] }
  | (.waiting, lock) => { h with lock, arrived := h.arrived + 1 }
  | (.refused, lock) =>
    { h with lock, arrived := h.arrived + 1, refused := h.refused ++ [h.arrived] }

def passOn (h : LockHistory) : Option Lock → LockHistory
  | none => h
  | some lock => { h with lock, granted := h.granted ++ lock.granted.drop h.lock.granted.length }

def step (h : LockHistory) : LockEvent → LockHistory
  | .acquire mode => h.arrive (h.lock.acquire mode h.arrived)
  | .release mode => h.passOn (h.lock.release mode)
  | .close =>
    { h with lock := h.lock.close, refused := h.refused ++ h.lock.queue.map (·.ticket) }
  | .notice ticket => { h with lock := (h.lock.notice ticket).2 }
  | .abandon ticket =>
    { h with
      lock := h.lock.abandon ticket
      dropped := h.dropped ++ (h.lock.queue.map (·.ticket)).filter (· = ticket) }

def run (events : List LockEvent) : LockHistory := events.foldl step {}

def served (h : LockHistory) : List Ticket := h.granted ++ h.lock.queue.map (·.ticket)

structure Fair (h : LockHistory) : Prop where
  unmixed : h.lock.Unmixed
  stalled : h.lock.Stalled
  closed : h.lock.closed = true → h.lock.queue = []
  ordered : h.served.Pairwise (· < ·)
  known : ∀ t ∈ h.served, t < h.arrived
  accounted : ∀ t < h.arrived, t ∈ h.served ∨ t ∈ h.dropped ∨ t ∈ h.refused
  abandoned : ∀ w ∈ h.lock.queue, w.abandoned = true → w.ticket ∈ h.dropped

theorem fair_start : ({} : LockHistory).Fair := by
  refine ⟨⟨Nat.zero_le 1, fun _ => rfl⟩, ?_, ?_, .nil, ?_, ?_, ?_⟩ <;> simp [Lock.Stalled, served]

namespace Fair

theorem pairwise_append_arrived (fair : h.Fair) :
    (h.served ++ [h.arrived]).Pairwise (· < ·) := by
  refine List.pairwise_append.mpr ⟨fair.ordered, List.pairwise_singleton .., ?_⟩
  intro t member u last
  rw [List.mem_singleton.mp last]
  exact fair.known t member

theorem known_append_arrived (fair : h.Fair) :
    ∀ t ∈ h.served ++ [h.arrived], t < h.arrived + 1 := by
  intro t member
  rcases List.mem_append.mp member with before | last
  · exact Nat.lt_succ_of_lt (fair.known t before)
  · rw [List.mem_singleton.mp last]
    exact Nat.lt_succ_self _

theorem accounted_append_arrived (fair : h.Fair) :
    ∀ t < h.arrived + 1, t ∈ h.served ++ [h.arrived] ∨ t ∈ h.dropped ∨ t ∈ h.refused := by
  intro t bound
  rcases Nat.lt_succ_iff_lt_or_eq.mp bound with earlier | rfl
  · exact (fair.accounted t earlier).imp_left (List.mem_append_left _)
  · exact .inl (List.mem_append_right _ List.mem_cons_self)

theorem acquire (fair : h.Fair) (mode : LockMode) : (h.step (.acquire mode)).Fair := by
  change (h.arrive (h.lock.acquire mode h.arrived)).Fair
  cases answer : h.lock.acquire mode h.arrived with
  | mk admission l =>
    cases admission with
    | granted =>
      obtain ⟨opened, room, empty, rfl⟩ := Lock.acquire_eq_granted fair.stalled answer
      have served : (h.arrive (.granted, h.lock.hold mode)).served = h.served ++ [h.arrived] := by
        simp [arrive, LockHistory.served, empty]
      exact ⟨Lock.unmixed_hold room, by simp [arrive, Lock.Stalled, empty], by simp [arrive, empty],
        served ▸ fair.pairwise_append_arrived, served ▸ fair.known_append_arrived,
        served ▸ fair.accounted_append_arrived, by simp [arrive, empty]⟩
    | waiting =>
      obtain ⟨opened, stalled, rfl⟩ := Lock.acquire_eq_waiting fair.stalled answer
      have served : (h.arrive (.waiting, { h.lock with
          queue := h.lock.queue ++ [{ ticket := h.arrived, mode }] })).served =
            h.served ++ [h.arrived] := by
        simp [arrive, LockHistory.served]
      refine ⟨⟨fair.unmixed.single, fair.unmixed.apart⟩, stalled, ?_,
        served ▸ fair.pairwise_append_arrived, served ▸ fair.known_append_arrived,
        served ▸ fair.accounted_append_arrived, ?_⟩
      · simp [arrive, opened]
      · intro w member gone
        rcases List.mem_append.mp member with before | last
        · exact fair.abandoned w before gone
        · simp [List.mem_singleton.mp last] at gone
    | refused =>
      obtain ⟨closed, rfl⟩ := Lock.acquire_eq_refused answer
      refine ⟨fair.unmixed, fair.stalled, fair.closed, fair.ordered,
        fun t member => Nat.lt_succ_of_lt (fair.known t member), ?_, fair.abandoned⟩
      intro t bound
      rcases Nat.lt_succ_iff_lt_or_eq.mp bound with earlier | rfl
      · exact (fair.accounted t earlier).imp_right (.imp_right (List.mem_append_left _))
      · exact .inr (.inr (List.mem_append_right _ List.mem_cons_self))

theorem release (fair : h.Fair) (mode : LockMode) : (h.step (.release mode)).Fair := by
  change (h.passOn (h.lock.release mode)).Fair
  cases answer : h.lock.release mode with
  | none => exact fair
  | some l =>
    obtain ⟨passed, line, granted, closed, stalled⟩ := Lock.release_serves answer
    have taken : l.granted.drop h.lock.granted.length =
        (passed.filter (!·.abandoned)).map (·.ticket) := by
      rw [granted, List.drop_left]
    rw [passOn, taken]
    -- Of those who have passed, the ones that went away are no longer served.
    have fewer : (h.granted ++ (passed.filter (!·.abandoned)).map (·.ticket) ++
        l.queue.map (·.ticket)).Sublist h.served := by
      rw [served, line, List.map_append, List.append_assoc]
      exact .append_left (.append_right (List.filter_sublist.map _) _) _
    refine ⟨fair.unmixed.release answer, stalled, ?_, fair.ordered.sublist fewer,
      fun t member => fair.known t (fewer.subset member), ?_, ?_⟩
    · intro shut
      have empty := fair.closed (closed ▸ shut)
      rw [line, List.append_eq_nil_iff] at empty
      exact empty.2
    · intro t bound
      rcases fair.accounted t bound with member | away
      · rw [served, line, List.map_append, List.mem_append, List.mem_append] at member
        rcases member with before | now | later
        · exact .inl (List.mem_append_left _ (List.mem_append_left _ before))
        · obtain ⟨w, listed, rfl⟩ := List.mem_map.mp now
          cases gone : w.abandoned with
          | true =>
            refine .inr (.inl (fair.abandoned w ?_ gone))
            rw [line]
            exact List.mem_append_left _ listed
          | false =>
            refine .inl (List.mem_append_left _ (List.mem_append_right _ ?_))
            exact List.mem_map_of_mem (List.mem_filter.mpr ⟨listed, by simp [gone]⟩)
        · exact .inl (List.mem_append_right _ later)
      · exact .inr away
    · intro w member
      refine fair.abandoned w ?_
      rw [line]
      exact List.mem_append_right _ member

theorem close (fair : h.Fair) : (h.step .close).Fair := by
  have fewer : h.granted.Sublist h.served := List.sublist_append_left ..
  have served : (h.step .close).served = h.granted := List.append_nil _
  refine ⟨⟨fair.unmixed.single, fair.unmixed.apart⟩, ?_, fun _ => rfl,
    served ▸ fair.ordered.sublist fewer,
    served ▸ fun t member => fair.known t (fewer.subset member), fun t bound => ?_, ?_⟩
  · simp [LockHistory.step, Lock.close, Lock.Stalled]
  · rw [served]
    rcases fair.accounted t bound with member | gone | away
    · rcases List.mem_append.mp member with before | waiting
      · exact .inl before
      · exact .inr (.inr (List.mem_append_right _ waiting))
    · exact .inr (.inl gone)
    · exact .inr (.inr (List.mem_append_left _ away))
  · simp [LockHistory.step, Lock.close]

theorem notice (fair : h.Fair) (ticket : Ticket) : (h.step (.notice ticket)).Fair := by
  simp only [LockHistory.step, Lock.notice]
  split
  · exact ⟨⟨fair.unmixed.single, fair.unmixed.apart⟩, fair.stalled, fair.closed, fair.ordered,
      fair.known, fair.accounted, fair.abandoned⟩
  · split <;> exact fair

theorem abandon (fair : h.Fair) (ticket : Ticket) : (h.step (.abandon ticket)).Fair := by
  have served : (h.step (.abandon ticket)).served = h.served :=
    congrArg (h.granted ++ ·) (Lock.tickets_abandon h.lock ticket)
  refine ⟨⟨fair.unmixed.single, fair.unmixed.apart⟩, fair.stalled.abandon ticket,
    fun shut => List.map_eq_nil_iff.mpr (fair.closed shut), served ▸ fair.ordered,
    served ▸ fair.known, fun t bound => ?_, fun w member gone => ?_⟩
  · rw [served]
    exact (fair.accounted t bound).imp_right (.imp_left (List.mem_append_left _))
  · obtain ⟨v, listed, rfl⟩ := Lock.mem_queue_abandon.mp member
    split at gone
    next same =>
      have standing : v.ticket ∈ h.lock.queue.map (·.ticket) := List.mem_map_of_mem listed
      rw [if_pos same]
      exact List.mem_append_right _ (List.mem_filter.mpr ⟨standing, decide_eq_true same⟩)
    next other =>
      rw [if_neg other]
      exact List.mem_append_left _ (fair.abandoned v listed gone)

theorem step (fair : h.Fair) (event : LockEvent) : (h.step event).Fair := by
  cases event with
  | acquire mode => exact fair.acquire mode
  | release mode => exact fair.release mode
  | close => exact fair.close
  | notice ticket => exact fair.notice ticket
  | abandon ticket => exact fair.abandon ticket

theorem foldl (fair : h.Fair) (events : List LockEvent) :
    (events.foldl LockHistory.step h).Fair := by
  induction events generalizing h with
  | nil => exact fair
  | cons event rest ih => exact ih (fair.step event)

theorem of_granted (fair : h.Fair) {t u : Ticket} (granted : t ∈ h.granted) (earlier : u < t) :
    u ∈ h.granted ∨ u ∈ h.dropped ∨ u ∈ h.refused := by
  have arrived := fair.known t (List.mem_append_left _ granted)
  rcases fair.accounted u (Nat.lt_trans earlier arrived) with served | away
  · rcases List.mem_append.mp served with before | waiting
    · exact .inl before
    · have later := (List.pairwise_append.mp fair.ordered).2.2 t granted u waiting
      exact absurd earlier (Nat.lt_asymm later)
  · exact .inr away

theorem empty_of_free (fair : h.Fair) (free : h.lock.status = .free) : h.lock.queue = [] := by
  cases line : h.lock.queue with
  | nil => rfl
  | cons w rest =>
    have full := fair.stalled w (by simp [line])
    unfold Lock.status at free
    split at free
    · cases free
    next unwritten =>
      split at free
      · cases free
      next unread =>
        have room : h.lock.admits w.mode = true := Lock.admits_iff.mpr ⟨by omega, by omega⟩
        rw [room] at full
        cases full

end Fair

theorem lock_arrive (h : LockHistory) (result : Admission × Lock) :
    (h.arrive result).lock = result.2 := by
  obtain ⟨admission, lock⟩ := result
  cases admission <;> rfl

theorem closed_step (h : LockHistory) (event : LockEvent) :
    (h.step event).lock.closed = true ↔ event = .close ∨ h.lock.closed = true := by
  cases event with
  | acquire mode => simp [step, lock_arrive]
  | release mode =>
    simp only [step, reduceCtorEq, false_or]
    cases answer : h.lock.release mode with
    | none => rfl
    | some l =>
      obtain ⟨passed, serves⟩ := Lock.release_serves answer
      rw [passOn, serves.closed]
  | close => simp [step, Lock.close]
  | notice ticket =>
    simp only [step, Lock.notice, reduceCtorEq, false_or]
    split
    · rfl
    · split <;> rfl
  | abandon ticket => simp [step, Lock.abandon]

theorem closed_foldl (h : LockHistory) (events : List LockEvent) :
    (events.foldl step h).lock.closed = true ↔ .close ∈ events ∨ h.lock.closed = true := by
  induction events generalizing h with
  | nil => simp
  | cons event rest ih =>
    rw [List.foldl_cons, ih, closed_step, List.mem_cons, eq_comm (a := LockEvent.close), or_assoc]
    exact or_left_comm

theorem fair_run (events : List LockEvent) : (run events).Fair := fair_start.foldl events

/-- After any events, readers and a writer do not hold the lock together, and the first in line has
no room, so that nobody waits for a free lock. A closed lock has nobody in line and refuses every
request, but its holds can still be released. The requests were granted in the order of their
arrival, and nobody was passed over but who had gone away or was turned away. -/
theorem served_in_order (events : List LockEvent) :
    ((run events).lock.exclusive ≤ 1 ∧
      (0 < (run events).lock.shared → (run events).lock.exclusive = 0)) ∧
    ((∀ w ∈ (run events).lock.queue.head?, (run events).lock.admits w.mode = false) ∧
      ((run events).lock.status = .free → (run events).lock.queue = [])) ∧
    (.close ∈ events → (run events).lock.queue = [] ∧
      ∀ mode ticket, (run events).lock.acquire mode ticket = (.refused, (run events).lock)) ∧
    (∀ mode, ((run events).lock.release mode).isSome = true ↔ 0 < (run events).lock.count mode) ∧
    (run events).granted.Pairwise (· < ·) ∧
    ∀ t ∈ (run events).granted, ∀ u < t,
      u ∈ (run events).granted ∨ u ∈ (run events).dropped ∨ u ∈ (run events).refused := by
  have fair := fair_run events
  refine ⟨⟨fair.unmixed.single, fair.unmixed.apart⟩, ⟨fair.stalled, fair.empty_of_free⟩,
    fun closed => ?_, fun mode => Lock.release_isSome fair.unmixed.single,
    (List.pairwise_append.mp fair.ordered).1,
    fun t granted u earlier => fair.of_granted granted earlier⟩
  have shut : (run events).lock.closed = true := (closed_foldl {} events).mpr (.inl closed)
  have empty := fair.closed shut
  exact ⟨empty, (⟨shut, empty⟩ : (run events).lock.Shut).acquire⟩

def contended : List LockEvent :=
  [.acquire .exclusive, .acquire .exclusive, .acquire .shared, .abandon 1, .release .exclusive,
    .acquire .exclusive, .close]

theorem contended_in_order :
    (run contended).granted = [0, 2] ∧ (run contended).refused = [3] ∧
      (1 ∈ (run contended).granted ∨ 1 ∈ (run contended).dropped ∨ 1 ∈ (run contended).refused) ∧
      (run contended).lock.acquire .shared 4 = (.refused, (run contended).lock) ∧
      ((run contended).lock.release .shared).isSome = true := by
  obtain ⟨-, -, closed, holds, -, earlier⟩ := served_in_order contended
  exact ⟨by decide, by decide, earlier 2 (by decide) 1 (by decide),
    (closed (by decide)).2 .shared 4, (holds .shared).mpr (by decide)⟩

end LockHistory

end DistFs
