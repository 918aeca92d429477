import DistFs.Proofs.Locking.Course
/-!
# The requests of all clients

The requests for locks that are under way, and those that were granted. They are sound if the locks
are balanced by what they have taken and wait for, if each is on its course, and if the catalog has
kept the locks of the writers (`Sound`).
-/

namespace DistFs

/-- A request for a lock that waits, or that was granted and not unlocked since. -/
structure Call where
  ticket : Ticket
  acquisition : Acquisition
deriving DecidableEq

def Call.hold (call : Call) : Hold :=
  ⟨call.acquisition.path, call.acquisition.target, call.acquisition.taken⟩

structure Calls where
  waiting : List Call := []
  granted : List Call := []
  failed : List Ticket := []

def Catalog.grantOf (c : Catalog) (p : Path) (mode : LockMode) (target : NodeId) : Acquisition :=
  { path := p, mode, target
    taken := match mode with
      | .shared => [(target, .shared)]
      | .exclusive => (c.holds.getLast?.map Hold.taken).getD []
    pending := [] }

namespace Calls

def current (calls : Calls) : List Call := calls.waiting ++ calls.granted

def tickets (calls : Calls) : List Ticket := calls.current.map (·.ticket) ++ calls.failed

def waits (calls : Calls) : Waits := fun ticket =>
  (calls.waiting.find? (·.ticket = ticket)).bind (·.acquisition.pending.head?)

def held (calls : Calls) : List (NodeId × LockMode) := calls.current.flatMap (·.acquisition.taken)

def note (calls : Calls) (ticket : Ticket) (p : Path) (mode : LockMode) (c : Catalog) :
    LockAnswer → Calls
  | .granted target =>
    { calls with granted := calls.granted ++ [⟨ticket, c.grantOf p mode target⟩] }
  | .waiting a => { calls with waiting := calls.waiting ++ [⟨ticket, a⟩] }
  | .failed _ => { calls with failed := calls.failed ++ [ticket] }

def leave (calls : Calls) (ticket : Ticket) : Calls :=
  { calls with waiting := calls.waiting.filter (·.ticket ≠ ticket) }

def close (calls : Calls) (ticket : Ticket) : Calls :=
  { calls with granted := calls.granted.filter (·.ticket ≠ ticket) }

def holds (calls : Calls) : List Hold :=
  (calls.granted.filter (·.acquisition.mode = .exclusive)).map Call.hold

variable {calls : Calls} {call : Call} {ticket : Ticket}

/-! ## The requests of a list -/

theorem perm_cons_filter {list : List Call} (nodup : (list.map (·.ticket)).Nodup)
    (member : call ∈ list) :
    list.Perm (call :: list.filter (·.ticket ≠ call.ticket)) := by
  induction list with
  | nil => cases member
  | cons x rest ih =>
    rw [List.map_cons, List.nodup_cons] at nodup
    rcases List.mem_cons.mp member with rfl | later
    · have others : rest.filter (·.ticket ≠ call.ticket) = rest := by
        apply List.filter_eq_self.mpr
        intro y listed
        rw [decide_eq_true_eq]
        intro same
        exact nodup.1 (same ▸ List.mem_map_of_mem listed)
      rw [List.filter_cons_of_neg (by simp), others]
    · have other : x.ticket ≠ call.ticket := by
        intro same
        exact nodup.1 (same ▸ List.mem_map_of_mem later)
      rw [List.filter_cons_of_pos (by simpa using other)]
      exact ((ih nodup.2 later).cons x).trans (.swap ..)

theorem not_mem_waiting (fresh : ticket ∉ calls.tickets) :
    ticket ∉ calls.waiting.map (·.ticket) := fun member => fresh (by
  simp only [tickets, current, List.map_append, List.mem_append, member, true_or])

theorem ticket_ne_of_fresh (fresh : ticket ∉ calls.tickets) (member : call ∈ calls.granted) :
    call.ticket ≠ ticket := fun same =>
  fresh (same ▸ List.mem_append_left _ (List.mem_map_of_mem (List.mem_append_right _ member)))

theorem close_granted (fresh : call.ticket ∉ calls.tickets) :
    ({ calls with granted := calls.granted ++ [call] } : Calls).close call.ticket = calls := by
  have others : ∀ other ∈ calls.granted, decide (other.ticket ≠ call.ticket) = true :=
    fun other member => decide_eq_true (ticket_ne_of_fresh fresh member)
  unfold close
  simp only [List.filter_append, List.filter_eq_self.mpr others]
  simp

theorem granted_close_other (apart : call.ticket ≠ ticket) :
    (({ calls with granted := calls.granted ++ [call] } : Calls).close ticket).granted =
      (calls.close ticket).granted ++ [call] := by
  simp [close, apart]

theorem waits_eq_none (absent : ticket ∉ calls.waiting.map (·.ticket)) :
    calls.waits ticket = none := by
  have none : calls.waiting.find? (·.ticket = ticket) = none := by
    refine List.find?_eq_none.mpr fun call listed same => absent ?_
    exact of_decide_eq_true same ▸ List.mem_map_of_mem listed
  rw [waits, none, Option.bind_none]

theorem waits_of_mem (nodup : (calls.waiting.map (·.ticket)).Nodup)
    (member : call ∈ calls.waiting) :
    calls.waits call.ticket = call.acquisition.pending.head? := by
  have found : calls.waiting.find? (·.ticket = call.ticket) = some call := by
    cases first : calls.waiting.find? (·.ticket = call.ticket) with
    | none => exact absurd (List.find?_eq_none.mp first call member) (by simp)
    | some other =>
      have same : other.ticket = call.ticket := by simpa using List.find?_some first
      have listed := List.mem_of_find?_eq_some first
      rw [List.inj_on_of_nodup_map nodup listed member same]
  rw [waits, found, Option.bind_some]

theorem waits_leave (calls : Calls) (ticket : Ticket) :
    (calls.leave ticket).waits = calls.waits.set ticket none := by
  funext t
  by_cases same : t = ticket
  · subst same
    rw [Waits.set_self]
    exact waits_eq_none (by simp [leave])
  · rw [Waits.set_other same]
    simp only [waits, leave, List.find?_filter]
    congr 1
    refine congrArg (List.find? · calls.waiting) (funext fun call => ?_)
    by_cases here : call.ticket = t <;> simp [here, same]

theorem waits_append (calls : Calls) (a : Acquisition)
    (absent : ticket ∉ calls.waiting.map (·.ticket)) :
    ({ calls with waiting := calls.waiting ++ [⟨ticket, a⟩] } : Calls).waits =
      calls.waits.set ticket a.pending.head? := by
  funext t
  simp only [waits, List.find?_append, List.find?_singleton]
  by_cases same : t = ticket
  · subst same
    have none : calls.waiting.find? (·.ticket = t) = none := by
      refine List.find?_eq_none.mpr fun call listed same => absent ?_
      exact of_decide_eq_true same ▸ List.mem_map_of_mem listed
    simp [none, Waits.set_self]
  · rw [Waits.set_other same]
    simp [Ne.symm same, waits]

theorem held_append_granted (calls : Calls) (call : Call) :
    ({ calls with granted := calls.granted ++ [call] } : Calls).held.Perm
      (call.acquisition.taken ++ calls.held) := by
  simp only [held, current, List.flatMap_append, List.flatMap_singleton]
  rw [← List.append_assoc]
  exact List.perm_append_comm

theorem held_append_waiting (calls : Calls) (call : Call) :
    ({ calls with waiting := calls.waiting ++ [call] } : Calls).held.Perm
      (call.acquisition.taken ++ calls.held) := by
  simp only [held, current, List.flatMap_append, List.flatMap_singleton, List.append_assoc]
  exact (List.perm_append_comm_assoc ..)

theorem held_leave (nodup : (calls.waiting.map (·.ticket)).Nodup) (member : call ∈ calls.waiting) :
    calls.held.Perm (call.acquisition.taken ++ (calls.leave call.ticket).held) := by
  have perm := (perm_cons_filter nodup member).append_right calls.granted
  exact perm.flatMap_right _

theorem held_close (nodup : (calls.granted.map (·.ticket)).Nodup) (member : call ∈ calls.granted) :
    calls.held.Perm (call.acquisition.taken ++ (calls.close call.ticket).held) := by
  have perm := (perm_cons_filter nodup member).append_left calls.waiting
  exact (perm.trans List.perm_middle).flatMap_right _

/-! ## Regular requests -/

structure Regular (calls : Calls) (t : Tree) (holds : List Hold) : Prop where
  course : ∀ call ∈ calls.current, call.acquisition.OnCourse t
  waiting : ∀ call ∈ calls.waiting, call.acquisition.pending ≠ []
  granted : ∀ call ∈ calls.granted, call.acquisition.pending = []
  holds : holds.Perm calls.holds
  tickets : calls.tickets.Nodup

namespace Regular

variable {t u : Tree} {holds : List Hold}

theorem extend (h : calls.Regular t holds) (wf : t.WellFormed) (ext : t.Extends u) :
    calls.Regular u holds :=
  ⟨fun call member => (h.course call member).extend wf ext, h.waiting, h.granted, h.holds,
    h.tickets⟩

theorem nodup_waiting (h : calls.Regular t holds) : (calls.waiting.map (·.ticket)).Nodup := by
  apply List.Nodup.sublist _ h.tickets
  rw [Calls.tickets, current, List.map_append, List.append_assoc]
  exact List.sublist_append_left ..

theorem nodup_granted (h : calls.Regular t holds) : (calls.granted.map (·.ticket)).Nodup := by
  apply List.Nodup.sublist _ h.tickets
  rw [Calls.tickets, current, List.map_append]
  exact (List.sublist_append_right ..).trans (List.sublist_append_left ..)

theorem nodup_current (h : calls.Regular t holds) : (calls.current.map (·.ticket)).Nodup :=
  h.tickets.sublist (List.sublist_append_left ..)

theorem recorded (h : calls.Regular t holds) (member : call ∈ calls.granted)
    (writer : call.acquisition.mode = .exclusive) : call.hold ∈ holds :=
  h.holds.symm.subset
    (List.mem_map_of_mem (List.mem_filter.mpr ⟨member, decide_eq_true writer⟩))

theorem holder {hold : Hold} (h : calls.Regular t holds) (kept : hold ∈ holds) :
    ∃ call ∈ calls.granted, call.acquisition.mode = .exclusive ∧ call.hold = hold := by
  obtain ⟨call, listed, same⟩ := List.mem_map.mp (h.holds.subset kept)
  rw [List.mem_filter, decide_eq_true_eq] at listed
  exact ⟨call, listed.1, listed.2, same⟩

theorem leave (h : calls.Regular t holds) (ticket : Ticket) :
    (calls.leave ticket).Regular t holds := by
  have fewer : (calls.leave ticket).waiting.Sublist calls.waiting := List.filter_sublist
  have all : (calls.leave ticket).current.Sublist calls.current := fewer.append_right _
  exact ⟨fun call member => h.course call (all.subset member),
    fun call member => h.waiting call (fewer.subset member), h.granted, h.holds,
    h.tickets.sublist ((all.map _).append_right _)⟩

theorem not_mem_leave (h : calls.Regular t holds) (member : call ∈ calls.waiting) :
    call.ticket ∉ (calls.leave call.ticket).tickets := by
  have nodup := h.tickets
  rw [Calls.tickets, current, List.map_append, List.append_assoc] at nodup
  have others := (List.nodup_append'.mp nodup).2.2 (List.mem_map_of_mem member)
  rw [Calls.tickets, current, List.map_append, List.append_assoc, List.mem_append, not_or]
  exact ⟨by simp [Calls.leave], others⟩

theorem wait {a : Acquisition} (h : calls.Regular t holds) (course : a.OnCourse t)
    (pending : a.pending ≠ []) (fresh : ticket ∉ calls.tickets) :
    ({ calls with waiting := calls.waiting ++ [⟨ticket, a⟩] } : Calls).Regular t holds := by
  refine ⟨fun call member => ?_, fun call member => ?_, h.granted, h.holds, ?_⟩
  · simp only [current, List.mem_append, List.mem_singleton] at member
    rcases member with (old | rfl) | old
    · exact h.course call (List.mem_append_left _ old)
    · exact course
    · exact h.course call (List.mem_append_right _ old)
  · rcases List.mem_append.mp member with old | new
    · exact h.waiting call old
    · exact List.mem_singleton.mp new ▸ pending
  · have nodup := List.nodup_cons.mpr ⟨fresh, h.tickets⟩
    refine (List.Perm.nodup_iff ?_).mp nodup
    simp only [Calls.tickets, current, List.map_append, List.map_cons, List.map_nil,
      List.append_assoc]
    exact List.perm_middle.symm

theorem grant {a : Acquisition} {holds' : List Hold} (h : calls.Regular t holds)
    (course : a.OnCourse t) (pending : a.pending = []) (fresh : ticket ∉ calls.tickets)
    (kept : holds' = match a.mode with
      | .shared => holds
      | .exclusive => holds ++ [⟨a.path, a.target, a.taken⟩]) :
    ({ calls with granted := calls.granted ++ [⟨ticket, a⟩] } : Calls).Regular t holds' := by
  refine ⟨fun call member => ?_, h.waiting, fun call member => ?_, ?_, ?_⟩
  · simp only [current, List.mem_append, List.mem_singleton] at member
    rcases member with old | old | rfl
    · exact h.course call (List.mem_append_left _ old)
    · exact h.course call (List.mem_append_right _ old)
    · exact course
  · rcases List.mem_append.mp member with old | new
    · exact h.granted call old
    · exact List.mem_singleton.mp new ▸ pending
  · rw [kept]
    cases mode : a.mode with
    | shared => simpa [Calls.holds, mode] using h.holds
    | exclusive => simpa [Calls.holds, mode, Call.hold] using h.holds.append_right _
  · have nodup := List.nodup_cons.mpr ⟨fresh, h.tickets⟩
    refine (List.Perm.nodup_iff ?_).mp nodup
    simp only [Calls.tickets, current, List.map_append, List.map_cons, List.map_nil,
      List.append_assoc]
    exact List.perm_middle.symm.trans (List.perm_middle.symm.append_left _)

theorem fail (h : calls.Regular t holds) (fresh : ticket ∉ calls.tickets) :
    ({ calls with failed := calls.failed ++ [ticket] } : Calls).Regular t holds := by
  refine ⟨h.course, h.waiting, h.granted, h.holds, ?_⟩
  have nodup := List.nodup_cons.mpr ⟨fresh, h.tickets⟩
  refine (List.Perm.nodup_iff ?_).mp nodup
  simp only [Calls.tickets, current, ← List.append_assoc]
  exact (List.perm_append_singleton ..).symm

theorem close (h : calls.Regular t holds) (member : call ∈ calls.granted) {holds' : List Hold}
    (kept : holds.Perm
      (if call.acquisition.mode = .exclusive then call.hold :: holds' else holds')) :
    (calls.close call.ticket).Regular t holds' := by
  have fewer : (calls.close call.ticket).granted.Sublist calls.granted := List.filter_sublist
  have all : (calls.close call.ticket).current.Sublist calls.current := fewer.append_left _
  refine ⟨fun other listed => h.course other (all.subset listed), h.waiting,
    fun other listed => h.granted other (fewer.subset listed), ?_,
    h.tickets.sublist ((all.map _).append_right _)⟩
  have perm := (perm_cons_filter h.nodup_granted member).filter (·.acquisition.mode = .exclusive)
  have total := (kept.symm.trans h.holds).trans (perm.map Call.hold)
  by_cases writer : call.acquisition.mode = .exclusive
  · rw [if_pos writer, List.filter_cons_of_pos (by simpa using writer)] at total
    exact total.cons_inv
  · rw [if_neg writer, List.filter_cons_of_neg (by simpa using writer)] at total
    exact total

end Regular

end Calls

end DistFs
