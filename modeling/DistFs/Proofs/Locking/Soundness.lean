import DistFs.Proofs.Locking.Calls
import Mathlib.Data.List.Perm.Basic
/-!
# The catalog and its requests

A catalog is sound if its locks are balanced by the requests of all clients, and it stays so when a
request is made, goes on or unlocks, when locks are closed, and when the tree changes. As long as
the path of every request leads to the node that it locks (`Located`), a lock that was granted can
be given up.
-/

namespace DistFs

namespace Catalog

variable {c : Catalog} {calls : Calls} {call : Call} {ticket : Ticket} {a : Acquisition}
  {waits : Waits} {held : List (NodeId × LockMode)} {result : LockProgress × LockTable} {n : Nat}
  {strict : Prop} {p : Path} {i : Nat}

structure Sound (c : Catalog) (calls : Calls) (strict : Prop) : Prop where
  tree : c.tree.WellFormed
  regular : calls.Regular c.tree c.holds
  balanced : c.locks.Balanced calls.waits calls.held strict

theorem Sound.loosen (h : c.Sound calls True) : c.Sound calls strict :=
  ⟨h.tree, h.regular, fun n => (h.balanced n).loosen⟩

def Located (c : Catalog) (calls : Calls) : Prop :=
  ∀ call ∈ calls.current, c.tree.find? call.acquisition.path = some call.acquisition.target

def Answers (a : Acquisition) : LockAnswer → Prop
  | .granted target => target = a.target
  | .waiting b => b.path = a.path ∧ b.mode = a.mode ∧ b.target = a.target
  | .failed _ => True

/-! ## Requests -/

theorem tree_conclude (c : Catalog) (result : LockProgress × LockTable) :
    (c.conclude result).2.tree = c.tree := by
  obtain ⟨progress, locks⟩ := result
  cases progress <;> rfl

theorem conclude_answers (goes : LockTable.Goes c.tree ticket waits held strict a result) :
    Answers a (c.conclude result).1 := by
  cases goes with
  | granted reached _ _ => exact reached.same.2.2
  | waiting reached _ _ => exact reached.same
  | interrupted => trivial

theorem grantOf_eq {c' : Catalog} (course : a.OnCourse c.tree) (done : a.pending = [])
    (kept : c'.holds = match a.mode with
      | .shared => c.holds
      | .exclusive => c.holds ++ [⟨a.path, a.target, a.taken⟩]) :
    c'.grantOf a.path a.mode a.target = a := by
  obtain ⟨path, mode, target, taken, pending⟩ := a
  cases done
  cases mode with
  | shared =>
    have all := course.reader rfl
    simp only [Acquisition.nodes, List.append_nil] at all
    simp [grantOf, all]
  | exclusive =>
    simp only at kept
    simp [grantOf, kept]

theorem Sound.conclude (wf : c.tree.WellFormed) (regular : calls.Regular c.tree c.holds)
    (fresh : ticket ∉ calls.tickets) (course : a.OnCourse c.tree)
    (goes : LockTable.Goes c.tree ticket waits calls.held strict a result)
    (others : waits.set ticket none = calls.waits) :
    (c.conclude result).2.Sound
      (calls.note ticket a.path a.mode (c.conclude result).2 (c.conclude result).1) strict := by
  cases goes with
  | @granted b table reached done balanced =>
    obtain ⟨path, mode, target⟩ := reached.same
    have course' := course.reaches wf reached
    have record : (c.conclude (.granted b, table)).2.grantOf b.path b.mode b.target = b :=
      grantOf_eq course' done rfl
    rw [others] at balanced
    rw [← path, ← mode]
    simp only [Catalog.conclude] at record ⊢
    rw [Calls.note, record]
    exact ⟨wf, regular.grant course' done fresh rfl,
      balanced.of_perm (Calls.held_append_granted calls ⟨ticket, b⟩)⟩
  | @waiting b table n mode rest reached pending balanced =>
    have course' := course.reaches wf reached
    refine ⟨wf, regular.wait course' (by simp [pending]) fresh, ?_⟩
    simp only [Catalog.conclude, Calls.note]
    rw [Calls.waits_append calls b (Calls.not_mem_waiting fresh), ← others, Waits.set_set, pending]
    exact balanced.of_perm (Calls.held_append_waiting calls ⟨ticket, b⟩)
  | @interrupted b table n balanced =>
    refine ⟨wf, regular.fail fresh, ?_⟩
    rw [others] at balanced
    exact (balanced.of_perm ((List.reverse_perm b.taken).append_right _)).releaseAll.2

theorem Sound.fail (h : c.Sound calls strict) (fresh : ticket ∉ calls.tickets) :
    c.Sound { calls with failed := calls.failed ++ [ticket] } strict :=
  ⟨h.tree, h.regular.fail fresh, h.balanced⟩

theorem waits_of_fresh (fresh : ticket ∉ calls.tickets) : calls.waits ticket = none :=
  Calls.waits_eq_none (Calls.not_mem_waiting fresh)

theorem lock_of_found {p : Path} {mode : LockMode} (found : c.tree.find? p = some n) :
    c.lock p mode ticket =
      c.conclude (c.locks.advance c.tree ticket (.start c.tree p mode n)) := by
  rw [lock, Tree.get_eq_ok_iff.mpr found]

theorem Sound.start_goes (h : c.Sound calls strict) (p : Path) (mode : LockMode)
    (fresh : ticket ∉ calls.tickets) :
    LockTable.Goes c.tree ticket calls.waits calls.held strict (.start c.tree p mode n)
      (c.locks.advance c.tree ticket (.start c.tree p mode n)) :=
  LockTable.Balanced.advance h.balanced (waits_of_fresh fresh)

theorem Sound.lock (h : c.Sound calls strict) (p : Path) (mode : LockMode)
    (fresh : ticket ∉ calls.tickets) :
    (c.lock p mode ticket).2.Sound
      (calls.note ticket p mode (c.lock p mode ticket).2 (c.lock p mode ticket).1) strict := by
  cases found : c.tree.find? p with
  | none =>
    rw [Catalog.lock, Tree.get, found]
    exact h.fail fresh
  | some n =>
    rw [lock_of_found found]
    exact Sound.conclude h.tree h.regular fresh (Acquisition.onCourse_start h.tree found mode)
      (h.start_goes p mode fresh)
      (Waits.set_eq_self (waits_of_fresh fresh))

theorem Sound.resume_goes (h : c.Sound calls strict) (member : call ∈ calls.waiting) :
    LockTable.Goes c.tree call.ticket calls.waits (calls.leave call.ticket).held strict
      call.acquisition (c.locks.resume c.tree call.ticket call.acquisition) := by
  have nodup := h.regular.nodup_waiting
  refine LockTable.Balanced.resume ?_ (Calls.waits_of_mem nodup member)
  exact h.balanced.of_perm (Calls.held_leave nodup member).symm

theorem Sound.resume (h : c.Sound calls strict) (member : call ∈ calls.waiting) :
    (c.resume call.acquisition call.ticket).2.Sound
      ((calls.leave call.ticket).note call.ticket call.acquisition.path call.acquisition.mode
        (c.resume call.acquisition call.ticket).2 (c.resume call.acquisition call.ticket).1)
      strict :=
  Sound.conclude h.tree (h.regular.leave _) (h.regular.not_mem_leave member)
    (h.regular.course call (List.mem_append_left _ member)) (h.resume_goes member)
    (Calls.waits_leave calls call.ticket).symm

theorem resume_of_woken {mode : LockMode} {rest : List (NodeId × LockMode)}
    (woken : c.isWoken a ticket = true) (pending : a.pending = (n, mode) :: rest) :
    (c.locks.resume c.tree ticket a).1 = .interrupted a n ∨
      (c.locks.resume c.tree ticket a).1.ComesFrom c.tree (a.take c.tree n mode rest) := by
  simp only [isWoken, pending, ne_eq, decide_eq_true_eq] at woken
  rw [LockTable.resume_of_cons pending]
  cases answer : (c.locks.get n).notice ticket with
  | mk notice l =>
    rw [answer] at woken
    cases notice with
    | granted => exact .inr (LockTable.advance_comes ..)
    | waiting => exact absurd rfl woken
    | interrupted => exact .inl rfl

theorem resume_of_asleep (asleep : ¬ c.isWoken a ticket = true) :
    c.locks.resume c.tree ticket a = (.waiting a, c.locks) := by
  cases pending : a.pending with
  | nil => simp [isWoken, pending] at asleep
  | cons x rest =>
    obtain ⟨n, mode⟩ := x
    simp only [isWoken, pending, ne_eq, decide_eq_true_eq, not_not] at asleep
    rw [LockTable.resume_of_cons pending]
    cases answer : (c.locks.get n).notice ticket with
    | mk notice l =>
      obtain rfl : notice = .waiting := by rw [← asleep, answer]
      rfl

/-! ## Changes of the tree and of all locks -/

theorem Sound.of_tree {u : Tree} (h : c.Sound calls strict) (wf : u.WellFormed)
    (ext : c.tree.Extends u) : ({ c with tree := u } : Catalog).Sound calls strict :=
  ⟨wf, h.regular.extend h.tree ext, h.balanced⟩

theorem Sound.interrupt (h : c.Sound calls strict) : c.interrupt.2.Sound calls strict :=
  ⟨h.tree, h.regular, h.balanced.close_all _⟩

/-! ## Unlocking -/

theorem Sound.eq_of_exclusive {call' : Call} (h : c.Sound calls strict)
    (member : call ∈ calls.current)
    (member' : call' ∈ calls.current) (taken : (n, .exclusive) ∈ call.acquisition.taken)
    (taken' : (n, .exclusive) ∈ call'.acquisition.taken) : call = call' := by
  by_contra other
  have nodup := h.regular.nodup_current
  have different : call'.ticket ≠ call.ticket := fun same =>
    other (List.inj_on_of_nodup_map nodup member member' same.symm)
  have perm := (Calls.perm_cons_filter nodup member).flatMap_right (·.acquisition.taken)
  have twice := (perm.count_eq (n, .exclusive)).symm
  rw [List.flatMap_cons, List.count_append] at twice
  have first : 0 < call.acquisition.taken.count (n, .exclusive) := List.count_pos_iff.mpr taken
  have second : 0 < ((calls.current.filter (·.ticket ≠ call.ticket)).flatMap
      (·.acquisition.taken)).count (n, .exclusive) :=
    List.count_pos_iff.mpr (List.mem_flatMap.mpr
      ⟨call', List.mem_filter.mpr ⟨member', by simpa using different⟩, taken'⟩)
  have settled := h.balanced n
  have count : (c.locks.get n).exclusive = calls.held.count (n, .exclusive) + _ :=
    (settled.count .exclusive).eq (.inr rfl)
  have single := settled.single
  rw [Calls.held] at count
  omega

theorem count_pos {mode : LockMode} (h : c.Sound calls strict) (exactly : Exact strict mode)
    (member : call ∈ calls.current) (taken : (n, mode) ∈ call.acquisition.taken) :
    0 < (c.locks.get n).count mode := by
  have count := ((h.balanced n).count mode).eq exactly
  have held : 0 < calls.held.count (n, mode) :=
    List.count_pos_iff.mpr (List.mem_flatMap.mpr ⟨call, member, taken⟩)
  omega

theorem Sound.not_exclusive {call' : Call} (h : c.Sound calls True) (member : call ∈ calls.current)
    (member' : call' ∈ calls.current) (taken : (n, .shared) ∈ call.acquisition.taken) :
    (n, .exclusive) ∉ call'.acquisition.taken := by
  intro taken'
  have read : 0 < (c.locks.get n).shared := count_pos h (.inl trivial) member taken
  have written : 0 < (c.locks.get n).exclusive := count_pos h (.inr rfl) member' taken'
  exact absurd ((h.balanced n).apart read) (Nat.ne_of_gt written)

theorem Sound.nodup_taken (h : c.Sound calls strict) (member : call ∈ calls.current) :
    (call.acquisition.taken.map Prod.fst).Nodup := by
  have nodup := (h.regular.course call member).nodup_nodes
  rw [Acquisition.nodes, List.map_append] at nodup
  exact nodup.of_append_left

theorem Sound.taken_target (h : c.Sound calls strict) (member : call ∈ calls.granted)
    (writer : call.acquisition.mode = .exclusive) :
    (call.acquisition.target, .exclusive) ∈ call.acquisition.taken := by
  have target := (h.regular.course call (List.mem_append_right _ member)).target writer
  rwa [Acquisition.nodes, h.regular.granted call member, List.append_nil] at target

theorem Sound.eq_of_path {call' : Call} (h : c.Sound calls True) (located : c.Located calls)
    (member : call ∈ calls.granted) (member' : call' ∈ calls.granted)
    (writer : call.acquisition.mode = .exclusive) (writer' : call'.acquisition.mode = .exclusive)
    (same : call.acquisition.path = call'.acquisition.path) : call = call' := by
  have found := located call (List.mem_append_right _ member)
  rw [same, located call' (List.mem_append_right _ member'), Option.some.injEq] at found
  refine h.eq_of_exclusive (List.mem_append_right _ member) (List.mem_append_right _ member')
    (h.taken_target member writer) ?_
  rw [← found]
  exact h.taken_target member' writer'

@[simp] theorem tree_giveUp (c : Catalog) (taken : List (NodeId × LockMode)) :
    (c.giveUp taken).2.tree = c.tree := by
  unfold giveUp
  split <;> rfl

@[simp] theorem holds_giveUp (c : Catalog) (taken : List (NodeId × LockMode)) :
    (c.giveUp taken).2.holds = c.holds := by
  unfold giveUp
  split <;> rfl

@[simp] theorem locks_giveUp (c : Catalog) (taken : List (NodeId × LockMode)) :
    (c.giveUp taken).2.locks = (c.locks.releaseAll taken.reverse).2 := by
  unfold giveUp
  split <;> simp [*]

theorem giveUp_eq_ok {taken : List (NodeId × LockMode)}
    (all : (c.locks.releaseAll taken.reverse).1 = none) : (c.giveUp taken).1 = .ok () := by
  unfold giveUp
  split
  next => rfl
  next missing => simp [missing] at all

theorem tree_unlock (c : Catalog) (p : Path) (mode : LockMode) :
    (c.unlock p mode).2.tree = c.tree := by
  unfold unlock
  cases mode with
  | shared =>
    simp only
    split
    · rfl
    · exact tree_giveUp _ _
  | exclusive =>
    simp only
    split
    · exact tree_giveUp _ _
    · split <;> rfl

theorem Sound.close (h : c.Sound calls strict) (member : call ∈ calls.granted) {holds : List Hold}
    (kept : c.holds.Perm
      (if call.acquisition.mode = .exclusive then call.hold :: holds else holds)) :
    (({ c with holds } : Catalog).giveUp call.acquisition.taken).2.Sound (calls.close call.ticket)
        strict ∧
      (strict → (({ c with holds } : Catalog).giveUp call.acquisition.taken).1 = .ok ()) := by
  have perm := Calls.held_close h.regular.nodup_granted member
  have owned := (List.reverse_perm call.acquisition.taken).append_right
    (calls.close call.ticket).held
  obtain ⟨done, balanced⟩ := ((h.balanced.of_perm perm.symm).of_perm owned).releaseAll
  refine ⟨⟨?_, ?_, ?_⟩, fun exactly => giveUp_eq_ok (done exactly)⟩
  · rw [tree_giveUp]
    exact h.tree
  · rw [tree_giveUp, holds_giveUp]
    exact h.regular.close member kept
  · rw [locks_giveUp]
    exact balanced

theorem unlock_shared_of_found (found : c.tree.find? p = some n) :
    c.unlock p .shared = c.giveUp [(n, .shared)] := by
  rw [Catalog.unlock, Tree.get_eq_ok_iff.mpr found]

theorem Sound.taken_reader (h : c.Sound calls strict) (member : call ∈ calls.granted)
    (reader : call.acquisition.mode = .shared) :
    call.acquisition.taken = [(call.acquisition.target, .shared)] := by
  have all := (h.regular.course call (List.mem_append_right _ member)).reader reader
  rwa [Acquisition.nodes, h.regular.granted call member, List.append_nil] at all

theorem Sound.unlock_shared (h : c.Sound calls strict) (member : call ∈ calls.granted)
    (reader : call.acquisition.mode = .shared)
    (found : c.tree.find? p = some call.acquisition.target) :
    (c.unlock p .shared).2.Sound (calls.close call.ticket) strict ∧
      (strict → (c.unlock p .shared).1 = .ok ()) := by
  rw [unlock_shared_of_found found, ← h.taken_reader member reader]
  exact h.close member (by simp [reader])

theorem holdToRelease?_isSome :
    (c.holdToRelease? p).isSome = true ↔ ∃ hold ∈ c.holds, hold.path = p := by
  unfold holdToRelease?
  constructor
  · intro there
    by_contra none
    push Not at none
    have neither : ∀ hold ∈ c.holds, ¬ hold.path = p := none
    rw [List.findIdx?_eq_none_iff.mpr (by simp +contextual [neither]),
      List.findIdx?_eq_none_iff.mpr (by simpa using neither)] at there
    exact Bool.false_ne_true there
  · rintro ⟨hold, listed, path⟩
    have there : (c.holds.findIdx? fun hold => hold.path = p).isSome = true :=
      List.findIdx?_isSome.trans (List.any_eq_true.mpr ⟨hold, listed, by simpa using path⟩)
    cases c.holds.findIdx? fun hold => hold.path = p ∧ c.tree.find? p ≠ some hold.target with
    | some => rfl
    | none => exact there

/-- The lock on the node that now stands at the path is only given up when no other lock of the
path is left. -/
theorem holdToRelease?_eq_some (first : c.holdToRelease? p = some i) :
    ∃ hold, c.holds[i]? = some hold ∧ hold.path = p ∧
      (c.tree.find? p = some hold.target →
        ∀ other ∈ c.holds, other.path = p → other.target = hold.target) := by
  unfold holdToRelease? at first
  cases moved : c.holds.findIdx? fun hold => hold.path = p ∧ c.tree.find? p ≠ some hold.target with
  | some k =>
    rw [moved] at first
    obtain rfl : k = i := Option.some.inj first
    obtain ⟨bound, holds, -⟩ := List.findIdx?_eq_some_iff_getElem.mp moved
    rw [decide_eq_true_eq] at holds
    exact ⟨_, List.getElem?_eq_getElem bound, holds.1, fun here => absurd here holds.2⟩
  | none =>
    rw [moved] at first
    have first : c.holds.findIdx? (fun hold => hold.path = p) = some i := first
    obtain ⟨bound, path, -⟩ := List.findIdx?_eq_some_iff_getElem.mp first
    rw [decide_eq_true_eq] at path
    refine ⟨_, List.getElem?_eq_getElem bound, path, fun here other listed same => ?_⟩
    have stays := List.findIdx?_eq_none_iff.mp moved other listed
    simp only [same, true_and, decide_eq_false_iff_not, ne_eq, not_not] at stays
    exact Option.some.inj (stays.symm.trans here)

theorem unlock_exclusive_of_first {hold : Hold} (first : c.holdToRelease? p = some i)
    (listed : c.holds[i]? = some hold) :
    c.unlock p .exclusive =
      ({ c with holds := c.holds.eraseIdx i } : Catalog).giveUp hold.taken := by
  rw [Catalog.unlock, first]
  simp only [Option.bind_some, listed, Option.map_some]

theorem Sound.unlock_exclusive (h : c.Sound calls strict) (first : c.holdToRelease? p = some i)
    (listed : c.holds[i]? = some call.hold) (member : call ∈ calls.granted)
    (writer : call.acquisition.mode = .exclusive) :
    (c.unlock p .exclusive).2.Sound (calls.close call.ticket) strict ∧
      (strict → (c.unlock p .exclusive).1 = .ok ()) := by
  rw [unlock_exclusive_of_first first listed]
  refine h.close member ?_
  obtain ⟨bound, same⟩ := List.getElem?_eq_some_iff.mp listed
  rw [if_pos writer, ← same]
  exact (List.getElem_cons_eraseIdx_perm bound).symm

theorem Sound.unlock (h : c.Sound calls True) (located : c.Located calls)
    (member : call ∈ calls.granted) :
    ∃ locks holds, c.unlock call.acquisition.path call.acquisition.mode =
        (.ok (), { c with locks, holds }) ∧
      ({ c with locks, holds } : Catalog).Sound (calls.close call.ticket) True := by
  have unlocked : (c.unlock call.acquisition.path call.acquisition.mode).2.Sound
      (calls.close call.ticket) True ∧
      (True → (c.unlock call.acquisition.path call.acquisition.mode).1 = .ok ()) := by
    cases mode : call.acquisition.mode with
    | shared => exact h.unlock_shared member mode (located call (List.mem_append_right _ member))
    | exclusive =>
      obtain ⟨i, first⟩ := Option.isSome_iff_exists.mp
        (holdToRelease?_isSome.mpr ⟨call.hold, h.regular.recorded member mode, rfl⟩)
      obtain ⟨hold, listed, path, -⟩ := holdToRelease?_eq_some first
      -- The lock recorded for the path is that of the request, as no path has two writers.
      obtain ⟨other, granted, writer, rfl⟩ := h.regular.holder (List.mem_of_getElem? listed)
      obtain rfl := h.eq_of_path located granted member writer mode path
      exact h.unlock_exclusive first listed granted writer
  have tree := tree_unlock c call.acquisition.path call.acquisition.mode
  obtain ⟨sound, done⟩ := unlocked
  generalize c.unlock call.acquisition.path call.acquisition.mode = result at *
  obtain ⟨answer, tree', locks, holds⟩ := result
  obtain rfl : answer = .ok () := done trivial
  obtain rfl : tree' = c.tree := tree
  exact ⟨locks, holds, rfl, sound⟩

/-! ## Paths of the requests -/

section Located

variable {c' : Catalog}

theorem Located.of_tree (h : c.Located calls) (same : c'.tree = c.tree) : c'.Located calls := by
  rwa [Located, same]

theorem Located.grow {u : Tree} (h : c.Located calls) (wf : c.tree.WellFormed) (wf' : u.WellFormed)
    (grows : c.tree.Grows u) : ({ c with tree := u } : Catalog).Located calls :=
  fun call member => grows.find? wf wf' (h call member)

theorem Located.note {answer : LockAnswer} (h : c.Located calls) (ticket : Ticket)
    (found : c.tree.find? a.path = some a.target) (answers : Answers a answer) :
    c.Located (calls.note ticket a.path a.mode c' answer) := by
  intro call member
  cases answer with
  | granted target =>
    obtain rfl : target = a.target := answers
    rw [Calls.note, Calls.current, ← List.append_assoc, List.mem_append] at member
    rcases member with old | new
    · exact h call old
    · rw [List.mem_singleton.mp new]
      exact found
  | waiting b =>
    obtain ⟨path, -, target⟩ := answers
    rw [Calls.note, Calls.current, List.append_assoc, List.mem_append, List.mem_append] at member
    rcases member with old | new | old
    · exact h call (List.mem_append_left _ old)
    · rw [List.mem_singleton.mp new, path, target]
      exact found
    · exact h call (List.mem_append_right _ old)
  | failed => exact h call member

theorem Located.leave (h : c.Located calls) (ticket : Ticket) :
    c.Located (calls.leave ticket) := fun call member =>
  h call ((List.filter_sublist.append_right _).subset member)

theorem Located.close (h : c.Located calls) (ticket : Ticket) :
    c.Located (calls.close ticket) := fun call member =>
  h call ((List.filter_sublist.append_left _).subset member)

theorem tree_lock (c : Catalog) (p : Path) (mode : LockMode) (ticket : Ticket) :
    (c.lock p mode ticket).2.tree = c.tree := by
  unfold lock
  split
  · rfl
  · exact tree_conclude _ _

theorem tree_resume (c : Catalog) (a : Acquisition) (ticket : Ticket) :
    (c.resume a ticket).2.tree = c.tree := tree_conclude _ _

theorem Located.lock (h : c.Located calls) (sound : c.Sound calls True) (p : Path) (mode : LockMode)
    (fresh : ticket ∉ calls.tickets) :
    (c.lock p mode ticket).2.Located
      (calls.note ticket p mode (c.lock p mode ticket).2 (c.lock p mode ticket).1) := by
  refine Located.of_tree ?_ (tree_lock c p mode ticket)
  cases found : c.tree.find? p with
  | none =>
    rw [Catalog.lock, Tree.get, found]
    exact h
  | some n =>
    rw [lock_of_found found]
    exact Located.note (a := .start c.tree p mode n) h ticket found
      (conclude_answers (sound.start_goes p mode fresh))

theorem Located.resume (h : c.Located calls) (sound : c.Sound calls True)
    (member : call ∈ calls.waiting) :
    (c.resume call.acquisition call.ticket).2.Located
      ((calls.leave call.ticket).note call.ticket call.acquisition.path call.acquisition.mode
        (c.resume call.acquisition call.ticket).2 (c.resume call.acquisition call.ticket).1) :=
  ((h.leave call.ticket).note call.ticket (h call (List.mem_append_left _ member))
    (conclude_answers (sound.resume_goes member))).of_tree (tree_resume ..)

end Located

end Catalog

end DistFs
