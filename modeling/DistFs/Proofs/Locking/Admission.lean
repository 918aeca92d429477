import DistFs.Proofs.Locking.Deadlock
import DistFs.Proofs.Tree.Preorder
import DistFs.Proofs.Tree.Refinement
/-!
# Locks that are granted at once

Two locks conflict if one of them is exclusive and the path of the other lies at or below its own.
While the nodes of a tree stay the same and nobody is turned away, a lock that is asked for when
nobody waits is granted at once if it conflicts with no lock that is outstanding, and has to wait
otherwise. Locks in conflict need the same node, as a writer takes everything below its path
(`Covers`); and who waits does so for a node that somebody has taken, with whom it conflicts.
-/

namespace DistFs

def Conflict (p : Path) (mode : LockMode) (q : Path) (mode' : LockMode) : Prop :=
  mode = .exclusive ∧ q.isUnder p = true ∨ mode' = .exclusive ∧ p.isUnder q = true

/-! ## Locks that nobody has closed -/

namespace LockTable

variable {table table' : LockTable} {t : Tree} {ticket : Ticket} {a b : Acquisition} {n : Nat}
  {l : Lock} {mode : LockMode}

def Open (table : LockTable) : Prop := ∀ n : Nat, (table.get n).closed = false

namespace Open

theorem set (h : table.Open) (opened : l.closed = false) : (table.set n l).Open := by
  intro m
  rw [get_set]
  split
  · exact opened
  · exact h m

theorem acquire (h : table.Open) {admission : Admission}
    (answer : (table.get n).acquire mode ticket = (admission, l)) : (table.set n l).Open := by
  have same := Lock.closed_acquire (table.get n) mode ticket
  rw [answer] at same
  exact h.set (same.trans (h n))

theorem advance (h : table.Open) (t : Tree) (ticket : Ticket) (a : Acquisition) :
    (table.advance t ticket a).2.Open ∧
      ∀ b n, (table.advance t ticket a).1 ≠ .interrupted b n := by
  induction table, a using LockTable.advance.induct t ticket with
  | case1 table a done =>
    rw [advance_of_nil done]
    refine ⟨h, fun b n same => ?_⟩
    cases same
  | case2 table a n mode rest pending l answer ih =>
    rw [advance_of_cons pending, answer]
    exact ih (h.acquire answer)
  | case3 table a n mode rest pending l answer =>
    rw [advance_of_cons pending, answer]
    refine ⟨h.acquire answer, fun b n same => ?_⟩
    cases same
  | case4 table a n mode rest pending l answer =>
    have closed := (Lock.acquire_eq_refused answer).1
    exact absurd (closed.symm.trans (h n)) (by simp)

theorem resume (h : table.Open) (t : Tree) (ticket : Ticket) (a : Acquisition) :
    (table.resume t ticket a).2.Open := by
  cases pending : a.pending with
  | nil =>
    rw [LockTable.resume, pending]
    exact h
  | cons x rest =>
    obtain ⟨n, mode⟩ := x
    rw [resume_of_cons pending]
    have same := Lock.closed_notice (table.get n) ticket
    cases answer : (table.get n).notice ticket with
    | mk notice l =>
      cases notice with
      | granted =>
        rw [answer] at same
        exact ((h.set (same.trans (h n))).advance t ticket _).1
      | waiting => exact h
      | interrupted => exact h

theorem releaseAll (h : table.Open) (given : List (NodeId × LockMode)) :
    (table.releaseAll given).2.Open := by
  induction given generalizing table with
  | nil => exact h
  | cons x rest ih =>
    obtain ⟨n, mode⟩ := x
    cases answer : (table.get n).release mode with
    | some l =>
      simp only [LockTable.releaseAll, answer]
      obtain ⟨passed, serves⟩ := Lock.release_serves answer
      exact ih (h.set (serves.closed.trans (h n)))
    | none =>
      simp only [LockTable.releaseAll, answer]
      exact ih h

end Open

theorem advance_stands (waits : table.advance t ticket a = (.waiting b, table')) :
    ∃ n mode, b.pending.head? = some (n, mode) ∧ ⟨ticket, mode, false⟩ ∈ (table'.get n).queue := by
  induction table, a using LockTable.advance.induct t ticket with
  | case1 table a done =>
    rw [advance_of_nil done] at waits
    cases waits
  | case2 table a n mode rest pending l answer ih =>
    rw [advance_of_cons pending, answer] at waits
    exact ih waits
  | case3 table a n mode rest pending l answer =>
    rw [advance_of_cons pending, answer] at waits
    cases waits
    refine ⟨n, mode, by rw [pending]; rfl, ?_⟩
    rw [get_set, if_pos rfl]
    unfold Lock.acquire at answer
    grind
  | case4 table a n mode rest pending l answer =>
    rw [advance_of_cons pending, answer] at waits
    cases waits

end LockTable

/-! ## What a writer takes -/

namespace Acquisition

variable {t : Tree} {a b : Acquisition}

def Covers (t : Tree) (a : Acquisition) : Prop :=
  ∀ n, (n, .exclusive) ∈ a.taken → ∀ m ∈ t.children n, (m, .exclusive) ∈ a.nodes

theorem covers_start (t : Tree) (p : Path) (mode : LockMode) (n : NodeId) :
    (start t p mode n).Covers t := nofun

theorem Covers.takes (h : a.Covers t) (step : a.Takes t b) : b.Covers t := by
  obtain ⟨n, mode, rest, pending, rfl⟩ := step
  intro k taken m listed
  have kept {x : NodeId × LockMode} (old : x ∈ a.nodes) : x ∈ (a.take t n mode rest).nodes := by
    simp only [nodes, pending, take, List.mem_append, List.mem_cons] at old ⊢
    tauto
  rcases List.mem_append.mp taken with before | now
  · exact kept (h k before m listed)
  · obtain ⟨rfl, rfl⟩ := Prod.mk.inj (List.mem_singleton.mp now)
    exact List.mem_append_right _ (List.mem_append_right _ (List.mem_map_of_mem listed))

theorem Covers.reaches (h : a.Covers t) (reached : a.Reaches t b) : b.Covers t := by
  induction reached with
  | refl => exact h
  | tail _ step ih => exact ih.takes step

theorem Covers.mem_taken {n m : NodeId} (h : a.Covers t) (done : a.pending = [])
    (taken : (n, .exclusive) ∈ a.taken) (below : t.Below n m) : (m, .exclusive) ∈ a.taken := by
  induction below with
  | refl => exact taken
  | tail _ child ih =>
    have next := h _ ih _ child
    rwa [nodes, done, List.append_nil] at next

end Acquisition

/-! ## The requests after a step -/

structure Calls.Gains (calls : Calls) (ticket : Ticket) (progress : LockProgress) (calls' : Calls) :
    Prop where
  waiting : ∀ call ∈ calls'.waiting,
    call ∈ calls.waiting ∨ call.ticket = ticket ∧ progress = .waiting call.acquisition
  granted : ∀ call ∈ calls'.granted,
    call ∈ calls.granted ∨ call.ticket = ticket ∧ progress = .granted call.acquisition

theorem Calls.Gains.current {calls calls' : Calls} {ticket : Ticket} {progress : LockProgress}
    {call : Call} (gains : calls.Gains ticket progress calls') (member : call ∈ calls'.current) :
    call ∈ calls.current ∨ call.ticket = ticket ∧ progress.acquisition = call.acquisition := by
  rcases List.mem_append.mp member with waits | given
  · exact (gains.waiting call waits).imp (List.mem_append_left _ ·) fun ⟨own, stops⟩ =>
      ⟨own, by rw [stops]; rfl⟩
  · exact (gains.granted call given).imp (List.mem_append_right _ ·) fun ⟨own, stops⟩ =>
      ⟨own, by rw [stops]; rfl⟩

namespace Catalog

variable {c : Catalog} {calls : Calls} {call : Call} {ticket : Ticket} {a : Acquisition}
  {waits : Waits} {held : List (NodeId × LockMode)} {result : LockProgress × LockTable}
  {strict : Prop}

theorem gains_conclude (wf : c.tree.WellFormed) (course : a.OnCourse c.tree)
    (goes : LockTable.Goes c.tree ticket waits held strict a result) :
    calls.Gains ticket result.1
      (calls.note ticket a.path a.mode (c.conclude result).2 (c.conclude result).1) := by
  cases goes with
  | @granted b table reached done balanced =>
    obtain ⟨path, mode, -⟩ := reached.same
    have record : (c.conclude (.granted b, table)).2.grantOf b.path b.mode b.target = b :=
      grantOf_eq (course.reaches wf reached) done rfl
    rw [← path, ← mode]
    simp only [Catalog.conclude] at record ⊢
    rw [Calls.note, record]
    refine ⟨fun call member => .inl member, fun call member => ?_⟩
    rw [List.mem_append, List.mem_singleton] at member
    rcases member with old | rfl
    · exact .inl old
    · exact .inr ⟨rfl, rfl⟩
  | @waiting b table n mode rest reached pending balanced =>
    refine ⟨fun call member => ?_, fun call member => .inl member⟩
    simp only [Catalog.conclude, Calls.note, List.mem_append, List.mem_singleton] at member
    rcases member with old | rfl
    · exact .inl old
    · exact .inr ⟨rfl, rfl⟩
  | interrupted => exact ⟨fun call member => .inl member, fun call member => .inl member⟩

theorem Sound.gains_lock {p : Path} {n : NodeId} (h : c.Sound calls strict) (mode : LockMode)
    (fresh : ticket ∉ calls.tickets) (found : c.tree.find? p = some n) :
    calls.Gains ticket (c.locks.advance c.tree ticket (.start c.tree p mode n)).1
      (calls.note ticket p mode (c.lock p mode ticket).2 (c.lock p mode ticket).1) := by
  rw [lock_of_found found]
  exact gains_conclude h.tree (Acquisition.onCourse_start h.tree found mode)
    (h.start_goes p mode fresh)

theorem Sound.gains_resume (h : c.Sound calls strict) (member : call ∈ calls.waiting) :
    (calls.leave call.ticket).Gains call.ticket
      (c.locks.resume c.tree call.ticket call.acquisition).1
      ((calls.leave call.ticket).note call.ticket call.acquisition.path call.acquisition.mode
        (c.resume call.acquisition call.ticket).2 (c.resume call.acquisition call.ticket).1) :=
  gains_conclude h.tree (h.regular.course call (List.mem_append_left _ member))
    (h.resume_goes member)

theorem open_giveUp (h : c.locks.Open) (taken : List (NodeId × LockMode)) :
    (c.giveUp taken).2.locks.Open := by
  rw [locks_giveUp]
  exact h.releaseAll _

theorem open_unlock (h : c.locks.Open) (p : Path) (mode : LockMode) :
    (c.unlock p mode).2.locks.Open := by
  unfold Catalog.unlock
  cases mode with
  | shared =>
    cases c.tree.get p with
    | error e => exact h
    | ok m => exact open_giveUp h _
  | exclusive =>
    simp only
    split
    next i hold _ => exact open_giveUp (c := { c with holds := c.holds.eraseIdx i }) h hold.taken
    next => cases c.tree.get p <;> exact h

theorem open_conclude (h : result.2.Open) : (c.conclude result).2.locks.Open := by
  obtain ⟨progress, locks⟩ := result
  cases progress with
  | granted b => exact h
  | waiting b => exact h
  | interrupted b m => exact LockTable.Open.releaseAll h _

end Catalog

namespace Traffic

variable {s : Traffic} {x y call : Call} {p : Path} {mode : LockMode} {ticket : Ticket} {n : Nat}

theorem mem_current_lock (h : s.Orderly) (fresh : ticket ∉ s.calls.tickets)
    (member : call ∈ (s.lock p mode ticket).calls.current) :
    call ∈ s.calls.current ∨ call.ticket = ticket ∧
      ∃ n, (Acquisition.start s.catalog.tree p mode n).Reaches s.catalog.tree call.acquisition := by
  unfold Traffic.lock at member
  cases found : s.catalog.tree.find? p with
  | none =>
    rw [Catalog.lock, Tree.get, found] at member
    exact .inl member
  | some n =>
    rcases (h.sound.gains_lock mode fresh found).current member with old | ⟨new, stops⟩
    · exact .inl old
    · exact .inr ⟨new, n, stops ▸ (LockTable.advance_comes ..).reached⟩

theorem mem_current_resume (h : s.Orderly) (waits : x ∈ s.calls.waiting)
    (member : call ∈ (s.resume x).calls.current) :
    call ∈ s.calls.current ∨
      call.ticket = x.ticket ∧ x.acquisition.Reaches s.catalog.tree call.acquisition := by
  have left : (s.calls.leave x.ticket).current.Sublist s.calls.current :=
    List.filter_sublist.append_right _
  rcases (h.sound.gains_resume waits).current member with old | ⟨new, stops⟩
  · exact .inl (left.subset old)
  · exact .inr ⟨new, stops ▸ (LockTable.resume_comes ..).reached⟩

/-! ## Runs without interruption -/

/-- A tree is made, and from then on its nodes are only locked and unlocked. -/
inductive Calm : Traffic → Prop
  | start (threshold : Nat) (calls : List TreeCall) :
      Calm (ofTree ((Tree.empty threshold).performAll calls).2)
  | lock {s : Traffic} (before : Calm s) (p : Path) (mode : LockMode) {ticket : Ticket}
      (fresh : ticket ∉ s.calls.tickets) : Calm (s.lock p mode ticket)
  | resume {s : Traffic} (before : Calm s) {call : Call} (member : call ∈ s.calls.waiting) :
      Calm (s.resume call)
  | unlock {s s' : Traffic} (before : Calm s) {call : Call} (member : call ∈ s.calls.granted)
      (unlocks : s.Unlocks call s') : Calm s'

structure Intact (s : Traffic) : Prop where
  orderly : s.Orderly
  opened : s.catalog.locks.Open
  covers : ∀ call ∈ s.calls.current, call.acquisition.Covers s.catalog.tree

namespace Intact

theorem lock (h : s.Intact) (p : Path) (mode : LockMode) (fresh : ticket ∉ s.calls.tickets) :
    (s.lock p mode ticket).Intact := by
  refine ⟨h.orderly.lock p mode fresh, ?_, fun call member => ?_⟩
  · change (s.catalog.lock p mode ticket).2.locks.Open
    unfold Catalog.lock
    split
    · exact h.opened
    · exact Catalog.open_conclude (h.opened.advance ..).1
  · rw [show (s.lock p mode ticket).catalog.tree = s.catalog.tree from Catalog.tree_lock ..]
    rcases mem_current_lock h.orderly fresh member with old | ⟨-, n, reached⟩
    · exact h.covers call old
    · exact Acquisition.Covers.reaches (Acquisition.covers_start _ _ _ n) reached

theorem resume (h : s.Intact) (waits : x ∈ s.calls.waiting) : (s.resume x).Intact := by
  refine ⟨h.orderly.resume waits, Catalog.open_conclude (h.opened.resume _ _ _),
    fun call member => ?_⟩
  rw [show (s.resume x).catalog.tree = s.catalog.tree from Catalog.tree_resume ..]
  rcases mem_current_resume h.orderly waits member with old | ⟨-, reached⟩
  · exact h.covers call old
  · exact (h.covers x (List.mem_append_left _ waits)).reaches reached

theorem unlock (h : s.Intact) (granted : x ∈ s.calls.granted) (unlocks : s.Unlocks x s') :
    s'.Intact := by
  refine ⟨h.orderly.unlock granted unlocks, ?_, ?_⟩
  · have opened := Catalog.open_unlock h.opened x.acquisition.path x.acquisition.mode
    rwa [unlocks.answer] at opened
  · obtain ⟨locks, holds, rfl, -⟩ := h.orderly.unlocks_eq granted unlocks
    intro call member
    exact h.covers call ((List.filter_sublist.append_left _).subset member)

end Intact

theorem Calm.intact (h : Calm s) : s.Intact := by
  induction h with
  | start threshold calls =>
    have shown := (Tree.shows_performAll (.empty threshold) calls).2
    exact ⟨orderly_ofTree shown.wf, fun _ => rfl, nofun⟩
  | lock _ p mode fresh ih => exact ih.lock p mode fresh
  | resume _ member ih => exact ih.resume member
  | unlock _ member unlocks ih => exact ih.unlock member unlocks

/-! ## Conflicts decide -/

namespace Intact

theorem covered (h : s.Intact) (granted : x ∈ s.calls.granted)
    (writer : x.acquisition.mode = .exclusive) (attached : s.catalog.tree.Attached n)
    (under : (s.catalog.tree.node n).path.isUnder x.acquisition.path = true) :
    (n, .exclusive) ∈ x.acquisition.taken := by
  have wf := h.orderly.sound.tree
  have current : x ∈ s.calls.current := List.mem_append_right _ granted
  have target := (h.orderly.granted_path granted writer).1
  obtain ⟨above, path⟩ := (Tree.find?_eq_some_iff wf).mp (h.orderly.located x current)
  rw [← path] at under
  exact (h.covers x current).mem_taken (h.orderly.sound.regular.granted x granted) target
    ((Tree.below_iff wf above).mpr ⟨attached, under⟩)

theorem eq_of_isUnder (h : s.Intact) (granted : x ∈ s.calls.granted)
    (granted' : y ∈ s.calls.granted) (writer : x.acquisition.mode = .exclusive)
    (under : y.acquisition.path.isUnder x.acquisition.path = true) : x = y := by
  have sound := h.orderly.sound
  have current : x ∈ s.calls.current := List.mem_append_right _ granted
  have current' : y ∈ s.calls.current := List.mem_append_right _ granted'
  obtain ⟨attached, path⟩ := (Tree.find?_eq_some_iff sound.tree).mp (h.orderly.located y current')
  have taken := h.covered granted writer attached (path ▸ under)
  cases mode : y.acquisition.mode with
  | exclusive =>
    exact sound.eq_of_exclusive current current' taken (sound.taken_target granted' mode)
  | shared =>
    have reads : (y.acquisition.target, .shared) ∈ y.acquisition.taken := by
      simp [sound.taken_reader granted' mode]
    exact absurd taken (sound.not_exclusive current' current reads)

theorem no_conflict (h : s.Intact) (granted : x ∈ s.calls.granted) (granted' : y ∈ s.calls.granted)
    (other : x ≠ y) : ¬ Conflict x.acquisition.path x.acquisition.mode y.acquisition.path
      y.acquisition.mode := by
  rintro (⟨writer, under⟩ | ⟨writer, under⟩)
  · exact other (h.eq_of_isUnder granted granted' writer under)
  · exact other (h.eq_of_isUnder granted' granted writer under).symm

end Intact

namespace Orderly

theorem isUnder_of_owns (h : s.Orderly) (member : x ∈ s.calls.current)
    (owns : (n, .exclusive) ∈ x.acquisition.nodes) :
    (s.catalog.tree.node n).path.isUnder x.acquisition.path = true := by
  have course := h.course member
  rw [← course.path]
  rcases course.below n owns with rfl | under
  · exact Path.isUnder_refl _
  · exact h.sound.tree.isUnder_of_mem_lineage (Tree.known_of_mem_lineage under) _ under

theorem isUnder_node (h : s.Orderly) (member : x ∈ s.calls.current)
    (needs : (n, .shared) ∈ x.acquisition.nodes) :
    x.acquisition.path.isUnder (s.catalog.tree.node n).path = true := by
  have course := h.course member
  rw [← course.path]
  cases mode : x.acquisition.mode with
  | shared =>
    rw [course.reader mode, List.mem_singleton] at needs
    rw [(Prod.mk.inj needs).1]
    exact Path.isUnder_refl _
  | exclusive =>
    exact h.sound.tree.isUnder_of_mem_lineage course.known n ((course.above mode n).mp needs)

theorem conflict_of_nodes (h : s.Orderly) (member : x ∈ s.calls.current)
    (member' : y ∈ s.calls.current) {mode' : LockMode} (needs : (n, mode) ∈ x.acquisition.nodes)
    (needs' : (n, mode') ∈ y.acquisition.nodes) (clash : mode = .exclusive ∨ mode' = .exclusive) :
    Conflict x.acquisition.path x.acquisition.mode y.acquisition.path y.acquisition.mode := by
  have writes {z : Call} (current : z ∈ s.calls.current)
      (takes : (n, .exclusive) ∈ z.acquisition.nodes) : z.acquisition.mode = .exclusive :=
    (h.course current).mode_exclusive takes
  cases mode with
  | shared =>
    obtain rfl : mode' = .exclusive := by simpa using clash
    exact .inr ⟨writes member' needs',
      Path.isUnder_trans (h.isUnder_node member needs) (h.isUnder_of_owns member' needs')⟩
  | exclusive =>
    cases mode' with
    | shared =>
      exact .inl ⟨writes member needs,
        Path.isUnder_trans (h.isUnder_node member' needs') (h.isUnder_of_owns member needs)⟩
    | exclusive =>
      rcases Path.isUnder_or_isUnder (h.isUnder_of_owns member needs)
        (h.isUnder_of_owns member' needs') with under | under
      · exact .inr ⟨writes member' needs', under⟩
      · exact .inl ⟨writes member needs, under⟩

theorem conflict_of_waiting (h : s.Orderly) (alone : s.calls.waiting = [x])
    (head : x.acquisition.pending.head? = some (n, mode))
    (stands : ⟨x.ticket, mode, false⟩ ∈ (s.catalog.locks.get n).queue) :
    ∃ y ∈ s.calls.granted, Conflict x.acquisition.path x.acquisition.mode y.acquisition.path
      y.acquisition.mode := by
  have waits : x ∈ s.calls.waiting := by simp [alone]
  have settled := h.sound.balanced n
  have member : x ∈ s.calls.current := List.mem_append_left _ waits
  obtain ⟨w, first⟩ : ∃ w, (s.catalog.locks.get n).queue.head? = some w := by
    cases line : (s.catalog.locks.get n).queue with
    | nil => simp [line] at stands
    | cons w rest => exact ⟨w, rfl⟩
  have same : w.mode = mode := by
    obtain ⟨place, -⟩ := settled.waiting w (List.mem_of_head? first)
    rw [Calls.waits, alone, Option.bind_eq_some_iff] at place
    obtain ⟨z, found, head'⟩ := place
    rw [List.mem_singleton.mp (List.mem_of_find?_eq_some found), head] at head'
    exact (Prod.mk.inj (Option.some.inj head')).2.symm
  have full := settled.head w first
  rw [same] at full
  obtain ⟨mode', clash, positive⟩ : ∃ mode', (mode = .exclusive ∨ mode' = .exclusive) ∧
      0 < (s.catalog.locks.get n).count mode' := by
    by_contra none
    push Not at none
    have free (mode' : LockMode) (clash : mode = .exclusive ∨ mode' = .exclusive) :
        (s.catalog.locks.get n).count mode' = 0 := Nat.le_zero.mp (none mode' clash)
    rw [Lock.admits_iff.mpr ⟨free .exclusive (.inr rfl), fun writer => free .shared (.inl writer)⟩]
      at full
    cases full
  rw [h.count_eq, List.countP_pos_iff] at positive
  obtain ⟨y, member', owns⟩ := positive
  have owns := of_decide_eq_true owns
  have needs : (n, mode) ∈ x.acquisition.nodes := List.mem_append_right _ (List.mem_of_head? head)
  refine ⟨y, ?_, h.conflict_of_nodes member member' needs (owns_mem_nodes owns) clash⟩
  rw [Calls.current, alone, List.singleton_append] at member'
  refine (List.mem_cons.mp member').resolve_left ?_
  rintro rfl
  obtain ⟨i, place⟩ := List.mem_iff_getElem?.mp stands
  have standsAt : s.StandsAt y n i := ⟨waits, by rw [place]; rfl⟩
  have taken : s.HasTaken y n := by
    cases mode' with
    | shared => exact .inl owns
    | exclusive => exact .inr owns
  exact Path.Before.irrefl _ (h.before_of_hasTaken taken standsAt)

end Orderly

def IsFree (s : Traffic) (p : Path) (mode : LockMode) : Prop :=
  ∀ call ∈ s.calls.granted, ¬ Conflict p mode call.acquisition.path call.acquisition.mode

theorem Intact.lock_cases (h : s.Intact) (idle : s.calls.waiting = [])
    (found : s.catalog.tree.find? p = some n) (mode : LockMode) (fresh : ticket ∉ s.calls.tickets) :
    (s.catalog.lock p mode ticket).1 = .granted n ∧ s.IsFree p mode ∨
      (∃ a, (s.catalog.lock p mode ticket).1 = .waiting a) ∧ ¬ s.IsFree p mode := by
  have after := h.lock p mode fresh
  have goes := h.orderly.sound.start_goes (n := n) p mode fresh
  have opened := (h.opened.advance s.catalog.tree ticket (.start s.catalog.tree p mode n)).2
  unfold Traffic.lock at after
  rw [Catalog.lock_of_found found] at after ⊢
  cases answer : s.catalog.locks.advance s.catalog.tree ticket (.start s.catalog.tree p mode n) with
  | mk progress locks =>
    rw [answer] at after goes opened
    cases progress with
    | granted b =>
      cases goes with
      | granted reached _ _ =>
        refine .inl ⟨congrArg _ reached.same.2.2, fun call member => ?_⟩
        refine after.no_conflict (x := ⟨ticket, _⟩) (List.mem_append_right _ List.mem_cons_self)
          (List.mem_append_left _ member) fun same => ?_
        exact Calls.ticket_ne_of_fresh fresh member (congrArg Call.ticket same).symm
    | waiting b =>
      obtain ⟨m, mode', head, stands⟩ := LockTable.advance_stands answer
      cases goes with
      | waiting reached _ _ =>
        obtain ⟨path, same, -⟩ := reached.same
        obtain ⟨y, granted, conflict⟩ := after.orderly.conflict_of_waiting (x := ⟨ticket, b⟩)
          (by simp [Catalog.conclude, Calls.note, idle]) head stands
        refine .inr ⟨⟨b, rfl⟩, fun free => free y granted ?_⟩
        rwa [path, same] at conflict
    | interrupted b m => exact absurd rfl (opened b m)

/-- When nobody waits, a writer is let in at once if and only if nobody reads or writes at or below
his path and nobody writes above it, and a reader if and only if nobody writes at or above his path.
Everybody else waits, and locks of which neither lies below the other are never in the way. Whoever
has a lock can have it unlocked. -/
theorem admission_exact (calm : Calm s) (idle : s.calls.waiting = [])
    (found : s.catalog.tree.find? p = some n) (fresh : ticket ∉ s.calls.tickets) :
    ((s.catalog.lock p .exclusive ticket).1 = .granted n ↔
      ∀ call ∈ s.calls.granted, call.acquisition.path.isUnder p = false ∧
        (call.acquisition.mode = .exclusive → p.isUnder call.acquisition.path = false)) ∧
    ((s.catalog.lock p .shared ticket).1 = .granted n ↔
      ∀ call ∈ s.calls.granted, call.acquisition.mode = .exclusive →
        p.isUnder call.acquisition.path = false) ∧
    (∀ mode, (s.catalog.lock p mode ticket).1 = .granted n ∨
      ∃ a, (s.catalog.lock p mode ticket).1 = .waiting a) ∧
    (∀ mode, (∀ call ∈ s.calls.granted, p.isUnder call.acquisition.path = false ∧
        call.acquisition.path.isUnder p = false) →
      (s.catalog.lock p mode ticket).1 = .granted n) ∧
    ∀ call ∈ s.calls.granted, ∃ s', s.Unlocks call s' := by
  have cases_lock (mode : LockMode) := calm.intact.lock_cases idle found mode fresh
  have granted_iff (mode : LockMode) :
      (s.catalog.lock p mode ticket).1 = .granted n ↔ s.IsFree p mode := by
    rcases cases_lock mode with ⟨granted, free⟩ | ⟨⟨a, waits⟩, conflict⟩
    · exact ⟨fun _ => free, fun _ => granted⟩
    · exact ⟨fun granted => absurd (waits.symm.trans granted) (by simp),
        fun free => absurd free conflict⟩
  refine ⟨(granted_iff .exclusive).trans ?_, (granted_iff .shared).trans ?_, fun mode => ?_,
    fun mode apart => (granted_iff mode).mpr fun call member conflict => ?_,
    fun call member => calm.intact.orderly.exists_unlocks member⟩
  · refine forall₂_congr fun call member => ?_
    simp [Conflict]
  · refine forall₂_congr fun call member => ?_
    simp [Conflict]
  · exact (cases_lock mode).imp And.left And.left
  · obtain ⟨above, below⟩ := apart call member
    simp [Conflict, above, below] at conflict

def parted : Traffic :=
  let c : Container := ⟨.direct "s", .direct "s"⟩
  let tree := ((Tree.empty 1).performAll
    [.register (.child .sole ⟨"inner", by decide, by decide, by decide⟩) c,
      .register (.child .root ⟨"beside", by decide, by decide, by decide⟩) c]).2
  ((ofTree tree).lock .sole .exclusive 0).lock
    (.child .root ⟨"beside", by decide, by decide, by decide⟩) .shared 1

theorem parted_admits :
    (parted.calls.waiting = [] ∧ parted.calls.granted.map (·.acquisition.taken.length) = [3, 1]) ∧
    (parted.catalog.lock .root .shared 2).1 = .granted 0 ∧
    (parted.catalog.lock .root .exclusive 2).1 ≠ .granted 0 := by
  have calm : Calm parted := by
    refine .lock (.lock (.start 1 _) _ _ ?_) _ _ ?_
    all_goals decide +kernel
  have idle : parted.calls.waiting = [] := by decide +kernel
  have found : parted.catalog.tree.find? .root = some 0 := by decide +kernel
  have fresh : 2 ∉ parted.calls.tickets := by decide +kernel
  have exactly := admission_exact calm idle found fresh
  refine ⟨⟨idle, by decide +kernel⟩, exactly.2.1.mpr (by decide +kernel), fun granted => ?_⟩
  exact absurd (exactly.1.mp granted) (by decide +kernel)

end Traffic

end DistFs
