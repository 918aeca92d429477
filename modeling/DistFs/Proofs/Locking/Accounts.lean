import DistFs.Proofs.Locking.Run

namespace DistFs

namespace Traffic

variable {s : Traffic} {call call' : Call} {threshold : Nat} {n : Nat} {mode : LockMode}
  {ticket : Ticket} {strict : Prop}

/-- The request has taken the node in this mode, or was granted it from the line. -/
def Owns (s : Traffic) (call : Call) (n : NodeId) (mode : LockMode) : Prop :=
  (n, mode) ∈ call.acquisition.taken ∨
    call.acquisition.pending.head? = some (n, mode) ∧
      call.ticket ∈ (s.catalog.locks.get n).granted

instance : Decidable (s.Owns call n mode) := inferInstanceAs (Decidable (_ ∨ _))

def HasTaken (s : Traffic) (call : Call) (n : NodeId) : Prop :=
  s.Owns call n .shared ∨ s.Owns call n .exclusive

def Reads (s : Traffic) (n : NodeId) (call : Call) : Prop :=
  call.acquisition.mode = .shared ∧ call.acquisition.target = n ∧ s.HasTaken call n

def Passes (s : Traffic) (n : NodeId) (call : Call) : Prop :=
  call.acquisition.mode = .exclusive ∧
    n ∈ (s.catalog.tree.node call.acquisition.target).lineage ∧ s.HasTaken call n

def Writes (s : Traffic) (n : NodeId) (call : Call) : Prop :=
  call.acquisition.mode = .exclusive ∧
    (n = call.acquisition.target ∨
      call.acquisition.target ∈ (s.catalog.tree.node n).lineage) ∧ s.HasTaken call n

instance : Decidable (s.HasTaken call n) := inferInstanceAs (Decidable (_ ∨ _))
instance : Decidable (s.Reads n call) := inferInstanceAs (Decidable (_ ∧ _))
instance : Decidable (s.Passes n call) := inferInstanceAs (Decidable (_ ∧ _))
instance : Decidable (s.Writes n call) := inferInstanceAs (Decidable (_ ∧ _))

theorem countP_or {α : Type} {p q : α → Prop} [DecidablePred p] [DecidablePred q] {list : List α}
    (apart : ∀ x ∈ list, p x → ¬ q x) :
    list.countP (fun x => p x ∨ q x) = list.countP (p ·) + list.countP (q ·) := by
  induction list with
  | nil => rfl
  | cons x rest ih =>
    have alone := apart x List.mem_cons_self
    rw [List.countP_cons, List.countP_cons, List.countP_cons,
      ih fun y later => apart y (List.mem_cons_of_mem _ later)]
    by_cases first : p x <;> by_cases second : q x
    · exact absurd second (alone first)
    all_goals simp only [first, second, decide_true, decide_false, or_self, or_true, true_or,
      Bool.false_eq_true, if_true, if_false]; omega

theorem count_flatMap_eq_countP {α β : Type} [BEq β] [LawfulBEq β] {list : List α} {f : α → List β}
    (x : β) (nodup : ∀ a ∈ list, (f a).Nodup) :
    (list.flatMap f).count x = list.countP fun a => x ∈ f a := by
  induction list with
  | nil => rfl
  | cons a rest ih =>
    rw [List.flatMap_cons, List.count_append, List.countP_cons,
      ih fun b later => nodup b (List.mem_cons_of_mem _ later), (nodup a List.mem_cons_self).count]
    simp only [decide_eq_true_eq]
    omega

/-! ## Counting the owners -/

theorem owns_mem_nodes (h : s.Owns call n mode) : (n, mode) ∈ call.acquisition.nodes := by
  rcases h with taken | ⟨head, -⟩
  · exact List.mem_append_left _ taken
  · exact List.mem_append_right _ (List.mem_of_head? head)

namespace Sound

theorem not_taken_of_head (h : s.Sound strict) (member : call ∈ s.calls.current)
    (taken : (n, mode) ∈ call.acquisition.taken) :
    call.acquisition.pending.head? ≠ some (n, mode) := by
  intro head
  have before := (List.pairwise_append.mp (h.regular.course call member).ordered).2.2 _ taken _
    (List.mem_of_head? head)
  exact Path.Before.irrefl _ before

theorem count_held (h : s.Sound strict) (n : Nat) (mode : LockMode) :
    s.calls.held.count (n, mode) =
      s.calls.current.countP fun call => (n, mode) ∈ call.acquisition.taken :=
  count_flatMap_eq_countP _ fun _ member => (h.nodup_taken member).of_map _

theorem count_granted (h : s.Sound strict) (n : Nat) (mode : LockMode) :
    (s.catalog.locks.get n).granted.countP (s.calls.waits · = some (n, mode)) =
      s.calls.waiting.countP fun call => call.acquisition.pending.head? = some (n, mode) ∧
        call.ticket ∈ (s.catalog.locks.get n).granted := by
  have nodup := h.regular.nodup_waiting
  have granted := (List.nodup_append'.mp (h.balanced n).nodup).2.1
  -- Each ticket that was granted belongs to one waiting request, and neither list repeats itself.
  have same : ((s.catalog.locks.get n).granted.filter (s.calls.waits · = some (n, mode))).Perm
      ((s.calls.waiting.filter fun call => call.acquisition.pending.head? = some (n, mode) ∧
        call.ticket ∈ (s.catalog.locks.get n).granted).map (·.ticket)) := by
    refine (List.perm_ext_iff_of_nodup (granted.filter _)
      (nodup.sublist (List.filter_sublist.map _))).mpr fun ticket => ?_
    simp only [List.mem_filter, List.mem_map, decide_eq_true_eq]
    constructor
    · rintro ⟨member, place⟩
      rw [Calls.waits, Option.bind_eq_some_iff] at place
      obtain ⟨call, found, head⟩ := place
      have same : call.ticket = ticket := by simpa using List.find?_some found
      exact ⟨call, ⟨List.mem_of_find?_eq_some found, head, same ▸ member⟩, same⟩
    · rintro ⟨call, ⟨member, head, granted⟩, rfl⟩
      exact ⟨granted, (Calls.waits_of_mem nodup member).trans head⟩
  rw [List.countP_eq_length_filter, List.countP_eq_length_filter, same.length_eq, List.length_map]

theorem count_owners_exact (h : s.Sound strict) (n : Nat) (mode : LockMode) :
    Tally (Exact strict mode) ((s.catalog.locks.get n).count mode)
      (s.calls.current.countP fun call => s.Owns call n mode) := by
  have apart : ∀ call ∈ s.calls.current, (n, mode) ∈ call.acquisition.taken →
      ¬ (call.acquisition.pending.head? = some (n, mode) ∧
        call.ticket ∈ (s.catalog.locks.get n).granted) :=
    fun call member taken waits => h.not_taken_of_head member taken waits.1
  have line : s.calls.current.countP (fun call =>
      call.acquisition.pending.head? = some (n, mode) ∧
        call.ticket ∈ (s.catalog.locks.get n).granted) =
      s.calls.waiting.countP fun call => call.acquisition.pending.head? = some (n, mode) ∧
        call.ticket ∈ (s.catalog.locks.get n).granted := by
    -- A request whose lock was granted has nothing pending.
    have done : s.calls.granted.countP (fun call =>
        call.acquisition.pending.head? = some (n, mode) ∧
          call.ticket ∈ (s.catalog.locks.get n).granted) = 0 := by
      apply List.countP_eq_zero.mpr
      intro call member
      simp [h.regular.granted call member]
    rw [Calls.current, List.countP_append, done, Nat.add_zero]
  have total := (h.balanced n).count mode
  rw [h.count_held, h.count_granted, ← line, ← countP_or apart] at total
  exact total

theorem count_owners (h : s.Sound strict) (n : Nat) (mode : LockMode) :
    Tally strict ((s.catalog.locks.get n).count mode)
      (s.calls.current.countP fun call => s.Owns call n mode) :=
  (h.count_owners_exact n mode).mono .inl

/-! ## Readers and writers -/

theorem owns_exclusive_iff (h : s.Sound strict) (member : call ∈ s.calls.current) :
    s.Owns call n .exclusive ↔ s.Writes n call := by
  have course := h.regular.course call member
  have wf := h.tree
  constructor
  · intro owns
    have known := owns_mem_nodes owns
    exact ⟨course.mode_exclusive known, course.below n known, .inr owns⟩
  · rintro ⟨writer, below, owns | owns⟩
    · have above := (course.above writer n).mp (owns_mem_nodes owns)
      have older := wf.lineage_lt course.known n above
      rcases below with rfl | under
      · exact absurd older (Nat.lt_irrefl _)
      · have younger := wf.lineage_lt (Tree.known_of_mem_lineage under) _ under
        exact absurd (Nat.lt_trans older younger) (Nat.lt_irrefl _)
    · exact owns

theorem owns_shared_iff (h : s.Sound strict) (member : call ∈ s.calls.current) :
    s.Owns call n .shared ↔ s.Reads n call ∨ s.Passes n call := by
  have course := h.regular.course call member
  have wf := h.tree
  constructor
  · intro owns
    have known := owns_mem_nodes owns
    cases mode : call.acquisition.mode with
    | shared =>
      rw [course.reader mode, List.mem_singleton] at known
      exact .inl ⟨mode, (Prod.mk.inj known).1.symm, .inl owns⟩
    | exclusive => exact .inr ⟨mode, (course.above mode n).mp known, .inl owns⟩
  · rintro (⟨reader, -, owns | owns⟩ | ⟨writer, above, owns | owns⟩)
    · exact owns
    · have writer := course.mode_exclusive (owns_mem_nodes owns)
      exact absurd (reader.symm.trans writer) (by simp)
    · exact owns
    · have older := wf.lineage_lt course.known n above
      rcases course.below n (owns_mem_nodes owns) with rfl | under
      · exact absurd older (Nat.lt_irrefl _)
      · have younger := wf.lineage_lt (Tree.known_of_mem_lineage under) _ under
        exact absurd (Nat.lt_trans older younger) (Nat.lt_irrefl _)

theorem not_in_lines (h : s.Sound strict) (gone : ticket ∉ s.calls.waiting.map (·.ticket))
    (n : Nat) :
    ticket ∉ (s.catalog.locks.get n).granted ∧
      ∀ w ∈ (s.catalog.locks.get n).queue, w.ticket ≠ ticket := by
  have away (mode : LockMode) : s.calls.waits ticket ≠ some (n, mode) := by
    simp [Calls.waits_eq_none gone]
  obtain ⟨line, granted⟩ := (h.balanced n).not_in_line away
  exact ⟨granted, line⟩

theorem failed_absent (h : s.Sound strict) (failed : ticket ∈ s.calls.failed) :
    (∀ call ∈ s.calls.current, call.ticket ≠ ticket) ∧
      ∀ n : Nat, ticket ∉ (s.catalog.locks.get n).granted ∧
        ∀ w ∈ (s.catalog.locks.get n).queue, w.ticket ≠ ticket := by
  have absent : ∀ call ∈ s.calls.current, call.ticket ≠ ticket := by
    rintro call member rfl
    exact (List.nodup_append'.mp h.regular.tickets).2.2 (List.mem_map_of_mem member) failed
  refine ⟨absent, h.not_in_lines fun member => ?_⟩
  obtain ⟨call, waiting, same⟩ := List.mem_map.mp member
  exact absent call (List.mem_append_left _ waiting) same

end Sound

namespace Orderly

theorem course (h : s.Orderly) (member : call ∈ s.calls.current) :
    call.acquisition.OnCourse s.catalog.tree := h.sound.regular.course call member

theorem count_eq (h : s.Orderly) (n : Nat) (mode : LockMode) :
    (s.catalog.locks.get n).count mode = s.calls.current.countP fun call => s.Owns call n mode :=
  (h.sound.count_owners n mode).eq trivial

theorem exclusive_eq (h : s.Orderly) (n : Nat) :
    (s.catalog.locks.get n).exclusive = s.calls.current.countP (s.Writes n ·) := by
  refine (h.count_eq n .exclusive).trans (List.countP_congr fun call member => ?_)
  simp only [decide_eq_true_eq, h.sound.owns_exclusive_iff member]

theorem shared_eq (h : s.Orderly) (n : Nat) :
    (s.catalog.locks.get n).shared =
      s.calls.current.countP (s.Reads n ·) + s.calls.current.countP (s.Passes n ·) := by
  have apart : ∀ call ∈ s.calls.current, s.Reads n call → ¬ s.Passes n call :=
    fun call _ reads passes => absurd (reads.1.symm.trans passes.1) (by simp)
  rw [← countP_or apart]
  refine (h.count_eq n .shared).trans (List.countP_congr fun call member => ?_)
  simp only [decide_eq_true_eq, h.sound.owns_shared_iff member]

theorem granted_path (h : s.Orderly) (member : call ∈ s.calls.granted)
    (writer : call.acquisition.mode = .exclusive) :
    (call.acquisition.target, .exclusive) ∈ call.acquisition.taken ∧
      ∀ m ∈ (s.catalog.tree.node call.acquisition.target).lineage,
        (m, .shared) ∈ call.acquisition.taken := by
  have course := h.course (List.mem_append_right _ member)
  have all : call.acquisition.nodes = call.acquisition.taken := by
    rw [Acquisition.nodes, h.sound.regular.granted call member, List.append_nil]
  refine ⟨h.sound.taken_target member writer, fun m above => ?_⟩
  rw [← all]
  exact (course.above writer m).mpr above

theorem writers_apart (h : s.Orderly) (member : call ∈ s.calls.granted)
    (member' : call' ∈ s.calls.granted) (writer : call.acquisition.mode = .exclusive)
    (writer' : call'.acquisition.mode = .exclusive) (other : call ≠ call') :
    call'.acquisition.path.isUnder call.acquisition.path = false := by
  rw [Bool.eq_false_iff]
  intro under
  have wf := h.sound.tree
  obtain ⟨above, path⟩ := (Tree.find?_eq_some_iff wf).mp
    (h.located call (List.mem_append_right _ member))
  obtain ⟨below, path'⟩ := (Tree.find?_eq_some_iff wf).mp
    (h.located call' (List.mem_append_right _ member'))
  have taken := (h.granted_path member writer).1
  rw [← path, ← path'] at under
  rcases wf.mem_lineage_of_isUnder above _ below.known below under with same | passed
  · refine other (h.sound.eq_of_exclusive (List.mem_append_right _ member)
      (List.mem_append_right _ member') taken ?_)
    rw [← same]
    exact h.sound.taken_target member' writer'
  · have shared := (h.granted_path member' writer').2 _ passed
    exact h.sound.not_exclusive (List.mem_append_right _ member') (List.mem_append_right _ member)
      shared taken

end Orderly

/-- The counters of a lock count those who have taken its node, readers and writers are never mixed,
a request that has failed is none of them, and the paths of granted writers are apart. Whoever was
granted a lock can have it unlocked, and then counts no more. -/
theorem counters_count_owners (h : Reachable threshold s) :
    (∀ n : NodeId,
      (s.catalog.locks.get n).shared =
        s.calls.current.countP (s.Reads n ·) + s.calls.current.countP (s.Passes n ·) ∧
      (s.catalog.locks.get n).exclusive = s.calls.current.countP (s.Writes n ·) ∧
      (s.catalog.locks.get n).exclusive ≤ 1 ∧
      (0 < (s.catalog.locks.get n).shared → (s.catalog.locks.get n).exclusive = 0)) ∧
    (∀ ticket ∈ s.calls.failed, (∀ call ∈ s.calls.current, call.ticket ≠ ticket) ∧
      ∀ n : NodeId, ticket ∉ (s.catalog.locks.get n).granted ∧
        ∀ w ∈ (s.catalog.locks.get n).queue, w.ticket ≠ ticket) ∧
    (∀ call ∈ s.calls.granted, ∀ call' ∈ s.calls.granted,
      call.acquisition.mode = .exclusive → call'.acquisition.mode = .exclusive → call ≠ call' →
        call'.acquisition.path.isUnder call.acquisition.path = false) ∧
    ∀ call ∈ s.calls.granted, ∃ s', s.Unlocks call s' := by
  have orderly := h.orderly
  refine ⟨fun n => ⟨orderly.shared_eq n, orderly.exclusive_eq n, ?_, ?_⟩, ?_, ?_,
    fun call member => orderly.exists_unlocks member⟩
  · exact (orderly.sound.balanced n).single
  · exact (orderly.sound.balanced n).apart
  · exact fun ticket failed => orderly.sound.failed_absent failed
  · exact fun call member call' member' writer writer' other =>
      orderly.writers_apart member member' writer writer' other

def mixed : Traffic :=
  let grown := (start 1).setTree
    ((start 1).catalog.tree.register .sole ⟨.direct "s", .direct "s"⟩).2
  (((grown.lock .sole .exclusive 0).lock .root .shared 1).lock .sole .shared 2).interrupt.resume
    ⟨2, { path := .sole, mode := .shared, target := 1, pending := [(1, .shared)] }⟩

theorem mixed_counters :
    (mixed.catalog.locks.get 1).exclusive = mixed.calls.current.countP (mixed.Writes 1 ·) ∧
      (mixed.catalog.locks.get 1).exclusive = 1 ∧ (mixed.catalog.locks.get 0).shared = 2 ∧
      mixed.calls.failed = [2] := by
  have reachable : Reachable 1 mixed := by
    refine .next (.next (.next (.next (.next (.next .start (.register ..)) (.lock _ _ _ ?_))
      (.lock _ _ _ ?_)) (.lock _ _ _ ?_)) (.interrupt _)) (.resume _ ?_)
    all_goals decide +kernel
  exact ⟨((counters_count_owners reachable).1 1).2.1, by decide +kernel, by decide +kernel,
    by decide +kernel⟩

end Traffic

end DistFs
