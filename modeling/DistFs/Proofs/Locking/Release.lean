import DistFs.Proofs.Locking.Soundness
/-!
# What an unlock gives up

An unlock names a path only. Of the exclusive locks recorded for the path it gives up one, whatever
node that lock is on; a shared lock is looked for on the node that stands at the path now. If there
is none, the unlock is a stray one, and may take away what somebody else was granted.
-/

namespace DistFs

namespace LockTable

variable {table table' : LockTable} {given : List (NodeId × LockMode)} {n : Nat} {mode : LockMode}

structure Released (table : LockTable) (given : List (NodeId × LockMode)) (table' : LockTable) :
    Prop where
  released : ∀ n mode, (n, mode) ∈ given → (table.get n).release mode = some (table'.get n)
  others : ∀ n, (∀ mode, (n, mode) ∉ given) → table'.get n = table.get n

theorem Released.of_reverse (h : table.Released given.reverse table') :
    table.Released given table' :=
  ⟨fun n mode listed => h.released n mode (List.mem_reverse.mpr listed),
    fun n absent => h.others n fun mode listed => absent mode (List.mem_reverse.mp listed)⟩

inductive ReleasedInTurn : LockTable → List (NodeId × LockMode) → LockTable → Prop
  | nil (table : LockTable) : ReleasedInTurn table [] table
  | cons {table table' : LockTable} {n : NodeId} {mode : LockMode} {l : Lock}
      {rest : List (NodeId × LockMode)} (released : (table.get n).release mode = some l)
      (later : ReleasedInTurn (table.set n l) rest table') :
      ReleasedInTurn table ((n, mode) :: rest) table'

theorem releaseAll_in_turn (all : (table.releaseAll given).1 = none) :
    table.ReleasedInTurn given (table.releaseAll given).2 := by
  induction given generalizing table with
  | nil => exact .nil table
  | cons x rest ih =>
    obtain ⟨n, mode⟩ := x
    cases answer : (table.get n).release mode with
    | none => simp [releaseAll, answer] at all
    | some l =>
      simp only [releaseAll, answer] at all ⊢
      exact .cons answer (ih all)

theorem ReleasedInTurn.released (turn : table.ReleasedInTurn given table')
    (nodup : (given.map Prod.fst).Nodup) : table.Released given table' := by
  induction turn with
  | nil => exact ⟨fun n mode listed => absurd listed List.not_mem_nil, fun n _ => rfl⟩
  | @cons table table' n mode l rest answer _ ih =>
    rw [List.map_cons, List.nodup_cons] at nodup
    have later := ih nodup.2
    have apart (m : Nat) (mode' : LockMode) (listed : (m, mode') ∈ rest) : m ≠ n := by
      rintro rfl
      exact nodup.1 (List.mem_map.mpr ⟨_, listed, rfl⟩)
    refine ⟨fun m mode' listed => ?_, fun m absent => ?_⟩
    · rcases List.mem_cons.mp listed with same | listed
      · obtain ⟨rfl, rfl⟩ := Prod.mk.inj same
        rw [answer, later.others m fun mode' listed => apart m mode' listed rfl, get_set,
          if_pos rfl]
      · rw [← later.released m mode' listed, get_set, if_neg (apart m mode' listed)]
    · have other : m ≠ n := by
        rintro rfl
        exact absent mode List.mem_cons_self
      rw [later.others m fun mode' listed => absent mode' (List.mem_cons_of_mem _ listed),
        get_set, if_neg other]

theorem ReleasedInTurn.of_reverse (turn : table.ReleasedInTurn given.reverse table')
    (nodup : (given.map Prod.fst).Nodup) : table.Released given table' := by
  have reversed : (given.reverse.map Prod.fst).Nodup := by
    rw [List.map_reverse]
    exact List.nodup_reverse.mpr nodup
  exact (turn.released reversed).of_reverse

theorem releaseAll_released (nodup : (given.map Prod.fst).Nodup)
    (all : (table.releaseAll given).1 = none) :
    table.Released given (table.releaseAll given).2 :=
  (releaseAll_in_turn all).released nodup

end LockTable

namespace Catalog

variable {c : Catalog} {calls : Calls} {call : Call} {strict : Prop} {p : Path} {mode : LockMode}
  {n i : Nat} {taken : List (NodeId × LockMode)} {hold : Hold} {ticket : Ticket}
  {a : Acquisition} {result : LockProgress × LockTable} {waits : Waits}
  {held : List (NodeId × LockMode)}

/-! ## Giving up what was taken -/

theorem giveUp_in_turn (done : (c.giveUp taken).1 = .ok ()) :
    ∃ locks, c.giveUp taken = (.ok (), { c with locks }) ∧
      c.locks.ReleasedInTurn taken.reverse locks := by
  unfold giveUp at done ⊢
  cases outcome : c.locks.releaseAll taken.reverse with
  | mk missing locks =>
    rw [outcome] at done
    cases missing with
    | some => cases done
    | none =>
      have all : (c.locks.releaseAll taken.reverse).1 = none := congrArg Prod.fst outcome
      have turn := LockTable.releaseAll_in_turn all
      rw [outcome] at turn
      exact ⟨locks, rfl, turn⟩

theorem giveUp_released (nodup : (taken.map Prod.fst).Nodup) (done : (c.giveUp taken).1 = .ok ()) :
    ∃ locks, c.giveUp taken = (.ok (), { c with locks }) ∧ c.locks.Released taken locks := by
  obtain ⟨locks, gives, turn⟩ := giveUp_in_turn done
  exact ⟨locks, gives, turn.of_reverse nodup⟩

theorem Sound.unlock_exclusive_in_turn (h : c.Sound calls True)
    (first : c.holdToRelease? p = some i) (listed : c.holds[i]? = some call.hold)
    (member : call ∈ calls.granted) (writer : call.acquisition.mode = .exclusive) :
    ∃ locks, c.unlock p .exclusive = (.ok (), { c with locks, holds := c.holds.eraseIdx i }) ∧
      c.locks.ReleasedInTurn call.acquisition.taken.reverse locks := by
  have done := (h.unlock_exclusive first listed member writer).2 trivial
  rw [unlock_exclusive_of_first first listed] at done ⊢
  exact giveUp_in_turn done

theorem Sound.unlock_exclusive_released (h : c.Sound calls True)
    (first : c.holdToRelease? p = some i) (listed : c.holds[i]? = some call.hold)
    (member : call ∈ calls.granted) (writer : call.acquisition.mode = .exclusive) :
    ∃ locks, c.unlock p .exclusive = (.ok (), { c with locks, holds := c.holds.eraseIdx i }) ∧
      c.locks.Released call.acquisition.taken locks := by
  obtain ⟨locks, unlocked, turn⟩ := h.unlock_exclusive_in_turn first listed member writer
  exact ⟨locks, unlocked, turn.of_reverse (h.nodup_taken (List.mem_append_right _ member))⟩

/-! ## Whose lock it is -/

def holder? (c : Catalog) (calls : Calls) (p : Path) : LockMode → Option Call
  | .shared =>
    calls.granted.find? fun call =>
      call.acquisition.mode = .shared ∧ c.tree.find? p = some call.acquisition.target
  | .exclusive =>
    ((c.holdToRelease? p).bind (c.holds[·]?)).bind fun hold =>
      calls.granted.find? fun call => call.acquisition.mode = .exclusive ∧ call.hold = hold

def callsAfter (c : Catalog) (calls : Calls) (p : Path) (mode : LockMode) : Calls :=
  match c.holder? calls p mode with
  | some call => calls.close call.ticket
  | none => calls

theorem waiting_callsAfter (c : Catalog) (calls : Calls) (p : Path) (mode : LockMode) :
    (c.callsAfter calls p mode).waiting = calls.waiting := by
  unfold callsAfter
  split <;> rfl

theorem granted_callsAfter (c : Catalog) (calls : Calls) (p : Path) (mode : LockMode) :
    (c.callsAfter calls p mode).granted ⊆ calls.granted := by
  unfold callsAfter
  split
  · exact List.filter_sublist.subset
  · exact List.Subset.refl _

theorem holder?_shared (found : c.holder? calls p .shared = some call) :
    call ∈ calls.granted ∧ call.acquisition.mode = .shared ∧
      c.tree.find? p = some call.acquisition.target := by
  have chosen := List.find?_some found
  rw [decide_eq_true_eq] at chosen
  exact ⟨List.mem_of_find?_eq_some found, chosen⟩

theorem holder?_exclusive (found : c.holder? calls p .exclusive = some call) :
    call ∈ calls.granted ∧ call.acquisition.mode = .exclusive ∧
      ∃ i, c.holdToRelease? p = some i ∧ c.holds[i]? = some call.hold := by
  obtain ⟨hold, place, found⟩ := Option.bind_eq_some_iff.mp found
  obtain ⟨i, first, listed⟩ := Option.bind_eq_some_iff.mp place
  have chosen := List.find?_some found
  rw [decide_eq_true_eq] at chosen
  obtain ⟨writer, rfl⟩ := chosen
  exact ⟨List.mem_of_find?_eq_some found, writer, i, first, listed⟩

theorem exists_holder_shared (member : call ∈ calls.granted)
    (reader : call.acquisition.mode = .shared)
    (found : c.tree.find? p = some call.acquisition.target) :
    ∃ holder, c.holder? calls p .shared = some holder :=
  Option.isSome_iff_exists.mp
    (List.find?_isSome.mpr ⟨call, member, decide_eq_true ⟨reader, found⟩⟩)

theorem exists_holder_exclusive (h : calls.Regular c.tree c.holds)
    (recorded : ∃ hold ∈ c.holds, hold.path = p) :
    ∃ holder, c.holder? calls p .exclusive = some holder := by
  obtain ⟨i, first⟩ := Option.isSome_iff_exists.mp (holdToRelease?_isSome.mpr recorded)
  obtain ⟨hold, listed, -, -⟩ := holdToRelease?_eq_some first
  obtain ⟨call, member, writer, same⟩ := h.holder (List.mem_of_getElem? listed)
  rw [holder?, first, Option.bind_some, listed, Option.bind_some]
  exact Option.isSome_iff_exists.mp
    (List.find?_isSome.mpr ⟨call, member, decide_eq_true ⟨writer, same⟩⟩)

/-! ## Whether an unlock succeeds -/

def Refuses (c : Catalog) (p : Path) (mode : LockMode) : Prop :=
  c.unlock p mode =
    (.error (if c.tree.contains p then .notLocked p mode.text else .notFound p), c)

theorem unlock_reader (found : c.tree.find? p = some n) (read : 0 < (c.locks.get n).shared) :
    ∃ locks, c.unlock p .shared = (.ok (), { c with locks }) ∧
      c.locks.Released [(n, .shared)] locks := by
  rw [unlock_shared_of_found found]
  refine giveUp_released (by simp) (giveUp_eq_ok ?_)
  simp [LockTable.releaseAll, Lock.release, read]

theorem unlock_unread (wf : c.tree.WellFormed) (found : c.tree.find? p = some n)
    (unread : (c.locks.get n).shared = 0) :
    c.unlock p .shared = (.error (.notLocked p LockMode.shared.text), c) := by
  have path := ((Tree.find?_eq_some_iff wf).mp found).2
  rw [unlock_shared_of_found found]
  simp [giveUp, LockTable.releaseAll, Lock.release, unread, path]

theorem refuses_unread (wf : c.tree.WellFormed)
    (unread : ∀ n, c.tree.find? p = some n → (c.locks.get n).shared = 0) :
    c.Refuses p .shared := by
  unfold Refuses Tree.contains
  cases found : c.tree.find? p with
  | none =>
    rw [Catalog.unlock, Tree.get, found]
    rfl
  | some n => exact unlock_unread wf found (unread n found)

theorem refuses_unrecorded (absent : ∀ hold ∈ c.holds, hold.path ≠ p) :
    c.Refuses p .exclusive := by
  have first : c.holdToRelease? p = none := by
    by_contra there
    obtain ⟨hold, kept, path⟩ :=
      holdToRelease?_isSome.mp (Option.isSome_iff_ne_none.mpr there)
    exact absent hold kept path
  unfold Refuses Catalog.unlock Tree.get Tree.contains
  rw [first, Option.bind_none]
  cases c.tree.find? p <;> rfl

/-! ## Any unlock -/

theorem Sound.giveUp_stray (h : c.Sound calls strict) (loose : ¬ strict) (n : Nat) :
    (c.giveUp [(n, .shared)]).2.Sound calls strict := by
  refine ⟨?_, ?_, ?_⟩
  · rw [tree_giveUp]
    exact h.tree
  · rw [tree_giveUp, holds_giveUp]
    exact h.regular
  · rw [locks_giveUp, List.reverse_singleton, LockTable.releaseAll]
    cases answer : (c.locks.get n).release .shared with
    | some l => exact h.balanced.release_stray loose answer
    | none => exact h.balanced

/-- An unlock keeps the catalog sound, whoever makes it. If the ledger is strict, no shared lock may
be unlocked that nobody has on the node at the path. -/
theorem Sound.unlock_any (h : c.Sound calls strict) (p : Path) (mode : LockMode)
    (owned : strict → mode = .shared → ∃ call ∈ calls.granted, call.acquisition.mode = .shared ∧
      c.tree.find? p = some call.acquisition.target) :
    (c.unlock p mode).2.Sound (c.callsAfter calls p mode) strict := by
  unfold callsAfter
  cases mode with
  | shared =>
    cases holder : c.holder? calls p .shared with
    | some call =>
      obtain ⟨member, reader, found⟩ := holder?_shared holder
      exact (h.unlock_shared member reader found).1
    | none =>
      have loose : ¬ strict := fun exactly => by
        obtain ⟨call, member, reader, found⟩ := owned exactly rfl
        obtain ⟨other, there⟩ := exists_holder_shared member reader found
        rw [holder] at there
        cases there
      cases found : c.tree.find? p with
      | none =>
        rw [Catalog.unlock, Tree.get, found]
        exact h
      | some n =>
        rw [unlock_shared_of_found found]
        exact h.giveUp_stray loose n
  | exclusive =>
    cases holder : c.holder? calls p .exclusive with
    | some call =>
      obtain ⟨member, writer, i, first, listed⟩ := holder?_exclusive holder
      exact (h.unlock_exclusive first listed member writer).1
    | none =>
      have refused : c.Refuses p .exclusive := refuses_unrecorded fun hold kept path => by
        obtain ⟨other, found⟩ := exists_holder_exclusive h.regular ⟨hold, kept, path⟩
        rw [holder] at found
        cases found
      rw [refused]
      exact h

/-! ## Records of exclusive locks -/

def written (p : Path) (mode : LockMode) : LockAnswer → List Path
  | .granted _ => match mode with
    | .shared => []
    | .exclusive => [p]
  | .waiting _ | .failed _ => []

def recorded (c : Catalog) (p : Path) : Nat := (c.holds.map (·.path)).count p

theorem recorded_conclude (goes : LockTable.Goes c.tree ticket waits held strict a result) :
    (c.conclude result).2.recorded p =
      c.recorded p + (written a.path a.mode (c.conclude result).1).count p := by
  cases goes with
  | @granted b table reached =>
    obtain ⟨path, mode, -⟩ := reached.same
    rw [← path, ← mode]
    cases mode : b.mode <;> simp [conclude, written, recorded, mode]
  | waiting => rfl
  | interrupted => rfl

theorem Sound.recorded_lock (h : c.Sound calls strict) (q : Path) (mode : LockMode)
    (fresh : ticket ∉ calls.tickets) :
    (c.lock q mode ticket).2.recorded p =
      c.recorded p + (written q mode (c.lock q mode ticket).1).count p := by
  cases found : c.tree.find? q with
  | none =>
    rw [Catalog.lock, Tree.get, found]
    rfl
  | some n =>
    rw [lock_of_found found]
    exact recorded_conclude (h.start_goes q mode fresh)

theorem Sound.recorded_resume (h : c.Sound calls strict) (member : call ∈ calls.waiting) :
    (c.resume call.acquisition call.ticket).2.recorded p =
      c.recorded p + (written call.acquisition.path call.acquisition.mode
        (c.resume call.acquisition call.ticket).1).count p :=
  recorded_conclude (h.resume_goes member)

theorem recorded_unlock_shared (c : Catalog) (p q : Path) :
    (c.unlock q .shared).2.recorded p = c.recorded p := by
  unfold Catalog.unlock
  cases c.tree.get q with
  | error => rfl
  | ok n => rw [recorded, holds_giveUp, recorded]

theorem recorded_eraseIdx (listed : c.holds[i]? = some hold) :
    c.recorded p =
      ((c.holds.eraseIdx i).map (·.path)).count p + if hold.path = p then 1 else 0 := by
  obtain ⟨bound, rfl⟩ := List.getElem?_eq_some_iff.mp listed
  have perm := (List.getElem_cons_eraseIdx_perm bound).map (·.path)
  rw [recorded, ← perm.count_eq p, List.map_cons, List.count_cons]
  simp only [beq_iff_eq]

/-- An unlock gives up all that one of the records of the path has taken, and nothing else. The
record of the node that stands at the path is the last to go. -/
structure GivesUp (c : Catalog) (p : Path) (i : Nat) (hold : Hold) (locks : LockTable) : Prop where
  listed : c.holds[i]? = some hold
  path : hold.path = p
  unlock : c.unlock p .exclusive = (.ok (), { c with locks, holds := c.holds.eraseIdx i })
  released : c.locks.Released hold.taken locks
  last : c.tree.find? p = some hold.target → ∀ other ∈ c.holds.eraseIdx i, other.path ≠ p

theorem Sound.target_of_recorded (h : c.Sound calls strict) (kept : hold ∈ c.holds) :
    (hold.target, .exclusive) ∈ hold.taken ∧ (c.tree.node hold.target).path = hold.path := by
  obtain ⟨call, member, writer, rfl⟩ := h.regular.holder kept
  exact ⟨h.taken_target member writer,
    (h.regular.course call (List.mem_append_right _ member)).path⟩

theorem Sound.exclusive_of_recorded (h : c.Sound calls strict) (kept : hold ∈ c.holds) :
    (c.locks.get hold.target).exclusive = 1 := by
  obtain ⟨call, member, writer, rfl⟩ := h.regular.holder kept
  have held : 0 < (c.locks.get call.acquisition.target).exclusive :=
    count_pos h (.inr rfl) (List.mem_append_right _ member) (h.taken_target member writer)
  have single := (h.balanced call.acquisition.target).single
  simp only [Call.hold]
  omega

theorem Sound.targets_apart (h : c.Sound calls strict) : (c.holds.map (·.target)).Nodup := by
  have writers : (calls.granted.filter (·.acquisition.mode = .exclusive)).Nodup :=
    (h.regular.nodup_granted.of_map _).filter _
  have perm := h.regular.holds.map (·.target)
  rw [perm.nodup_iff, Calls.holds, List.map_map]
  refine List.Nodup.map_on (fun call member call' member' same => ?_) writers
  rw [List.mem_filter, decide_eq_true_eq] at member member'
  have taken := h.taken_target member.1 member.2
  have taken' := h.taken_target member'.1 member'.2
  have same : call.acquisition.target = call'.acquisition.target := same
  rw [← same] at taken'
  exact h.eq_of_exclusive (List.mem_append_right _ member.1) (List.mem_append_right _ member'.1)
    taken taken'

theorem Sound.gives_up (h : c.Sound calls True) (some_record : 0 < c.recorded p) :
    ∃ i hold locks, c.GivesUp p i hold locks := by
  obtain ⟨other, kept, path⟩ := List.mem_map.mp (List.count_pos_iff.mp some_record)
  obtain ⟨call, found⟩ := exists_holder_exclusive h.regular ⟨other, kept, path⟩
  obtain ⟨member, writer, i, first, listed⟩ := holder?_exclusive found
  obtain ⟨hold, listed', path, last⟩ := holdToRelease?_eq_some first
  obtain rfl : call.hold = hold := Option.some.inj (listed.symm.trans listed')
  obtain ⟨locks, unlock, released⟩ := h.unlock_exclusive_released first listed member writer
  refine ⟨i, call.hold, locks, listed, path, unlock, released, fun here next kept same => ?_⟩
  have target := last here next (List.mem_of_mem_eraseIdx kept) same
  obtain ⟨bound, chosen⟩ := List.getElem?_eq_some_iff.mp listed
  have nodup := h.targets_apart
  rw [← ((List.getElem_cons_eraseIdx_perm bound).map (·.target)).nodup_iff, List.map_cons,
    List.nodup_cons, chosen] at nodup
  exact nodup.1 (target ▸ List.mem_map_of_mem kept)

end Catalog

end DistFs
