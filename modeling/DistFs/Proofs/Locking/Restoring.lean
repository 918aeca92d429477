import DistFs.Proofs.Locking.Release
import DistFs.Proofs.Locking.Stalled

namespace DistFs

namespace Lock

variable {l : Lock} {mode : LockMode} {ticket : Ticket}

theorem status_eq_free : l.status = .free ↔ l.exclusive = 0 ∧ l.shared = 0 := by
  unfold status
  split
  next written => simpa using fun unwritten => absurd unwritten (Nat.pos_iff_ne_zero.mp written)
  next unwritten =>
    split
    next read => simpa using fun _ unread => absurd unread (Nat.pos_iff_ne_zero.mp read)
    next unread => simpa using ⟨Nat.eq_zero_of_not_pos unwritten, Nat.eq_zero_of_not_pos unread⟩

theorem admits_of_free (free : l.status = .free) (mode : LockMode) : l.admits mode = true := by
  obtain ⟨unwritten, unread⟩ := status_eq_free.mp free
  exact admits_iff.mpr ⟨unwritten, fun _ => unread⟩

theorem queue_of_free (stalled : l.Stalled) (free : l.status = .free) : l.queue = [] := by
  cases queue : l.queue with
  | nil => rfl
  | cons w rest =>
    have full := stalled w (by rw [queue]; rfl)
    rw [admits_of_free free] at full
    cases full

theorem acquire_of_free (stalled : l.Stalled) (free : l.status = .free) :
    (l.acquire mode ticket).1 ≠ .waiting := by
  have room : (!l.mustQueue mode && l.admits mode) = true := by
    rw [admits_of_free free]
    cases mode <;> simp [mustQueue, queue_of_free stalled free]
  intro waits
  unfold acquire at waits
  rw [if_pos room] at waits
  split at waits <;> cases waits

theorem release_of_free (stalled : l.Stalled) (free : l.status = .free) (mode : LockMode) :
    (l.hold mode).release mode = some l := by
  have empty := queue_of_free stalled free
  cases mode with
  | shared => exact release_hold empty
  | exclusive =>
    obtain ⟨unwritten, -⟩ := status_eq_free.mp free
    obtain ⟨shared, exclusive, queue, granted, closed⟩ := l
    obtain rfl : queue = [] := empty
    obtain rfl : exclusive = 0 := unwritten
    simp [release, hold, dispatch, serve]

end Lock

theorem Acquisition.attached_start {t : Tree} {n : NodeId} (wf : t.WellFormed)
    (attached : t.Attached n) (p : Path) (mode : LockMode) :
    (Acquisition.start t p mode n).Within t t.Attached := by
  have above (m : NodeId) (higher : m ∈ (t.node n).lineage) : t.Attached m :=
    ⟨wf.lineage_known attached.known higher, attached.above m higher,
      fun k member => attached.above k (wf.lineage_trans attached.known m higher k member)⟩
  refine ⟨fun x member => ?_, fun m here k child => ?_⟩
  · unfold Acquisition.start at member
    cases mode with
    | shared =>
      obtain rfl := List.mem_singleton.mp member
      exact attached
    | exclusive =>
      rcases List.mem_append.mp member with higher | last
      · obtain ⟨m, listed, rfl⟩ := List.mem_map.mp higher
        exact above m listed
      · obtain rfl := List.mem_singleton.mp last
        exact attached
  · obtain ⟨known, linked, entry⟩ := (Tree.mem_children wf).mp child
    exact (entry.attached_iff wf known).mpr ⟨linked, here⟩

namespace LockTable

variable {table base : LockTable} {t : Tree} {taken : List (NodeId × LockMode)} {n : NodeId}
  {l : Lock} {mode : LockMode} {ticket : Ticket} {a : Acquisition}

def Idle (table : LockTable) (t : Tree) : Prop :=
  ∀ n, t.Attached n → (table.get n).status = .free

/-! ## Taking and giving up -/

theorem Released.take (given : table.Released taken base) (fresh : ∀ mode, (n, mode) ∉ taken)
    (back : l.release mode = some (base.get n)) :
    (table.set n l).Released (taken ++ [(n, mode)]) base := by
  refine ⟨fun m mode' listed => ?_, fun m absent => ?_⟩
  · rcases List.mem_append.mp listed with before | last
    · have other : m ≠ n := fun same => fresh mode' (same ▸ before)
      rw [get_set, if_neg other]
      exact given.released m mode' before
    · obtain ⟨rfl, rfl⟩ := Prod.mk.inj (List.mem_singleton.mp last)
      rw [get_set, if_pos rfl]
      exact back
  · have other : m ≠ n := fun same => absent mode (by simp [same])
    rw [get_set, if_neg other]
    exact given.others m fun mode' before => absent mode' (List.mem_append_left _ before)

theorem Released.unique {table' : LockTable} (given : table.Released taken base)
    (given' : table.Released taken table') (n : NodeId) : table'.get n = base.get n := by
  by_cases listed : ∃ mode, (n, mode) ∈ taken
  · obtain ⟨mode, listed⟩ := listed
    exact Option.some.inj
      ((given'.released n mode listed).symm.trans (given.released n mode listed))
  · have absent (mode : LockMode) : (n, mode) ∉ taken := fun here => listed ⟨mode, here⟩
    rw [given.others n absent, given'.others n absent]

theorem releaseAll_eq_none (nodup : (taken.map Prod.fst).Nodup)
    (held : ∀ n mode, (n, mode) ∈ taken → ∃ l, (table.get n).release mode = some l) :
    (table.releaseAll taken).1 = none := by
  induction taken generalizing table with
  | nil => rfl
  | cons x rest ih =>
    obtain ⟨n, mode⟩ := x
    rw [List.map_cons, List.nodup_cons] at nodup
    obtain ⟨l, answer⟩ := held n mode List.mem_cons_self
    rw [LockTable.releaseAll, answer]
    refine ih nodup.2 fun m mode' listed => ?_
    have apart : m ≠ n := by
      rintro rfl
      exact nodup.1 (List.mem_map.mpr ⟨_, listed, rfl⟩)
    rw [get_set, if_neg apart]
    exact held m mode' (List.mem_cons_of_mem _ listed)

theorem Released.restores (given : table.Released taken base)
    (nodup : (taken.map Prod.fst).Nodup) : (table.releaseAll taken.reverse).1 = none ∧
      ∀ n, (table.releaseAll taken.reverse).2.get n = base.get n := by
  have reversed : table.Released taken.reverse base :=
    Released.of_reverse (by rwa [List.reverse_reverse])
  have nodup' : (taken.reverse.map Prod.fst).Nodup := by
    rw [List.map_reverse]
    exact List.nodup_reverse.mpr nodup
  have all := releaseAll_eq_none nodup' fun n mode listed => ⟨_, reversed.released n mode listed⟩
  exact ⟨all, reversed.unique (releaseAll_released nodup' all)⟩

/-! ## Going through the tree -/

theorem untaken {rest : List (NodeId × LockMode)} (course : a.OnCourse t)
    (pending : a.pending = (n, mode) :: rest) (mode' : LockMode) : (n, mode') ∉ a.taken := by
  intro taken
  have nodup := course.nodup_nodes
  rw [Acquisition.nodes, pending, List.map_append, List.nodup_append] at nodup
  exact nodup.2.2 n (List.mem_map_of_mem taken) n List.mem_cons_self rfl

theorem Idle.next {rest : List (NodeId × LockMode)} (idle : base.Idle t) (stalled : base.Stalled)
    (course : a.OnCourse t) (within : a.Within t t.Attached)
    (given : table.Released a.taken base) (pending : a.pending = (n, mode) :: rest) :
    base.get n = table.get n ∧ (table.get n).status = .free ∧ (table.get n).Stalled := by
  have same := given.others n (untaken course pending)
  exact ⟨same, same ▸ idle n (within.head pending), same ▸ stalled n⟩

theorem Idle.advance (idle : base.Idle t) (stalled : base.Stalled) (wf : t.WellFormed)
    (ticket : Ticket) (course : a.OnCourse t) (within : a.Within t t.Attached)
    (given : table.Released a.taken base) :
    ∃ b table', a.Reaches t b ∧ table'.Released b.taken base ∧
      (b.pending = [] ∧ table.advance t ticket a = (.granted b, table') ∨
        ∃ n, table.advance t ticket a = (.interrupted b n, table')) := by
  induction table, a using LockTable.advance.induct t ticket with
  | case1 table a done =>
    exact ⟨a, table, .refl, given, .inl ⟨done, advance_of_nil done⟩⟩
  | case2 table a n mode rest pending l answer ih =>
    obtain ⟨same, free, line⟩ := idle.next stalled course within given pending
    obtain ⟨-, -, -, rfl⟩ := Lock.acquire_eq_granted line answer
    have back := (Lock.release_of_free line free mode).trans (congrArg some same.symm)
    obtain ⟨b, table', reached, given', ends⟩ := ih (course.take wf pending)
      (within.take pending) (given.take (untaken course pending) back)
    refine ⟨b, table', .head ⟨n, mode, rest, pending, rfl⟩ reached, given', ?_⟩
    rwa [advance_of_cons pending, answer]
  | case3 table a n mode rest pending l answer =>
    obtain ⟨-, free, line⟩ := idle.next stalled course within given pending
    exact absurd (congrArg Prod.fst answer) (Lock.acquire_of_free line free)
  | case4 table a n mode rest pending l answer =>
    exact ⟨a, table, .refl, given, .inr ⟨n, by rw [advance_of_cons pending, answer]⟩⟩

end LockTable

namespace Catalog

variable {c d : Catalog} {table : LockTable} {taken : List (NodeId × LockMode)} {p : Path}
  {n : NodeId} {mode : LockMode} {ticket : Ticket}

/-- The locks of `c`, and a lock of a path on top of them. -/
inductive Locked (c : Catalog) (p : Path) (n : NodeId) : LockMode → Catalog → Prop
  | reader {t : Tree} {locks : LockTable} (given : locks.Released [(n, .shared)] c.locks) :
      Locked c p n .shared ⟨t, locks, []⟩
  | writer {t : Tree} {locks : LockTable} {taken : List (NodeId × LockMode)}
      (nodup : (taken.map Prod.fst).Nodup) (given : locks.Released taken c.locks) :
      Locked c p n .exclusive ⟨t, locks, [⟨p, n, taken⟩]⟩

theorem Locked.of_tree (locked : c.Locked p n mode d) (t : Tree) :
    c.Locked p n mode { d with tree := t } := by
  cases locked with
  | reader given => exact .reader given
  | writer nodup given => exact .writer nodup given

structure Restored (c d : Catalog) : Prop where
  holds : d.holds = []
  locks : ∀ n, d.locks.get n = c.locks.get n

theorem lock_idle (wf : c.tree.WellFormed) (stalled : c.locks.Stalled) (idle : c.locks.Idle c.tree)
    (unrecorded : c.holds = []) (p : Path) (mode : LockMode) (ticket : Ticket) :
    (∃ e, (c.lock p mode ticket).1 = .failed e ∧ c.Restored (c.lock p mode ticket).2) ∨
    ∃ n, c.tree.find? p = some n ∧ (c.lock p mode ticket).1 = .granted n ∧
      c.Locked p n mode (c.lock p mode ticket).2 := by
  cases found : c.tree.find? p with
  | none =>
    left
    rw [Catalog.lock, Tree.get, found]
    exact ⟨_, rfl, unrecorded, fun _ => rfl⟩
  | some n =>
    obtain ⟨attached, -⟩ := (Tree.find?_eq_some_iff wf).mp found
    have course := Acquisition.onCourse_start wf found mode
    obtain ⟨b, locks, reached, given, ends⟩ := idle.advance stalled wf ticket course
      (Acquisition.attached_start wf attached p mode)
      ⟨fun _ _ listed => absurd listed List.not_mem_nil, fun _ _ => rfl⟩
    have course' := course.reaches wf reached
    have nodup := course'.nodup_nodes
    rw [Acquisition.nodes, List.map_append] at nodup
    rw [lock_of_found found]
    rcases ends with ⟨done, answer⟩ | ⟨m, answer⟩
    · obtain ⟨path', mode', target⟩ := reached.same
      refine .inr ⟨n, rfl, ?_, ?_⟩
      · rw [answer, conclude, target]
        rfl
      · rw [answer, conclude, mode', path', target, unrecorded]
        cases mode with
        | shared =>
          have taken : b.taken = [(n, .shared)] := by
            simpa [Acquisition.nodes, done, target, Acquisition.start] using course'.reader mode'
          exact .reader (taken ▸ given)
        | exclusive => exact .writer nodup.of_append_left given
    · left
      rw [answer]
      exact ⟨_, rfl, unrecorded, (given.restores nodup.of_append_left).2⟩

theorem giveUp_restores (nodup : (taken.map Prod.fst).Nodup)
    (given : c.locks.Released taken table) :
    ∃ locks, c.giveUp taken = (.ok (), { c with locks }) ∧ ∀ n, locks.get n = table.get n := by
  obtain ⟨all, same⟩ := given.restores nodup
  refine ⟨(c.locks.releaseAll taken.reverse).2, ?_, same⟩
  unfold giveUp
  cases outcome : c.locks.releaseAll taken.reverse with
  | mk missing locks =>
    rw [outcome] at all
    obtain rfl : missing = none := all
    rfl

theorem Locked.unlock (locked : c.Locked p n mode d)
    (stands : mode = .shared → d.tree.find? p = some n) :
    ∃ d', d.unlock p mode = (.ok (), d') ∧ d'.tree = d.tree ∧ c.Restored d' := by
  cases locked with
  | @reader t locks given =>
    have nodup : ([(n, LockMode.shared)].map Prod.fst).Nodup := List.nodup_singleton n
    obtain ⟨locks', done, same⟩ := giveUp_restores (c := ⟨t, locks, []⟩) nodup given
    exact ⟨_, (unlock_shared_of_found (stands rfl)).trans done, rfl, rfl, same⟩
  | @writer t locks taken nodup given =>
    -- There is one record, so it is the one to release.
    let d : Catalog := ⟨t, locks, [⟨p, n, taken⟩]⟩
    obtain ⟨i, first⟩ : ∃ i, d.holdToRelease? p = some i := Option.isSome_iff_exists.mp
      (holdToRelease?_isSome.mpr ⟨⟨p, n, taken⟩, List.mem_singleton_self _, rfl⟩)
    obtain ⟨hold, listed, -⟩ := holdToRelease?_eq_some first
    obtain ⟨only, rfl⟩ := List.getElem?_eq_some_iff.mp listed
    obtain rfl : i = 0 := Nat.lt_one_iff.mp only
    obtain ⟨locks', done, same⟩ :=
      giveUp_restores (c := { d with holds := d.holds.eraseIdx 0 }) nodup given
    exact ⟨_, (unlock_exclusive_of_first first listed).trans done, rfl, rfl, same⟩

end Catalog

end DistFs
