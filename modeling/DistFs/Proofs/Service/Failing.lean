import DistFs.Proofs.Locking.Accounts
import DistFs.Proofs.Service.Requests
import DistFs.Proofs.Service.Writers
/-!
# What a failed lock leaves behind

A request for a lock fails if there is nothing at the path, if it is sent away on the way, or if the
other copies of a file cannot be given up after the lock was granted. In the last case the path is
unlocked again, like by anyone else. So if the path has a record of an older lock, on a node that
was removed, that lock is given up instead, and the one of the failed request stays.
-/

namespace DistFs

namespace Catalog

variable {c : Catalog} {calls : Calls} {call : Call} {strict : Prop} {p : Path} {i : Nat}
  {older : List Hold} {own : Hold} {e : Error} {mode : LockMode} {ticket : Ticket} {a : Acquisition}
  {result : LockProgress × LockTable} {waits : Waits} {held : List (NodeId × LockMode)}
  {target : NodeId}

/-- A lock of the path is recorded for a node that does not stand there any more. -/
def Overtaken (c : Catalog) (p : Path) : Prop :=
  ∃ hold ∈ c.holds, hold.path = p ∧ c.tree.find? p ≠ some hold.target

instance (c : Catalog) (p : Path) : Decidable (c.Overtaken p) :=
  inferInstanceAs (Decidable (∃ hold ∈ c.holds, _))

/-! ## Which record is given up -/

theorem Sound.latest_apart (h : c.Sound calls strict) (last : c.holds = older ++ [own]) :
    ∀ hold ∈ older, hold.target ≠ own.target := by
  have nodup := h.targets_apart
  rw [last, List.map_append, List.nodup_append'] at nodup
  intro hold member same
  exact nodup.2.2 (List.mem_map_of_mem member) (by simp [same])

theorem Sound.holdToRelease?_latest (h : c.Sound calls strict) (last : c.holds = older ++ [own])
    (path : own.path = p)
    (current : ∀ hold ∈ older, hold.path = p → c.tree.find? p = some hold.target) :
    c.holdToRelease? p = some older.length := by
  have standing : older.findIdx? (fun hold => hold.path = p ∧
      c.tree.find? p ≠ some hold.target) = none := by
    refine List.findIdx?_eq_none_iff.mpr fun hold member => ?_
    simpa using current hold member
  unfold holdToRelease?
  rw [last, List.findIdx?_append, standing, Option.none_or]
  by_cases here : c.tree.find? p = some own.target
  · -- No record names the node that the latest one names, so no older one has its path.
    have others : older.findIdx? (fun hold => hold.path = p) = none := by
      refine List.findIdx?_eq_none_iff.mpr fun hold member => decide_eq_false fun same => ?_
      have target := Option.some.inj ((current hold member same).symm.trans here)
      exact h.latest_apart last hold member target
    simp [List.findIdx?_append, others, here, path]
  · simp [here, path]

theorem holdToRelease?_overtaken (last : c.holds = older ++ [own])
    (overtaken : ∃ hold ∈ older, hold.path = p ∧ c.tree.find? p ≠ some hold.target) :
    ∃ i hold, c.holdToRelease? p = some i ∧ older[i]? = some hold ∧
      (hold.path = p ∧ c.tree.find? p ≠ some hold.target) ∧
      ∀ j < i, ∀ before, older[j]? = some before →
        ¬ (before.path = p ∧ c.tree.find? p ≠ some before.target) := by
  obtain ⟨old, member, stale⟩ := overtaken
  have there : (older.findIdx? fun hold => hold.path = p ∧
      c.tree.find? p ≠ some hold.target).isSome = true :=
    List.findIdx?_isSome.trans (List.any_eq_true.mpr ⟨old, member, decide_eq_true stale⟩)
  obtain ⟨i, first⟩ := Option.isSome_iff_exists.mp there
  obtain ⟨bound, stale, before⟩ := List.findIdx?_eq_some_iff_getElem.mp first
  rw [decide_eq_true_eq] at stale
  refine ⟨i, older[i], ?_, List.getElem?_eq_getElem bound, stale, fun j earlier hold listed => ?_⟩
  · rw [holdToRelease?, last, List.findIdx?_append, first]
    rfl
  · obtain ⟨-, rfl⟩ := List.getElem?_eq_some_iff.mp listed
    simpa using before j earlier

theorem Sound.unlock_first (h : c.Sound calls strict) (first : c.holdToRelease? p = some i)
    (listed : c.holds[i]? = some call.hold) (member : call ∈ calls.granted)
    (writer : call.acquisition.mode = .exclusive) :
    c.callsAfter calls p .exclusive = calls.close call.ticket ∧
      (c.unlock p .exclusive).2.holds = c.holds.eraseIdx i := by
  constructor
  · obtain ⟨hold, listed', path, -⟩ := holdToRelease?_eq_some first
    obtain ⟨other, found⟩ := exists_holder_exclusive h.regular
      ⟨hold, List.mem_of_getElem? listed', path⟩
    obtain ⟨member', writer', j, first', same⟩ := holder?_exclusive found
    obtain rfl : i = j := Option.some.inj (first.symm.trans first')
    have same : other.hold = call.hold := Option.some.inj (same.symm.trans listed)
    have taken := h.taken_target member' writer'
    rw [show other.acquisition.target = call.acquisition.target from congrArg Hold.target same]
      at taken
    obtain rfl : other = call := h.eq_of_exclusive (List.mem_append_right _ member')
      (List.mem_append_right _ member) taken (h.taken_target member writer)
    rw [callsAfter, found]
  · rw [unlock_exclusive_of_first first listed, holds_giveUp]

section Latest

variable {noted : Calls} {granted : List Call} {latest : Call}

theorem Sound.unlock_latest (h : c.Sound noted strict) (all : noted.granted = granted ++ [latest])
    (last : c.holds = older ++ [latest.hold]) (path : latest.acquisition.path = p)
    (writer : latest.acquisition.mode = .exclusive)
    (current : ∀ hold ∈ older, hold.path = p → c.tree.find? p = some hold.target) :
    c.callsAfter noted p .exclusive = noted.close latest.ticket ∧
      (c.unlock p .exclusive).2.holds = older := by
  have first := h.holdToRelease?_latest last path current
  have member : latest ∈ noted.granted := all ▸ List.mem_append_right _ List.mem_cons_self
  obtain ⟨closed, holds⟩ := h.unlock_first first (by simp [last]) member writer
  rw [last, List.eraseIdx_append_of_length_le (Nat.le_refl _), Nat.sub_self] at holds
  exact ⟨closed, holds.trans (List.append_nil _)⟩

theorem Sound.unlock_overtaken (h : c.Sound noted strict)
    (all : noted.granted = granted ++ [latest]) (last : c.holds = older ++ [latest.hold])
    (overtaken : ∃ hold ∈ older, hold.path = p ∧ c.tree.find? p ≠ some hold.target) :
    ∃ call i, call ∈ granted ∧ call.acquisition.mode = .exclusive ∧ older[i]? = some call.hold ∧
      (call.acquisition.path = p ∧ c.tree.find? p ≠ some call.acquisition.target) ∧
      (∀ j < i, ∀ before, older[j]? = some before →
        ¬ (before.path = p ∧ c.tree.find? p ≠ some before.target)) ∧
      c.callsAfter noted p .exclusive = noted.close call.ticket ∧
      (c.unlock p .exclusive).2.holds = older.eraseIdx i ++ [latest.hold] := by
  obtain ⟨i, hold, first, listed, stale, before⟩ := holdToRelease?_overtaken last overtaken
  obtain ⟨bound, -⟩ := List.getElem?_eq_some_iff.mp listed
  have kept : c.holds[i]? = some hold := by rw [last, List.getElem?_append_left bound, listed]
  obtain ⟨call, member, writer, rfl⟩ := h.regular.holder (List.mem_of_getElem? kept)
  obtain ⟨closed, holds⟩ := h.unlock_first first kept member writer
  rw [last, List.eraseIdx_append_of_lt_length bound] at holds
  refine ⟨call, i, ?_, writer, listed, stale, before, closed, holds⟩
  rw [all, List.mem_append, List.mem_singleton] at member
  rcases member with older | rfl
  · exact older
  · exact absurd rfl (h.latest_apart last _ (List.mem_of_getElem? listed))

end Latest

/-! ## Records of requests that fail or are granted -/

theorem holds_conclude_failed (failed : (c.conclude result).1 = .failed e) :
    (c.conclude result).2.holds = c.holds := by
  obtain ⟨progress, locks⟩ := result
  cases progress with
  | granted b => cases failed
  | waiting b => cases failed
  | interrupted b n => rfl

theorem holds_lock_failed (failed : (c.lock p mode ticket).1 = .failed e) :
    (c.lock p mode ticket).2.holds = c.holds := by
  unfold Catalog.lock at failed ⊢
  cases found : c.tree.get p with
  | error => rfl
  | ok n =>
    rw [found] at failed
    exact holds_conclude_failed failed

theorem holds_conclude_granted
    (goes : LockTable.Goes c.tree ticket waits held strict a result) (writer : a.mode = .exclusive)
    (granted : (c.conclude result).1 = .granted target) :
    (c.conclude result).2.holds = c.holds ++
      [⟨a.path, target, ((c.conclude result).2.grantOf a.path a.mode target).taken⟩] := by
  cases goes with
  | waiting => cases granted
  | interrupted => cases granted
  | @granted b table reached =>
    obtain ⟨path, mode, -⟩ := reached.same
    cases granted
    simp [conclude, grantOf, mode, path, writer]

theorem Sound.holds_lock_granted (h : c.Sound calls strict) (fresh : ticket ∉ calls.tickets)
    (granted : (c.lock p .exclusive ticket).1 = .granted target) :
    (c.lock p .exclusive ticket).2.holds = c.holds ++
      [⟨p, target, ((c.lock p .exclusive ticket).2.grantOf p .exclusive target).taken⟩] := by
  cases found : c.tree.find? p with
  | none =>
    rw [Catalog.lock, Tree.get, found] at granted
    cases granted
  | some n =>
    rw [lock_of_found found] at granted ⊢
    exact holds_conclude_granted (h.start_goes p .exclusive fresh) rfl granted

end Catalog

/-! ## What is left of a request -/

namespace Traffic

variable {c : Catalog} {others : Calls} {ticket : Ticket} {strict : Prop} {s : Traffic}

structure LeavesNothing (c : Catalog) (others : Calls) (ticket : Ticket) (strict : Prop)
    (s : Traffic) : Prop where
  waiting : s.calls.waiting = others.waiting
  granted : s.calls.granted = others.granted
  holds : s.catalog.holds = c.holds
  absent : ∀ n : NodeId, ticket ∉ (s.catalog.locks.get n).granted ∧
    ∀ w ∈ (s.catalog.locks.get n).queue, w.ticket ≠ ticket
  counted : ∀ (n : NodeId) (mode : LockMode), Tally (Exact strict mode)
    ((s.catalog.locks.get n).count mode) (others.current.countP fun call => s.Owns call n mode)

/-- The request `own` has failed, but its lock stays in place. The lock of `robbed` is given up
instead, which is the first that is recorded for the path and a node that was removed. -/
structure Swaps (c : Catalog) (others : Calls) (p : Path) (strict : Prop) (s : Traffic)
    (own robbed : Call) (i : Nat) : Prop where
  asked : own.acquisition.path = p ∧ own.acquisition.mode = .exclusive
  older : robbed ∈ others.granted ∧ robbed.acquisition.mode = .exclusive
  record : c.holds[i]? = some robbed.hold
  removed : robbed.acquisition.path = p ∧ c.tree.find? p ≠ some robbed.acquisition.target
  first : ∀ j < i, ∀ hold, c.holds[j]? = some hold →
    ¬ (hold.path = p ∧ c.tree.find? p ≠ some hold.target)
  waiting : s.calls.waiting = others.waiting
  granted : s.calls.granted = (others.close robbed.ticket).granted ++ [own]
  holds : s.catalog.holds = c.holds.eraseIdx i ++ [own.hold]
  held : (s.catalog.locks.get own.acquisition.target).exclusive = 1
  counted : ∀ (n : NodeId) (mode : LockMode), Tally (Exact strict mode)
    ((s.catalog.locks.get n).count mode) (s.calls.current.countP fun call => s.Owns call n mode)

structure Leaves (c : Catalog) (others : Calls) (ticket : Ticket) (p : Path) (strict granted : Prop)
    (s : Traffic) : Prop where
  nothing : ¬ (granted ∧ c.Overtaken p) → s.LeavesNothing c others ticket strict
  swapped : granted → c.Overtaken p → ∃ own robbed i, own.ticket = ticket ∧
    s.Swaps c others p strict own robbed i

theorem Sound.leavesNothing (h : s.Sound strict) (fresh : ticket ∉ others.tickets)
    (waiting : s.calls.waiting = others.waiting) (granted : s.calls.granted = others.granted)
    (holds : s.catalog.holds = c.holds) : s.LeavesNothing c others ticket strict := by
  have current : s.calls.current = others.current := by
    rw [Calls.current, waiting, granted, Calls.current]
  refine ⟨waiting, granted, holds, fun n => ?_, fun n mode => ?_⟩
  · refine h.not_in_lines ?_ n
    rw [waiting]
    exact Calls.not_mem_waiting fresh
  · rw [← current]
    exact h.count_owners_exact n mode

theorem Sound.left_of_unlock {d : Catalog} {own : Call} {p : Path} (h : s.Sound strict)
    (before : d.Sound { others with granted := others.granted ++ [own] } strict)
    (fresh : own.ticket ∉ others.tickets) (path : own.acquisition.path = p)
    (writer : own.acquisition.mode = .exclusive) (last : d.holds = c.holds ++ [own.hold])
    (found : d.tree.find? p = c.tree.find? p) (catalog : s.catalog = (d.unlock p .exclusive).2)
    (calls : s.calls =
      d.callsAfter { others with granted := others.granted ++ [own] } p .exclusive) :
    (¬ c.Overtaken p → s.LeavesNothing c others own.ticket strict) ∧
    (c.Overtaken p → ∃ robbed i, s.Swaps c others p strict own robbed i) := by
  refine ⟨fun current => ?_, fun overtaken => ?_⟩
  · obtain ⟨closed, holds⟩ := before.unlock_latest rfl last path writer fun hold member same => by
      by_contra stale
      exact current ⟨hold, member, same, found ▸ stale⟩
    rw [closed, Calls.close_granted fresh] at calls
    exact h.leavesNothing fresh (by rw [calls]) (by rw [calls]) (by rw [catalog, holds])
  · obtain ⟨hold, member, same, stale⟩ := overtaken
    obtain ⟨robbed, i, older, writer', record, removed, first, closed, holds⟩ :=
      before.unlock_overtaken rfl last ⟨hold, member, same, found.symm ▸ stale⟩
    rw [closed] at calls
    have apart := (Calls.ticket_ne_of_fresh fresh older).symm
    have kept : own.hold ∈ s.catalog.holds := by
      rw [catalog, holds]
      exact List.mem_append_right _ List.mem_cons_self
    rw [found] at removed first
    refine ⟨robbed, i, ⟨path, writer⟩, ⟨older, writer'⟩, record, removed, first, ?_, ?_, ?_,
      Catalog.Sound.exclusive_of_recorded h kept, h.count_owners_exact⟩
    · rw [calls, Calls.close]
    · rw [calls]
      exact Calls.granted_close_other apart
    · rw [catalog, holds]

end Traffic

namespace Cluster

variable {c : Cluster} {calls : Calls} {ticket : Ticket} {p : Path} {mode : LockMode}
  {strict : Prop} {result : LockAnswer × Catalog} {e e' : Error} {target : NodeId}

abbrev after (c : Cluster) (calls : Calls) (ticket : Ticket) (p : Path) (mode : LockMode)
    (result : LockAnswer × Catalog) : Traffic :=
  ⟨(c.conclude p mode result).2.catalog, c.callsThen calls ticket p mode result⟩

theorem leavesNothing_of_refused (tidy : c.Tidy) (same : result.2.tree = c.tree)
    (sound : result.2.Sound (calls.note ticket p mode result.2 result.1) strict)
    (fresh : ticket ∉ calls.tickets) (refused : result.1 = .failed e)
    (holds : result.2.holds = c.catalog.holds) :
    (c.after calls ticket p mode result).LeavesNothing c.catalog calls ticket strict := by
  have sound' : (c.after calls ticket p mode result).Sound strict := sound_conclude tidy same sound
  obtain ⟨answer, catalog⟩ := result
  obtain rfl : answer = .failed e := refused
  exact sound'.leavesNothing fresh rfl rfl holds

theorem find?_conclude (tidy : c.Tidy) (same : result.2.tree = c.tree)
    (granted : result.1 = .granted target) (writer : mode = .exclusive) (q : Path) :
    (c.conclude p mode result).2.tree.find? q = c.tree.find? q := by
  subst writer
  have tree := tree_conclude c p .exclusive same
  rw [granted] at tree
  simp only [treeAfter] at tree
  rw [tree, Tree.consolidate_tree]
  split
  · exact Tree.find?_modify tidy.wellFormed target ⟨rfl, rfl, rfl⟩ rfl q
  · rfl

theorem left_after_grant (tidy : c.Tidy) (same : result.2.tree = c.tree)
    (sound : result.2.Sound (calls.note ticket p mode result.2 result.1) strict)
    (fresh : ticket ∉ calls.tickets) (granted : result.1 = .granted target)
    (failed : (c.conclude p mode result).1 = .failed e)
    (holds : mode = .exclusive → result.2.holds = c.catalog.holds ++
      [⟨p, target, (result.2.grantOf p mode target).taken⟩]) :
    (c.after calls ticket p mode result).Leaves c.catalog calls ticket p strict
      (∃ target, result.1 = .granted target) := by
  have sound' : (c.after calls ticket p mode result).Sound strict := sound_conclude tidy same sound
  have before := sound_granted tidy same sound
  obtain ⟨writer, calls', catalog'⟩ := conclude_undone calls ticket granted failed
  rw [granted] at before calls'
  subst writer
  obtain ⟨nothing, swaps⟩ := sound'.left_of_unlock before fresh rfl rfl (holds rfl)
    (find?_conclude tidy same granted rfl p) catalog' calls'
  refine ⟨fun current => nothing fun overtaken => current ⟨⟨target, granted⟩, overtaken⟩,
    fun _ overtaken => ?_⟩
  obtain ⟨robbed, i, swaps⟩ := swaps overtaken
  exact ⟨_, robbed, i, rfl, swaps⟩

theorem left_of_failed (tidy : c.Tidy) (same : result.2.tree = c.tree)
    (sound : result.2.Sound (calls.note ticket p mode result.2 result.1) strict)
    (fresh : ticket ∉ calls.tickets) (failed : (c.conclude p mode result).1 = .failed e)
    (refused : ∀ e, result.1 = .failed e → result.2.holds = c.catalog.holds)
    (granted : ∀ target, result.1 = .granted target → mode = .exclusive →
      result.2.holds = c.catalog.holds ++ [⟨p, target, (result.2.grantOf p mode target).taken⟩]) :
    (c.after calls ticket p mode result).Leaves c.catalog calls ticket p strict
      (∃ target, result.1 = .granted target) := by
  cases answer : result.1 with
  | granted target =>
    rw [← answer]
    exact left_after_grant tidy same sound fresh answer failed (granted target answer)
  | waiting a =>
    obtain ⟨first, catalog⟩ := result
    obtain rfl : first = .waiting a := answer
    cases failed
  | failed e' =>
    refine ⟨fun _ => ?_, nofun⟩
    exact leavesNothing_of_refused tidy same sound fresh answer (refused e' answer)

end Cluster

namespace Service

variable {s : Service} {config : NamingConfig} {strict : Prop}

/-- A failed request for a lock leaves nothing behind, wherever it fails, and the others have what
they had, unless it fails after the grant and an older lock of the path is on a node that was
removed: then the older lock is given up, and the failed request keeps its own. -/
theorem failed_locks (requested : Requested config strict s) :
    (∀ p mode ticket e, ticket ∉ s.calls.tickets →
      (s.cluster.lock p mode ticket).1 = .failed e →
      (s.lock p mode ticket).traffic.Leaves s.cluster.catalog s.calls ticket p strict
        (s.cluster.naming.stopped = false ∧
          ∃ target, (s.cluster.catalog.lock p mode ticket).1 = .granted target)) ∧
    ∀ call ∈ s.calls.waiting, ∀ e,
      (s.cluster.resume call.acquisition call.ticket).1 = .failed e →
      (s.resume call).traffic.Leaves s.cluster.catalog (s.calls.leave call.ticket) call.ticket
        call.acquisition.path strict
        (∃ target,
          (s.cluster.catalog.resume call.acquisition call.ticket).1 = .granted target) := by
  have h := requested.inOrder
  constructor
  · intro p mode ticket e fresh failed
    have asked : (s.lock p mode ticket).traffic.Sound strict := (h.lock p mode fresh).sound
    unfold Service.lock Cluster.lock at asked ⊢
    unfold Cluster.lock at failed
    cases stopped : s.cluster.naming.stopped with
    | true =>
      rw [stopped] at asked
      refine ⟨fun _ => asked.leavesNothing fresh rfl rfl rfl, fun granted => nomatch granted.1⟩
    | false =>
      rw [stopped] at failed
      have leaves := Cluster.left_of_failed h.tidy (Catalog.tree_lock ..)
        (h.sound.lock p mode fresh) fresh failed (fun _ => Catalog.holds_lock_failed)
        (by rintro target granted rfl; exact h.sound.holds_lock_granted fresh granted)
      simpa using leaves
  · intro call member e failed
    exact Cluster.left_of_failed h.tidy (Catalog.tree_resume ..) (h.sound.resume member)
      (h.sound.regular.not_mem_leave member) failed (fun _ => Catalog.holds_conclude_failed)
      fun target granted writer =>
        Catalog.holds_conclude_granted (h.sound.resume_goes member) writer granted

def pairReread : Service :=
  pairReady.run
    [.lock .sole .exclusive 0, .delete .sole, .createFile .sole, .lock .sole .shared 1,
      .unlock .sole .shared]

def pairOvertaken : Service :=
  pairReread.step (.servers (pairReread.cluster.servers.setMode "t" (some .failing) none))

theorem pairOvertaken_swaps :
    ∃ own robbed i, own.ticket = 2 ∧ (pairOvertaken.lock .sole .exclusive 2).traffic.Swaps
      pairOvertaken.cluster.catalog pairOvertaken.calls .sole True own robbed i := by
  have reread : Requested { replicationThreshold := 1 } True pairReread :=
    requested_pairReady.run (by decide +kernel)
  have requested : Requested { replicationThreshold := 1 } True pairOvertaken := reread.next trivial
  have failed : (pairOvertaken.cluster.lock .sole .exclusive 2).1 =
      .failed (Servers.unreachable (commandEndpoint "t")) := by decide +kernel
  have granted : (pairOvertaken.cluster.catalog.lock .sole .exclusive 2).1 = .granted 2 := by
    decide +kernel
  have leaves := (failed_locks requested).1 .sole .exclusive 2 _ (by decide +kernel) failed
  exact leaves.swapped ⟨by decide +kernel, 2, granted⟩ (by decide +kernel)

end Service

end DistFs
