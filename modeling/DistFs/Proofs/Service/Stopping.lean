import DistFs.Proofs.Locking.Accounts
import DistFs.Proofs.Locking.Closing
import DistFs.Proofs.Service.Requests

namespace DistFs

namespace Service

variable {s s' t : Service} {call : Call} {config : NamingConfig} {strict : Prop} {n : Nat}

def stop (s : Service) : Service := s.setCluster s.cluster.stop

inductive Wakes : Service → Service → Prop
  | resume (s : Service) {call : Call} (member : call ∈ s.calls.waiting)
      (woken : s.cluster.catalog.isWoken call.acquisition call.ticket = true) :
      Wakes s (s.resume call)

def Quiet (s : Service) : Prop :=
  ∀ call ∈ s.calls.waiting, s.cluster.catalog.isWoken call.acquisition call.ticket = false

theorem Wakes.inOrder (wakes : Wakes s s') (h : s.InOrder strict) : s'.InOrder strict := by
  cases wakes with
  | resume member woken => exact h.resume member

/-! ## Woken requests come to an end -/

/-- Bounds how often the waiting requests can still be woken. -/
def effort (s : Service) : Nat :=
  s.tree.weight (s.calls.waiting.flatMap (·.acquisition.pending.map Prod.fst))

theorem waiting_resume (s : Service) (call : Call) :
    (s.resume call).calls.waiting = (s.calls.leave call.ticket).waiting ++
      match (s.cluster.catalog.resume call.acquisition call.ticket).1 with
      | .waiting a => [⟨call.ticket, a⟩]
      | .granted _ | .failed _ => [] := by
  have noted : (s.resume call).calls.waiting =
      ((s.calls.leave call.ticket).note call.ticket call.acquisition.path call.acquisition.mode
        (s.cluster.catalog.resume call.acquisition call.ticket).2
        (s.cluster.catalog.resume call.acquisition call.ticket).1).waiting :=
    Cluster.waiting_callsThen ..
  rw [noted]
  cases (s.cluster.catalog.resume call.acquisition call.ticket).1 with
  | granted target => exact (List.append_nil _).symm
  | waiting a => rfl
  | failed e => exact (List.append_nil _).symm

theorem Wakes.effort_lt (wakes : Wakes s s') (h : s.InOrder strict) : s'.effort < s.effort := by
  cases wakes with
  | @resume call member woken =>
    have size : (s.resume call).tree.size = s.tree.size :=
      h.tidy.size_conclude _ _ (Catalog.tree_resume ..)
    have perm := Calls.perm_cons_filter h.sound.regular.nodup_waiting member
    have before := s.tree.weight_perm (perm.flatMap_right (·.acquisition.pending.map Prod.fst))
    have positive := Acquisition.effort_pos s.tree (h.sound.regular.waiting call member)
    rw [List.flatMap_cons, Tree.weight_append] at before
    rw [effort, effort, Tree.weight_congr size, waiting_resume, List.flatMap_append,
      Tree.weight_append, before]
    change _ < call.acquisition.effort s.tree + s.tree.weight
      ((s.calls.leave call.ticket).waiting.flatMap (·.acquisition.pending.map Prod.fst))
    rw [Nat.add_comm]
    refine Nat.add_lt_add_right ?_ _
    cases answer : (s.cluster.catalog.resume call.acquisition call.ticket).1 with
    | waiting b =>
      have less := Catalog.resume_effort_lt woken answer
      rw [List.flatMap_singleton]
      exact less
    | granted target => exact positive
    | failed e => exact positive

theorem exists_quiet (h : s.InOrder strict) :
    ∃ t, Relation.ReflTransGen Wakes s t ∧ t.Quiet := by
  induction effort : s.effort using Nat.strongRecOn generalizing s with
  | _ k ih =>
    by_cases quiet : s.Quiet
    · exact ⟨s, .refl, quiet⟩
    · unfold Quiet at quiet
      push Not at quiet
      obtain ⟨call, member, woken⟩ := quiet
      have wakes : Wakes s (s.resume call) := .resume s member (by simpa using woken)
      obtain ⟨t, later, quiet⟩ := ih _ (effort ▸ wakes.effort_lt h) (wakes.inOrder h) rfl
      exact ⟨t, .head wakes later, quiet⟩

/-! ## After the stop -/

def Closed (s : Service) (t : Tree) : Prop :=
  ∀ n, t.Attached n → (s.cluster.catalog.locks.get n).Shut

theorem closed_stop (h : s.InOrder strict) : s.stop.Closed s.tree := by
  intro n attached
  change (s.cluster.stop.catalog.locks.get n).Shut
  rw [Cluster.catalog_stop, (Catalog.get_interrupt h.sound.tree n).1 attached]
  exact Lock.shut_close _

theorem Wakes.closed {u : Tree} (wakes : Wakes s s') (closed : s.Closed u) : s'.Closed u := by
  cases wakes with
  | @resume call member woken =>
    intro n attached
    have new := s.cluster.catalog.locks.newOutside_everywhere
    have resumed := Catalog.changed_resume new (.anywhere call.acquisition _) call.ticket
    change ((s.cluster.conclude _ _ _).2.catalog.locks.get n).Shut
    refine LockTable.Changed.shut (resumed.trans ?_) (closed n attached)
    exact Cluster.changed_conclude (resumed.newOutside new)

theorem wakes_closed {u : Tree} (wakes : Relation.ReflTransGen Wakes s t) (h : s.InOrder strict)
    (closed : s.Closed u) : t.InOrder strict ∧ t.Closed u := by
  induction wakes with
  | refl => exact ⟨h, closed⟩
  | tail _ wakes ih => exact ⟨wakes.inOrder ih.1, wakes.closed ih.2⟩

theorem Quiet.removed {u : Tree} (quiet : s.Quiet) (h : s.InOrder strict) (closed : s.Closed u)
    (member : call ∈ s.calls.waiting) :
    ∃ n mode, call.acquisition.pending.head? = some (n, mode) ∧ ¬ u.Attached n := by
  have asleep := quiet call member
  unfold Catalog.isWoken at asleep
  cases pending : call.acquisition.pending with
  | nil => exact absurd pending (h.sound.regular.waiting call member)
  | cons next rest =>
    obtain ⟨n, mode⟩ := next
    refine ⟨n, mode, rfl, fun attached => ?_⟩
    have woken := ((closed n attached).notice call.ticket).1
    simp [pending, woken] at asleep

/-- Stopping closes the locks of the nodes in the tree and no others. However the woken requests go
on, they come to an end, and who waits then waits for a node that had been removed. Who has failed
has no place in a line and owns nothing, and the locks count no more than the owners. -/
theorem stop_interrupts_tree (h : Requested config strict s) :
    (∀ n, (s.tree.Attached n → s.stop.cluster.catalog.locks.get n =
          (s.cluster.catalog.locks.get n).close) ∧
        (¬ s.tree.Attached n → s.stop.cluster.catalog.locks.get n =
          s.cluster.catalog.locks.get n)) ∧
    (∃ t, Relation.ReflTransGen Wakes s.stop t ∧ t.Quiet) ∧
    ∀ t, Relation.ReflTransGen Wakes s.stop t → t.Quiet →
      (∀ call ∈ t.calls.waiting, ∃ n mode,
        call.acquisition.pending.head? = some (n, mode) ∧ ¬ s.tree.Attached n) ∧
      (∀ ticket ∈ t.calls.failed, (∀ call ∈ t.calls.current, call.ticket ≠ ticket) ∧
        ∀ n : NodeId, ticket ∉ (t.cluster.catalog.locks.get n).granted ∧
          ∀ w ∈ (t.cluster.catalog.locks.get n).queue, w.ticket ≠ ticket) ∧
      ∀ n mode, Tally strict ((t.cluster.catalog.locks.get n).count mode)
        (t.calls.current.countP fun call => t.traffic.Owns call n mode) := by
  have before := h.inOrder
  have stopped : s.stop.InOrder strict := before.stop
  refine ⟨fun n => ?_, exists_quiet stopped, fun t wakes quiet => ?_⟩
  · have closing := Catalog.get_interrupt before.sound.tree n
    rw [← Cluster.catalog_stop] at closing
    exact closing
  · obtain ⟨after, closed⟩ := wakes_closed wakes stopped (closed_stop before)
    have sound : t.traffic.Sound strict := after.sound
    refine ⟨fun call member => quiet.removed after closed member, fun ticket failed => ?_,
      fun n mode => ?_⟩
    · exact sound.failed_absent failed
    · exact sound.count_owners n mode

def outwaited : Service :=
  (start {} {}).run
    [.createDirectory .sole, .lock .sole .exclusive 0, .lock .sole .exclusive 1, .delete .sole]

theorem outwaited_outlasts_stop :
    outwaited.stop.Quiet ∧ outwaited.stop.calls.waiting.map (·.ticket) = [1] ∧
      ∀ call ∈ outwaited.stop.calls.waiting, ∃ n mode,
        call.acquisition.pending.head? = some (n, mode) ∧ ¬ outwaited.tree.Attached n := by
  have requested : Requested {} False outwaited := Reached.run (.start {}) (by decide +kernel)
  have quiet : outwaited.stop.Quiet := by
    unfold Quiet
    decide +kernel
  exact ⟨quiet, by decide +kernel,
    ((stop_interrupts_tree requested).2.2 outwaited.stop .refl quiet).1⟩

end Service

end DistFs
