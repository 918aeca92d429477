import DistFs.Proofs.Locking.Release
import DistFs.Proofs.Locking.Run
/-!
# Runs in which nodes come and go

Nodes are removed and made again while requests hold and await the locks on them, so that a path may
have several writers, each on a node of its own. Every unlock of the path gives up one of their
locks: those on nodes that have left the tree first, and that on the node at the path at last.
-/

namespace DistFs

def Traffic.unlockAt (s : Traffic) (p : Path) (mode : LockMode) : Traffic :=
  { catalog := (s.catalog.unlock p mode).2, calls := s.catalog.callsAfter s.calls p mode }

structure Churn extends Traffic where
  locked : List Path := []
  unlocked : List Path := []

namespace Churn

variable {s s' : Churn} {call : Call} {threshold : Nat} {strict : Prop} {p : Path} {mode : LockMode}

def start (threshold : Nat) : Churn := { toTraffic := .start threshold }

def lock (s : Churn) (p : Path) (mode : LockMode) (ticket : Ticket) : Churn :=
  { s with
    toTraffic := s.toTraffic.lock p mode ticket
    locked := s.locked ++ Catalog.written p mode (s.catalog.lock p mode ticket).1 }

def resume (s : Churn) (call : Call) : Churn :=
  { s with
    toTraffic := s.toTraffic.resume call
    locked := s.locked ++ Catalog.written call.acquisition.path call.acquisition.mode
      (s.catalog.resume call.acquisition call.ticket).1 }

def unlock (s : Churn) (p : Path) (mode : LockMode) : Churn :=
  { s with
    toTraffic := s.toTraffic.unlockAt p mode
    unlocked := s.unlocked ++ match mode with
      | .shared => []
      | .exclusive => [p] }

def setTree (s : Churn) (tree : Tree) : Churn := { s with toTraffic := s.toTraffic.setTree tree }

def interrupt (s : Churn) : Churn := { s with toTraffic := s.toTraffic.interrupt }

/-- There is a lock for an unlock of the path to give up. A shared one has to be on the node that
stands at the path. -/
def Outstanding (s : Churn) (p : Path) : LockMode → Prop
  | .shared => ∃ call ∈ s.calls.granted, call.acquisition.mode = .shared ∧
      s.catalog.tree.find? p = some call.acquisition.target
  | .exclusive => s.unlocked.count p < s.locked.count p

/-- If the run is strict, nobody unlocks what is not outstanding. -/
inductive Step (strict : Prop) : Churn → Churn → Prop
  | lock (s : Churn) (p : Path) (mode : LockMode) {ticket : Ticket}
      (fresh : ticket ∉ s.calls.tickets) : Step strict s (s.lock p mode ticket)
  | resume (s : Churn) {call : Call} (member : call ∈ s.calls.waiting) :
      Step strict s (s.resume call)
  | unlock (s : Churn) (p : Path) (mode : LockMode) (outstanding : strict → s.Outstanding p mode) :
      Step strict s (s.unlock p mode)
  | add (s : Churn) {p : Path} {kind : NodeKind} {container : Option Container} {n : NodeId}
      {u : Tree} (made : s.catalog.tree.add p kind container = .ok (n, u)) :
      Step strict s (s.setTree u)
  | register (s : Churn) (p : Path) (container : Container) :
      Step strict s (s.setTree (s.catalog.tree.register p container).2)
  | remove (s : Churn) (p : Path) : Step strict s (s.setTree (s.catalog.tree.remove p).2)
  | interrupt (s : Churn) : Step strict s s.interrupt

inductive Reachable (threshold : Nat) (strict : Prop) : Churn → Prop
  | start : Reachable threshold strict (start threshold)
  | next {s s' : Churn} (before : Reachable threshold strict s) (step : Step strict s s') :
      Reachable threshold strict s'

/-! ## Locks stay balanced -/

theorem Step.tree (step : Step strict s s') (wf : s.catalog.tree.WellFormed) :
    s'.catalog.tree.WellFormed ∧ s.catalog.tree.Extends s'.catalog.tree := by
  have kept {u : Tree} (same : u = s.catalog.tree) :
      u.WellFormed ∧ s.catalog.tree.Extends u := by
    rw [same]
    exact ⟨wf, .refl _⟩
  cases step with
  | lock p mode => exact kept (Catalog.tree_lock ..)
  | resume => exact kept (Catalog.tree_resume ..)
  | unlock p mode => exact kept (Catalog.tree_unlock ..)
  | add made =>
    have grown := Tree.add_grown wf made
    exact ⟨grown.wellFormed wf, grown.grows.toExtends⟩
  | register p container =>
    have grown := (Tree.register_grown wf p container).1
    exact ⟨grown.wellFormed (wf.settleRoot container),
      ((Tree.settleRoot_grows _ container).trans grown.grows).toExtends⟩
  | remove p =>
    rcases Tree.remove_cases wf p with ⟨n, -, other, removed⟩ | same
    · change (s.catalog.tree.remove p).2.WellFormed ∧ s.catalog.tree.Extends _
      rw [removed]
      exact ⟨wf.unlink other, Tree.extends_unlink _ n⟩
    · exact kept (congrArg Prod.snd same)
  | interrupt => exact kept rfl

theorem Step.sound (step : Step strict s s') (h : s.Sound strict) : s'.Sound strict := by
  have changed := step.tree h.tree
  cases step with
  | lock p mode fresh => exact Catalog.Sound.lock h p mode fresh
  | resume member => exact Catalog.Sound.resume h member
  | unlock p mode outstanding =>
    refine Catalog.Sound.unlock_any h p mode fun exactly reader => ?_
    subst reader
    exact outstanding exactly
  | add | register | remove => exact Catalog.Sound.of_tree h changed.1 changed.2
  | interrupt => exact Catalog.Sound.interrupt h

theorem Reachable.sound (h : Reachable threshold strict s) : s.Sound strict := by
  induction h with
  | start => exact (Traffic.orderly_start threshold).sound.loosen
  | next _ step ih => exact step.sound ih

/-! ## Records of exclusive locks -/

structure Accounted (s : Churn) : Prop where
  sound : s.Sound True
  records : ∀ p, s.catalog.recorded p + s.unlocked.count p = s.locked.count p

theorem accounted_start (threshold : Nat) : (start threshold).Accounted :=
  ⟨(Traffic.orderly_start threshold).sound, fun _ => rfl⟩

namespace Accounted

theorem outstanding_iff (h : s.Accounted) :
    s.Outstanding p .exclusive ↔ 0 < s.catalog.recorded p := by
  have := h.records p
  simp only [Outstanding]
  omega

theorem unlock (h : s.Accounted) (outstanding : s.Outstanding p mode) (q : Path) :
    (s.unlock p mode).catalog.recorded q + (s.unlock p mode).unlocked.count q =
      s.locked.count q := by
  have before := h.records q
  change (s.catalog.unlock p mode).2.recorded q + _ = _
  cases mode with
  | shared =>
    rw [Catalog.recorded_unlock_shared, Churn.unlock, List.append_nil]
    exact before
  | exclusive =>
    obtain ⟨i, hold, locks, gives⟩ := h.sound.gives_up (h.outstanding_iff.mp outstanding)
    have less := Catalog.recorded_eraseIdx gives.listed (p := q)
    rw [gives.path] at less
    rw [gives.unlock, Churn.unlock, List.count_append, List.count_singleton]
    simp only [Catalog.recorded, beq_iff_eq] at less before ⊢
    omega

theorem step (h : s.Accounted) (step : Step True s s') : s'.Accounted := by
  refine ⟨step.sound h.sound, fun p => ?_⟩
  have before := h.records p
  cases step with
  | lock q mode fresh =>
    have more := h.sound.recorded_lock (p := p) q mode fresh
    simp only [Churn.lock, Traffic.lock, List.count_append] at more ⊢
    omega
  | resume member =>
    have more := h.sound.recorded_resume (p := p) member
    simp only [Churn.resume, Traffic.resume, List.count_append] at more ⊢
    omega
  | unlock q mode outstanding => exact h.unlock (outstanding trivial) p
  | add => exact before
  | register => exact before
  | remove => exact before
  | interrupt => exact before

end Accounted

theorem Reachable.accounted (h : Reachable threshold True s) : s.Accounted := by
  induction h with
  | start => exact accounted_start threshold
  | next _ step ih => exact ih.step step

/-- A path has as many records as exclusive locks that were granted and not unlocked. As long as
there is one, an unlock of the path succeeds and gives up what one record has taken, that of the
node at the path at last. Until its record is given up, the node of each lock has its writer. -/
theorem records_survive_removal (h : Reachable threshold True s) :
    (∀ p, s.catalog.recorded p + s.unlocked.count p = s.locked.count p) ∧
    (∀ p, s.Outstanding p .exclusive → ∃ i hold locks, s.catalog.GivesUp p i hold locks) ∧
    ∀ hold ∈ s.catalog.holds,
      (s.catalog.locks.get hold.target).exclusive = 1 ∧
      (s.catalog.tree.find? hold.path = some hold.target ∨
        ¬ s.catalog.tree.Attached hold.target) := by
  have accounted := h.accounted
  have sound := accounted.sound
  refine ⟨accounted.records, fun p outstanding => ?_, fun hold kept => ⟨?_, ?_⟩⟩
  · exact sound.gives_up (accounted.outstanding_iff.mp outstanding)
  · exact sound.exclusive_of_recorded kept
  · by_cases attached : s.catalog.tree.Attached hold.target
    · have path := (sound.target_of_recorded kept).2
      exact .inl ((Tree.find?_eq_some_iff sound.tree).mpr ⟨attached, path⟩)
    · exact .inr attached

def recreated : Churn :=
  let registered (s : Churn) : Churn :=
    s.setTree (s.catalog.tree.register .sole ⟨.direct "s", .direct "s"⟩).2
  let locked := (registered (start 1)).lock .sole .exclusive 0
  (registered (locked.setTree (locked.catalog.tree.remove .sole).2)).lock .sole .exclusive 1

theorem recreated_gives_up :
    recreated.catalog.recorded .sole = 2 ∧ recreated.catalog.tree.find? .sole = some 2 ∧
      ∃ i hold locks, recreated.catalog.GivesUp .sole i hold locks := by
  have reachable : Reachable 1 True recreated := by
    refine .next (.next (.next (.next (.next .start (.register ..)) (.lock _ _ _ ?_))
      (.remove ..)) (.register ..)) (.lock _ _ _ ?_)
    all_goals decide +kernel
  have outstanding : recreated.Outstanding .sole .exclusive := by
    have unlocked : recreated.unlocked.count .sole < recreated.locked.count .sole := by
      decide +kernel
    exact unlocked
  exact ⟨by decide +kernel, by decide +kernel,
    (records_survive_removal reachable).2.1 .sole outstanding⟩

end Churn

end DistFs
