import DistFs.Proofs.Locking.Admission
import DistFs.Proofs.Locking.Churn
/-!
# The ripple of an exclusive lock

A request for an exclusive lock runs down the tree like a ripple. It looks at the entries of a node
when it has taken the node; before that it may have to wait, while others lock and unlock, and nodes
come and go. Its order never suffers from that. If what is below the path stays as it is, the
request takes what is above, at and below the path, wakes up no more often than there are such
nodes, and the unlock of its lock gives up what it took, latest first.
-/

namespace DistFs

def Tree.SameBelow (t : Tree) (n : NodeId) (u : Tree) : Prop :=
  ∀ m, t.Below n m → u.children m = t.children m

/-- The nodes above the path are held to read, those at and below it to write, and each only
once. -/
structure Tree.Encloses (t : Tree) (p : Path) (taken : List (NodeId × LockMode)) : Prop where
  once : (taken.map Prod.fst).Nodup
  readers : ∀ m, (m, .shared) ∈ taken ↔ ∃ q ∈ p.ancestors, t.find? q = some m
  writers : ∀ m, (m, .exclusive) ∈ taken ↔ ∃ q, q.isUnder p = true ∧ t.find? q = some m

namespace Acquisition

variable {t u : Tree} {a b : Acquisition} {p : Path} {n m : NodeId}

/-! ## In a tree that stays as it is -/

theorem below_of_reaches (reached : (start t p .exclusive n).Reaches t a)
    (member : (m, .exclusive) ∈ a.nodes) : t.Below n m := by
  induction reached generalizing m with
  | refl =>
    obtain rfl : m = n := by simpa [start, nodes] using member
    exact .refl
  | tail _ step ih =>
    obtain ⟨k, mode, rest, pending, rfl⟩ := step
    rw [nodes_take t pending, List.mem_append] at member
    rcases member with old | new
    · exact ih old
    · cases mode with
      | shared => cases new
      | exclusive =>
        obtain ⟨l, child, same⟩ := List.mem_map.mp new
        obtain rfl : l = m := (Prod.mk.inj same).1
        exact (ih (by simp [nodes, pending])).tail child

theorem reaches_of_sameBelow (same : t.SameBelow n u)
    (before : (start t p .exclusive n).Reaches t a) (reached : a.Reaches u b) :
    (start t p .exclusive n).Reaches t b := by
  induction reached with
  | refl => exact before
  | tail _ step ih =>
    obtain ⟨m, mode, rest, pending, rfl⟩ := step
    refine ih.tail ⟨m, mode, rest, pending, ?_⟩
    cases mode with
    | shared => rfl
    | exclusive =>
      have entries := same m (below_of_reaches ih (by simp [nodes, pending]))
      simp only [take, entries]

theorem encloses (wf : t.WellFormed) (found : t.find? p = some n)
    (reached : (start t p .exclusive n).Reaches t a) (done : a.pending = []) :
    t.Encloses p a.taken := by
  obtain ⟨attached, path⟩ := (Tree.find?_eq_some_iff wf).mp found
  obtain ⟨-, mode, target⟩ := reached.same
  have course := (onCourse_start wf found .exclusive).reaches wf reached
  have all : a.nodes = a.taken := by rw [nodes, done, List.append_nil]
  refine ⟨all ▸ course.nodup_nodes, fun m => ?_, fun m => ⟨fun taken => ?_, ?_⟩⟩
  · rw [← all, course.above mode, target]
    exact Tree.mem_lineage_iff wf found
  · have below := below_of_reaches reached (all ▸ taken)
    obtain ⟨there, under⟩ := (Tree.below_iff wf attached).mp below
    exact ⟨_, path ▸ under, (Tree.find?_eq_some_iff wf).mpr ⟨there, rfl⟩⟩
  · rintro ⟨q, under, found'⟩
    obtain ⟨there, rfl⟩ := (Tree.find?_eq_some_iff wf).mp found'
    have covers := (covers_start t p .exclusive n).reaches reached
    have first : (n, .exclusive) ∈ a.taken := by
      rw [← all, ← show a.target = n from target]
      exact course.target mode
    exact covers.mem_taken done first ((Tree.below_iff wf attached).mpr ⟨there, path ▸ under⟩)

theorem length_nodes_le (wf : t.WellFormed) (found : t.find? p = some n)
    (reached : (start t p .exclusive n).Reaches t a) :
    a.nodes.length ≤ (t.node n).lineage.length + (t.preorder n).length := by
  obtain ⟨-, mode, target⟩ := reached.same
  have course := (onCourse_start wf found .exclusive).reaches wf reached
  have among : a.nodes.map Prod.fst ⊆ (t.node n).lineage ++ t.preorder n := by
    intro m member
    obtain ⟨⟨m, kind⟩, listed, rfl⟩ := List.mem_map.mp member
    cases kind with
    | shared =>
      have above := (course.above mode m).mp listed
      rw [target] at above
      exact List.mem_append_left _ above
    | exclusive =>
      exact List.mem_append_right _
        (Tree.mem_preorder_iff_below.mpr (below_of_reaches reached listed))
  have fewer := (course.nodup_nodes.subperm among).length_le
  rwa [List.length_map, List.length_append] at fewer

theorem length_taken_take (a : Acquisition) (t : Tree) (n : NodeId) (mode : LockMode)
    (rest : List (NodeId × LockMode)) :
    (a.take t n mode rest).taken.length = a.taken.length + 1 :=
  List.length_append

theorem Reaches.length_taken_le (reached : a.Reaches t b) : a.taken.length ≤ b.taken.length := by
  induction reached with
  | refl => exact Nat.le_refl _
  | tail _ step ih =>
    obtain ⟨m, mode, rest, -, rfl⟩ := step
    rw [length_taken_take]
    exact Nat.le_succ_of_le ih

theorem length_taken_le (a : Acquisition) : a.taken.length ≤ a.nodes.length := by
  rw [nodes, List.length_append]
  exact Nat.le_add_right ..

end Acquisition

/-! ## The ripple -/

/-- A request for an exclusive lock on a path, made in the `first` catalog, that has come to a stop
in another one. In between it has gone on in the `earlier` ones, and whenever it was woken, it found
whatever others had made of the locks and the tree. -/
inductive Ripple (p : Path) (n : NodeId) (ticket : Ticket) (first : Catalog) :
    Catalog → List Catalog → LockProgress × LockTable → Prop
  | asked (wf : first.tree.WellFormed) (found : first.tree.find? p = some n) :
      Ripple p n ticket first first []
        (first.locks.advance first.tree ticket (.start first.tree p .exclusive n))
  | woken {c c' : Catalog} {earlier : List Catalog} {result : LockProgress × LockTable}
      {a : Acquisition} (before : Ripple p n ticket first c earlier result)
      (waits : result.1 = .waiting a) (wf : c'.tree.WellFormed)
      (changed : c.tree.Extends c'.tree) (notice : c'.isWoken a ticket = true) :
      Ripple p n ticket first c' (c :: earlier) (c'.locks.resume c'.tree ticket a)

namespace Ripple

variable {p : Path} {n : NodeId} {ticket : Ticket} {first c : Catalog} {earlier : List Catalog}
  {result : LockProgress × LockTable}

theorem origin (h : Ripple p n ticket first c earlier result) :
    first.tree.WellFormed ∧ first.tree.find? p = some n := by
  induction h with
  | asked wf found => exact ⟨wf, found⟩
  | woken _ _ _ _ _ ih => exact ih

theorem wellFormed (h : Ripple p n ticket first c earlier result) : c.tree.WellFormed := by
  cases h with
  | asked wf => exact wf
  | woken _ _ wf => exact wf

theorem done_iff (h : Ripple p n ticket first c earlier result) :
    result.1.acquisition.pending = [] ↔ result.1 = .granted result.1.acquisition := by
  cases h with
  | asked => exact (LockTable.advance_comes ..).done_iff
  | woken => exact (LockTable.resume_comes ..).done_iff

theorem onCourse (h : Ripple p n ticket first c earlier result) :
    result.1.acquisition.OnCourse c.tree := by
  induction h with
  | asked wf found =>
    exact (Acquisition.onCourse_start wf found .exclusive).reaches wf
      (LockTable.advance_comes ..).reached
  | woken before waits wf changed _ ih =>
    -- The nodes that it knows of stand in the tree where they were, though they may be unlinked.
    rw [waits] at ih
    exact (ih.extend before.wellFormed changed).reaches wf (LockTable.resume_comes ..).reached

theorem steady (h : Ripple p n ticket first c earlier result)
    (same : ∀ u ∈ c :: earlier, first.tree.SameBelow n u.tree) :
    (Acquisition.start first.tree p .exclusive n).Reaches first.tree result.1.acquisition := by
  induction h with
  | asked => exact (LockTable.advance_comes ..).reached
  | woken _ waits _ _ _ ih =>
    rw [List.forall_mem_cons] at same
    have before := ih same.2
    rw [waits] at before
    exact Acquisition.reaches_of_sameBelow same.1 before (LockTable.resume_comes ..).reached

theorem wakes (h : Ripple p n ticket first c earlier result) :
    earlier.length ≤ result.1.acquisition.nodes.length ∧
      (result.1 = .waiting result.1.acquisition →
        earlier.length ≤ result.1.acquisition.taken.length) := by
  induction h with
  | asked => exact ⟨Nat.zero_le _, fun _ => Nat.zero_le _⟩
  | @woken c c' earlier result a before waits wf changed notice ih =>
    have done := before.done_iff
    rw [waits] at ih done
    have sofar : earlier.length ≤ a.taken.length := ih.2 rfl
    cases pending : a.pending with
    | nil => cases done.mp pending
    | cons x rest =>
      -- A request that is woken has its next node or is sent away, and then is not woken again.
      rw [List.length_cons]
      rcases Catalog.resume_of_woken notice pending with away | on
      · rw [away]
        refine ⟨?_, nofun⟩
        simp only [LockProgress.acquisition, Acquisition.nodes, pending, List.length_append,
          List.length_cons]
        omega
      · have more := on.reached.length_taken_le
        rw [Acquisition.length_taken_take] at more
        have longer := Nat.le_trans (Nat.succ_le_succ sofar) more
        exact ⟨Nat.le_trans longer (Acquisition.length_taken_le _), fun _ => longer⟩

theorem ordered (h : Ripple p n ticket first c earlier result) :
    result.1.acquisition.taken.Pairwise fun x y =>
      (c.tree.node x.1).path.Before (c.tree.node y.1).path := by
  have all := h.onCourse.ordered
  rw [Acquisition.nodes, List.pairwise_append] at all
  exact all.1

end Ripple

/-! ## The requests of a run -/

namespace Churn

variable {strict : Prop} {threshold : Nat} {s s' : Churn} {p : Path} {n : NodeId} {ticket : Ticket}
  {progress : LockProgress} {a : Acquisition} {call : Call}

abbrev Leads (strict : Prop) : Churn → Churn → Prop := Relation.ReflTransGen (Step strict)

def Traced (strict : Prop) (s : Churn) (ticket : Ticket) (progress : LockProgress) : Prop :=
  ∃ (s₀ : Churn) (c : Catalog) (earlier : List Catalog) (result : LockProgress × LockTable),
    ticket ∉ s₀.calls.tickets ∧
    Ripple progress.acquisition.path progress.acquisition.target ticket s₀.catalog c earlier
      result ∧
    result.1 = progress ∧
    (∀ u ∈ c :: earlier, ∃ s', Leads strict s₀ s' ∧ Leads strict s' s ∧ s'.catalog = u) ∧
    c.tree.Extends s.catalog.tree

theorem Traced.next (traced : s.Traced strict ticket progress) (wf : s.catalog.tree.WellFormed)
    (step : Step strict s s') : s'.Traced strict ticket progress := by
  obtain ⟨s₀, c, earlier, result, fresh, ripple, stops, through, ext⟩ := traced
  refine ⟨s₀, c, earlier, result, fresh, ripple, stops, fun u member => ?_,
    ext.trans (step.tree wf).2⟩
  obtain ⟨between, since, leads, same⟩ := through u member
  exact ⟨between, since, leads.tail step, same⟩

theorem traced_lock (strict : Prop) (wf : s.catalog.tree.WellFormed)
    (found : s.catalog.tree.find? p = some n) (fresh : ticket ∉ s.calls.tickets) :
    s.Traced strict ticket
      (s.catalog.locks.advance s.catalog.tree ticket (.start s.catalog.tree p .exclusive n)).1 := by
  obtain ⟨path, -, target⟩ := (s.catalog.locks.advance_comes s.catalog.tree ticket
    (.start s.catalog.tree p .exclusive n)).reached.same
  refine ⟨s, s.catalog, [], _, fresh, ?_, rfl, ?_, .refl _⟩
  · rw [path, target]
    exact .asked wf found
  · rw [List.forall_mem_singleton]
    exact ⟨s, .refl, .refl, rfl⟩

theorem Traced.resume (traced : s.Traced strict ticket (.waiting a))
    (wf : s.catalog.tree.WellFormed) :
    s.Traced strict ticket (s.catalog.locks.resume s.catalog.tree ticket a).1 := by
  by_cases woken : s.catalog.isWoken a ticket = true
  · obtain ⟨s₀, c, earlier, result, fresh, ripple, stops, through, ext⟩ := traced
    obtain ⟨path, -, target⟩ :=
      (s.catalog.locks.resume_comes s.catalog.tree ticket a).reached.same
    refine ⟨s₀, s.catalog, c :: earlier, _, fresh, ?_, rfl, ?_, .refl _⟩
    · rw [path, target]
      exact .woken ripple stops wf ext woken
    · obtain ⟨between, since, leads, -⟩ := through c List.mem_cons_self
      exact List.forall_mem_cons.mpr ⟨⟨s, since.trans leads, .refl, rfl⟩, through⟩
  · rw [Catalog.resume_of_asleep woken]
    exact traced

structure Ripples (strict : Prop) (s : Churn) (calls : Calls) : Prop where
  waiting : ∀ call ∈ calls.waiting, call.acquisition.mode = .exclusive →
    s.Traced strict call.ticket (.waiting call.acquisition)
  granted : ∀ call ∈ calls.granted, call.acquisition.mode = .exclusive →
    s.Traced strict call.ticket (.granted call.acquisition)

namespace Ripples

variable {calls calls' : Calls}

theorem next (h : s.Ripples strict calls) (wf : s.catalog.tree.WellFormed)
    (step : Step strict s s') : s'.Ripples strict calls :=
  ⟨fun call member writer => (h.waiting call member writer).next wf step,
    fun call member writer => (h.granted call member writer).next wf step⟩

theorem mono (h : s.Ripples strict calls) (waiting : calls'.waiting ⊆ calls.waiting)
    (granted : calls'.granted ⊆ calls.granted) : s.Ripples strict calls' :=
  ⟨fun call member => h.waiting call (waiting member),
    fun call member => h.granted call (granted member)⟩

theorem gains (h : s.Ripples strict calls) (gains : calls.Gains ticket progress calls')
    (traced : progress.acquisition.mode = .exclusive → s.Traced strict ticket progress) :
    s.Ripples strict calls' := by
  refine ⟨fun call member writer => ?_, fun call member writer => ?_⟩
  · rcases gains.waiting call member with old | ⟨rfl, rfl⟩
    · exact h.waiting call old writer
    · exact traced writer
  · rcases gains.granted call member with old | ⟨rfl, rfl⟩
    · exact h.granted call old writer
    · exact traced writer

end Ripples

theorem Step.ripples (step : Step strict s s') (sound : s.Sound strict)
    (h : s.Ripples strict s.calls) : s'.Ripples strict s'.calls := by
  have wf := sound.tree
  have kept := h.next wf step
  cases step with
  | @lock p mode ticket fresh =>
    cases found : s.catalog.tree.find? p with
    | none =>
      have same : (s.lock p mode ticket).calls =
          { s.calls with failed := s.calls.failed ++ [ticket] } := by
        simp [Churn.lock, Traffic.lock, Catalog.lock, Tree.get, found, Calls.note]
      rw [same]
      exact kept.mono (List.Subset.refl _) (List.Subset.refl _)
    | some n =>
      refine kept.gains (sound.gains_lock mode fresh found) fun writer => ?_
      rw [(LockTable.advance_comes ..).reached.same.2.1] at writer
      obtain rfl : mode = .exclusive := writer
      exact (traced_lock strict wf found fresh).next wf (.lock s p .exclusive fresh)
  | @resume x member =>
    have left : (s.resume x).Ripples strict (s.calls.leave x.ticket) :=
      kept.mono List.filter_sublist.subset (List.Subset.refl _)
    refine left.gains (sound.gains_resume member) fun writer => ?_
    rw [(LockTable.resume_comes ..).reached.same.2.1] at writer
    exact ((h.waiting x member writer).resume wf).next wf (.resume s member)
  | unlock p mode outstanding =>
    refine kept.mono ?_ (Catalog.granted_callsAfter ..)
    exact (Catalog.waiting_callsAfter s.catalog s.calls p mode).symm ▸ List.Subset.refl _
  | add | register | remove | interrupt => exact kept

theorem Reachable.ripples (h : Reachable threshold strict s) : s.Ripples strict s.calls := by
  induction h with
  | start => exact ⟨nofun, nofun⟩
  | next before step ih => exact step.ripples before.sound ih

/-! ## The unlock -/

def Matches (s : Churn) (call : Call) (i : Nat) : Prop :=
  s.catalog.holdToRelease? call.acquisition.path = some i ∧ s.catalog.holds[i]? = some call.hold

theorem exists_matches (kept : call.hold ∈ s.catalog.holds)
    (only : ∀ hold ∈ s.catalog.holds, hold.path = call.acquisition.path → hold = call.hold) :
    ∃ i, s.Matches call i := by
  obtain ⟨i, first⟩ := Option.isSome_iff_exists.mp
    (Catalog.holdToRelease?_isSome.mpr ⟨call.hold, kept, rfl⟩)
  obtain ⟨hold, listed, path, -⟩ := Catalog.holdToRelease?_eq_some first
  obtain rfl := only hold (List.mem_of_getElem? listed) path
  exact ⟨i, first, listed⟩

/-- An exclusive lock takes nodes in the order of their depth and path, whatever others do while it
waits. As long as nothing changes below its path, it wakes up no more often than there are nodes
above and below, and in the end it holds exactly these. Every request of a run is such a ripple, and
the unlock of a lock gives up what its request has taken, latest first. -/
theorem ripple_in_order_and_whole :
    (∀ {p n ticket first c earlier result}, Ripple p n ticket first c earlier result →
      (result.1.acquisition.taken.Pairwise fun x y =>
        (c.tree.node x.1).path.Before (c.tree.node y.1).path) ∧
      ((∀ u ∈ c :: earlier, first.tree.SameBelow n u.tree) →
        earlier.length ≤ (first.tree.node n).lineage.length + (first.tree.preorder n).length ∧
        ∀ a, result.1 = .granted a → first.tree.Encloses p a.taken)) ∧
    ∀ {threshold s}, Reachable threshold True s →
      (∀ call ∈ s.calls.waiting, call.acquisition.mode = .exclusive →
        s.Traced True call.ticket (.waiting call.acquisition)) ∧
      ∀ call ∈ s.calls.granted, call.acquisition.mode = .exclusive →
        s.Traced True call.ticket (.granted call.acquisition) ∧
        ((∀ hold ∈ s.catalog.holds, hold.path = call.acquisition.path → hold = call.hold) →
          ∃ i, s.Matches call i) ∧
        ∀ i, s.Matches call i → ∃ locks,
          s.catalog.unlock call.acquisition.path .exclusive =
            (.ok (), { s.catalog with locks, holds := s.catalog.holds.eraseIdx i }) ∧
          s.catalog.locks.ReleasedInTurn call.acquisition.taken.reverse locks := by
  refine ⟨fun ripple => ⟨ripple.ordered, fun same => ?_⟩, fun reachable => ?_⟩
  · obtain ⟨wf, found⟩ := ripple.origin
    have reached := ripple.steady same
    refine ⟨Nat.le_trans ripple.wakes.1 (Acquisition.length_nodes_le wf found reached),
      fun a granted => ?_⟩
    have done := ripple.done_iff.mpr (by rw [granted]; rfl)
    rw [granted] at reached done
    exact Acquisition.encloses wf found reached done
  · have sound := reachable.sound
    obtain ⟨waiting, granted⟩ := reachable.ripples
    refine ⟨waiting, fun call member writer => ⟨granted call member writer, fun only => ?_,
      fun i matched => ?_⟩⟩
    · exact exists_matches (sound.regular.recorded member writer) only
    · exact sound.unlock_exclusive_in_turn matched.1 matched.2 member writer

def reading : Churn :=
  let made := (start 1).setTree
    ((start 1).catalog.tree.register .inner ⟨.direct "s", .direct "s"⟩).2
  made.lock .inner .shared 0

def asking : Churn := reading.lock .sole .exclusive 1
def joined : Churn :=
  asking.setTree (asking.catalog.tree.register .neighbour ⟨.direct "s", .direct "s"⟩).2

def released : Churn := joined.unlock .inner .shared
def stopped : Acquisition :=
  ⟨.sole, .exclusive, 1, [(0, .shared), (1, .exclusive)], [(2, .exclusive)]⟩
def enclosed : Churn := released.resume ⟨1, stopped⟩
def whole : Acquisition :=
  ⟨.sole, .exclusive, 1, [(0, .shared), (1, .exclusive), (2, .exclusive)], []⟩

theorem enclosed_in_reverse :
    reading.catalog.tree.Encloses .sole [(0, .shared), (1, .exclusive), (2, .exclusive)] ∧
    ∃ locks, enclosed.catalog.unlock .sole .exclusive =
        (.ok (), { enclosed.catalog with locks, holds := enclosed.catalog.holds.eraseIdx 0 }) ∧
      enclosed.catalog.locks.ReleasedInTurn [(2, .exclusive), (1, .exclusive), (0, .shared)]
        locks := by
  have first : Reachable 1 True reading := by
    refine .next (.next .start (.register ..)) (.lock _ _ _ ?_)
    decide +kernel
  have asks : Step True reading asking := .lock _ _ _ (by decide +kernel)
  have joins : Step True asking joined := .register ..
  have releases : Step True joined released := .unlock _ _ _ fun _ => by
    refine ⟨⟨0, ⟨.inner, .shared, 2, [(2, .shared)], []⟩⟩, ?_⟩
    decide +kernel
  have reachable : Reachable 1 True released := .next (.next (.next first asks) joins) releases
  have wf := first.sound.tree
  have wf' := reachable.sound.tree
  have ext : reading.catalog.tree.Extends released.catalog.tree :=
    ((asks.tree wf).2.trans (joins.tree (asks.tree wf).1).2).trans
      (releases.tree (joins.tree (asks.tree wf).1).1).2
  have ripple : Ripple .sole 1 1 reading.catalog released.catalog [reading.catalog] _ :=
    .woken (.asked wf (by decide +kernel)) (a := stopped) (by decide +kernel) wf' ext
      (by decide +kernel)
  obtain ⟨ripples, unlocks⟩ := ripple_in_order_and_whole
  have same : ∀ u ∈ [released.catalog, reading.catalog],
      reading.catalog.tree.SameBelow 1 u.tree := by
    have entries : ∀ m ∈ reading.catalog.tree.preorder 1,
        released.catalog.tree.children m = reading.catalog.tree.children m := by decide +kernel
    rw [List.forall_mem_cons, List.forall_mem_singleton]
    exact ⟨fun m below => entries m (Tree.mem_preorder_iff_below.mpr below), fun _ _ => rfl⟩
  have done : Reachable 1 True enclosed := .next reachable (.resume _ (by decide +kernel))
  refine ⟨((ripples ripple).2 same).2 whole (by decide +kernel), ?_⟩
  exact ((unlocks done).2 ⟨1, whole⟩ (by decide +kernel) rfl).2.2 0
    (by unfold Matches; decide +kernel)

end Churn

end DistFs
