import DistFs.Proofs.Locking.Churn
import DistFs.Proofs.Service.Requests

namespace DistFs

namespace Catalog

variable {c : Catalog} {calls : Calls} {call : Call} {strict : Prop} {p : Path} {mode : LockMode}
  {n m : Nat}

/-! ## What an unlock makes of a shared lock -/

/-- What becomes of a shared lock that was granted when its path is unlocked. In a strict ledger its
node counts the reader. -/
structure UnlocksByPath (c : Catalog) (strict : Prop) (p : Path) (n : NodeId) : Prop where
  held : strict → 0 < (c.locks.get n).shared
  here : c.tree.find? p = some n → 0 < (c.locks.get n).shared →
    ∃ locks, c.unlock p .shared = (.ok (), { c with locks }) ∧
      c.locks.Released [(n, .shared)] locks
  kept : c.tree.find? p ≠ some n → (c.unlock p .shared).2.locks.get n = c.locks.get n
  gone : c.tree.find? p = none → c.unlock p .shared = (.error (.notFound p), c)
  robbed : ∀ m, c.tree.find? p = some m → m ≠ n → 0 < (c.locks.get m).shared →
    ∃ locks, c.unlock p .shared = (.ok (), { c with locks }) ∧
      c.locks.Released [(m, .shared)] locks
  refused : ∀ m, c.tree.find? p = some m → m ≠ n → (c.locks.get m).shared = 0 →
    c.unlock p .shared = (.error (.notLocked p LockMode.shared.text), c)

theorem unlock_elsewhere (other : c.tree.find? p ≠ some n) :
    (c.unlock p .shared).2.locks.get n = c.locks.get n := by
  cases found : c.tree.find? p with
  | none =>
    rw [Catalog.unlock, Tree.get, found]
  | some m =>
    have apart : n ≠ m := fun same => other (same ▸ found)
    rw [unlock_shared_of_found found, locks_giveUp, List.reverse_singleton, LockTable.releaseAll]
    cases (c.locks.get m).release .shared with
    | none => rfl
    | some l =>
      simp only [LockTable.releaseAll, LockTable.get_set, if_neg apart]

theorem Sound.unlocksByPath (h : c.Sound calls strict) (member : call ∈ calls.granted)
    (reader : call.acquisition.mode = .shared) :
    c.UnlocksByPath strict call.acquisition.path call.acquisition.target where
  held exactly := by
    have taken := h.taken_reader member reader
    have count := ((h.balanced call.acquisition.target).count .shared).eq (.inl exactly)
    have held : 0 < calls.held.count (call.acquisition.target, .shared) :=
      List.count_pos_iff.mpr (List.mem_flatMap.mpr
        ⟨call, List.mem_append_right _ member, by rw [taken]; exact List.mem_cons_self⟩)
    simp only [Lock.count] at count
    omega
  here := unlock_reader
  kept := unlock_elsewhere
  gone none := by rw [Catalog.unlock, Tree.get, none]
  robbed _ found _ := unlock_reader found
  refused _ found _ := unlock_unread h.tree found

/-! ## What is left of a shared lock on a removed node -/

structure Strands (c : Catalog) (calls : Calls) (c' : Catalog) (calls' : Calls) : Prop where
  extended : c.tree.Extends c'.tree
  stays : ∀ call ∈ calls.granted, call.acquisition.mode = .shared →
    ¬ c.tree.Attached call.acquisition.target → call ∈ calls'.granted

variable {c' : Catalog} {calls' : Calls}

theorem Strands.of_granted (extended : c.tree.Extends c'.tree)
    (granted : calls.granted ⊆ calls'.granted) : c.Strands calls c' calls' :=
  ⟨extended, fun _ member _ _ => granted member⟩

theorem Strands.detached (h : c.Strands calls c' calls') (sound : c.Sound calls strict)
    (member : call ∈ calls.granted) (removed : ¬ c.tree.Attached call.acquisition.target) :
    ¬ c'.tree.Attached call.acquisition.target := fun attached =>
  removed (h.extended.attached_of sound.tree
    (sound.regular.course call (List.mem_append_right _ member)).known attached)

theorem subset_note (calls : Calls) (ticket : Ticket) (p : Path) (mode : LockMode) (c : Catalog)
    (answer : LockAnswer) : calls.granted ⊆ (calls.note ticket p mode c answer).granted := by
  cases answer with
  | granted target => exact List.subset_append_left ..
  | waiting a => exact List.Subset.refl _
  | failed e => exact List.Subset.refl _

theorem Sound.mem_callsAfter (h : c.Sound calls strict) (member : call ∈ calls.granted)
    (reader : call.acquisition.mode = .shared)
    (removed : ¬ c.tree.Attached call.acquisition.target) (p : Path) (mode : LockMode) :
    call ∈ (c.callsAfter calls p mode).granted := by
  unfold callsAfter
  cases holder : c.holder? calls p mode with
  | none => exact member
  | some other =>
    -- Whose lock is given up is a writer, or reads a node in the tree.
    have apart : other ∈ calls.granted ∧ other ≠ call := by
      cases mode with
      | shared =>
        obtain ⟨listed, -, found⟩ := holder?_shared holder
        refine ⟨listed, ?_⟩
        rintro rfl
        exact removed ((Tree.find?_eq_some_iff h.tree).mp found).1
      | exclusive =>
        obtain ⟨listed, writer, -⟩ := holder?_exclusive holder
        refine ⟨listed, ?_⟩
        rintro rfl
        exact absurd (reader.symm.trans writer) (by simp)
    refine List.mem_filter.mpr ⟨member, decide_eq_true fun same => apart.2 ?_⟩
    exact List.inj_on_of_nodup_map h.regular.nodup_granted apart.1 member same.symm

end Catalog

namespace Churn

variable {s s' : Churn} {call : Call} {threshold : Nat} {strict : Prop}

theorem Step.strands (step : Step strict s s') (sound : s.Sound strict) :
    s.catalog.Strands s.calls s'.catalog s'.calls := by
  cases step with
  | lock p mode fresh =>
    refine .of_granted ?_ (Catalog.subset_note ..)
    change s.catalog.tree.Extends (s.catalog.lock p mode _).2.tree
    rw [Catalog.tree_lock]
    exact .refl _
  | resume member =>
    refine .of_granted ?_ (Catalog.subset_note (s.calls.leave _) ..)
    change s.catalog.tree.Extends (s.catalog.resume _ _).2.tree
    rw [Catalog.tree_resume]
    exact .refl _
  | unlock p mode outstanding =>
    refine ⟨?_, fun call member reader removed =>
      Catalog.Sound.mem_callsAfter sound member reader removed p mode⟩
    change s.catalog.tree.Extends (s.catalog.unlock p mode).2.tree
    rw [Catalog.tree_unlock]
    exact .refl _
  | add made => exact .of_granted (Tree.add_grown sound.tree made).grows.toExtends (.refl _)
  | register p container =>
    have grown := (Tree.register_grown sound.tree p container).1
    exact .of_granted ((Tree.settleRoot_grows _ container).trans grown.grows).toExtends (.refl _)
  | remove p =>
    refine .of_granted ?_ (.refl _)
    change s.catalog.tree.Extends (s.catalog.tree.remove p).2
    rcases Tree.remove_cases sound.tree p with ⟨n, -, -, removed⟩ | kept
    · rw [removed]
      exact Tree.extends_unlink _ n
    · rw [kept]
      exact .refl _
  | interrupt => exact .of_granted (.refl _) (.refl _)

theorem stranded (steps : Relation.ReflTransGen (Step strict) s s') (sound : s.Sound strict)
    (member : call ∈ s.calls.granted) (reader : call.acquisition.mode = .shared)
    (removed : ¬ s.catalog.tree.Attached call.acquisition.target) :
    s'.Sound strict ∧ call ∈ s'.calls.granted ∧
      ¬ s'.catalog.tree.Attached call.acquisition.target := by
  induction steps with
  | refl => exact ⟨sound, member, removed⟩
  | tail _ step ih =>
    obtain ⟨sound, member, removed⟩ := ih
    have strands := step.strands sound
    exact ⟨step.sound sound, strands.stays call member reader removed,
      strands.detached sound member removed⟩

end Churn

namespace Cluster

variable {c : Cluster} {calls : Calls} {ticket : Ticket} {p : Path} {mode : LockMode}
  {strict : Prop} {result : LockAnswer × Catalog}

theorem strands_conclude (tidy : c.Tidy) (same : result.2.tree = c.tree)
    (sound : result.2.Sound (calls.note ticket p mode result.2 result.1) strict) :
    c.catalog.Strands calls (c.conclude p mode result).2.catalog
      (c.callsThen calls ticket p mode result) := by
  have granted := sound_granted tidy same sound
  have grows := (tidy.conclude_grows p mode same).1
  refine ⟨grows.toExtends, fun call member reader removed => ?_⟩
  have noted := Catalog.subset_note calls ticket p mode result.2 result.1 member
  rcases conclude_cases c calls ticket p mode result with ⟨calls', -⟩ | ⟨-, calls', -⟩
  · rwa [calls']
  · rw [calls']
    have course := sound.regular.course call (List.mem_append_right _ noted)
    have known : call.acquisition.target < c.tree.size := same ▸ course.known
    refine granted.mem_callsAfter noted reader (fun attached => removed ?_) p .exclusive
    exact (grows.attached_iff tidy.wellFormed known).mp attached

end Cluster

namespace Service

variable {s s' : Service} {call : Call} {config : NamingConfig} {strict : Prop}

theorem Request.strands (request : Request strict s s') (h : s.InOrder strict) :
    s.cluster.catalog.Strands s.calls s'.cluster.catalog s'.calls := by
  cases request.effect h.tidy with
  | lock p mode fresh =>
    rcases s.lock_cases p mode _ with same | same <;> rw [same]
    · exact .of_granted (.refl _) (.refl _)
    · exact Cluster.strands_conclude h.tidy (Catalog.tree_lock ..) (h.sound.lock p mode fresh)
  | resume member =>
    obtain ⟨extended, stays⟩ :=
      Cluster.strands_conclude h.tidy (Catalog.tree_resume ..) (h.sound.resume member)
    exact ⟨extended, stays⟩
  | unlock p mode owned =>
    refine ⟨?_, fun call member reader removed =>
      h.sound.mem_callsAfter member reader removed p mode⟩
    change s.tree.Extends (s.cluster.unlock p mode).2.tree
    rw [Cluster.tree_unlock]
    exact .refl _
  | lockFree free => exact .of_granted free.extended (.refl _)
  | stop =>
    refine .of_granted ?_ (.refl _)
    change s.cluster.catalog.tree.Extends s.cluster.stop.catalog.tree
    rw [Cluster.catalog_stop]
    exact .refl _

theorem stranded (requests : Relation.ReflTransGen (Request strict) s s') (h : s.InOrder strict)
    (member : call ∈ s.calls.granted) (reader : call.acquisition.mode = .shared)
    (removed : ¬ s.tree.Attached call.acquisition.target) :
    s'.InOrder strict ∧ call ∈ s'.calls.granted ∧
      ¬ s'.tree.Attached call.acquisition.target := by
  induction requests with
  | refl => exact ⟨h, member, removed⟩
  | tail _ request ih =>
    obtain ⟨h, member, removed⟩ := ih
    have strands := request.strands h
    exact ⟨h.request request, strands.stays call member reader removed,
      strands.detached h.sound member removed⟩

/-- In runs of a directory tree and of a naming server, the unlock of a shared lock gives up the
lock if its node stands at the path and still counts the reader, and leaves the node alone if not.
So a lock on a removed node is never given up again; in a strict run its node counts the reader for
good. -/
theorem readers_unlocked_by_path (threshold : Nat) (config : NamingConfig) (strict : Prop) :
    (∀ s, Churn.Reachable threshold strict s → ∀ call ∈ s.calls.granted,
      call.acquisition.mode = .shared →
        s.catalog.UnlocksByPath strict call.acquisition.path call.acquisition.target ∧
        (¬ s.catalog.tree.Attached call.acquisition.target →
          ∀ s', Relation.ReflTransGen (Churn.Step strict) s s' →
            call ∈ s'.calls.granted ∧ ¬ s'.catalog.tree.Attached call.acquisition.target ∧
            (strict → 0 < (s'.catalog.locks.get call.acquisition.target).shared))) ∧
    (∀ s, Requested config strict s → ∀ call ∈ s.calls.granted,
      call.acquisition.mode = .shared →
        s.cluster.catalog.UnlocksByPath strict call.acquisition.path call.acquisition.target ∧
        (¬ s.tree.Attached call.acquisition.target →
          ∀ s', Relation.ReflTransGen (Request strict) s s' →
            call ∈ s'.calls.granted ∧ ¬ s'.tree.Attached call.acquisition.target ∧
            (strict → 0 < (s'.cluster.catalog.locks.get call.acquisition.target).shared))) := by
  constructor
  · intro s reachable call member reader
    have sound := reachable.sound
    refine ⟨Catalog.Sound.unlocksByPath sound member reader, fun removed s' steps => ?_⟩
    obtain ⟨sound', member', removed'⟩ := Churn.stranded steps sound member reader removed
    exact ⟨member', removed', (Catalog.Sound.unlocksByPath sound' member' reader).held⟩
  · intro s requested call member reader
    have h := requested.inOrder
    refine ⟨h.sound.unlocksByPath member reader, fun removed s' requests => ?_⟩
    obtain ⟨h', member', removed'⟩ := stranded requests h member reader removed
    exact ⟨member', removed', (h'.sound.unlocksByPath member' reader).held⟩

def remade : Service :=
  (start {} {}).run
    [.createDirectory .sole, .lock .sole .shared 0, .delete .sole, .createDirectory .sole,
      .lock .sole .shared 1]

theorem remade_robs_reader :
    0 < (remade.cluster.catalog.locks.get 1).shared ∧
      (remade.cluster.catalog.unlock .sole .shared).2.locks.get 1 =
        remade.cluster.catalog.locks.get 1 ∧
      ∃ locks, remade.cluster.catalog.unlock .sole .shared =
          (.ok (), { remade.cluster.catalog with locks }) ∧
        remade.cluster.catalog.locks.Released [(2, .shared)] locks := by
  have requested : Requested {} True remade := Reached.run (.start {}) (by decide +kernel)
  have found : remade.cluster.catalog.tree.find? .sole = some 2 := by decide +kernel
  have unlocks := ((readers_unlocked_by_path 1 {} True).2 remade requested
    ⟨0, { path := .sole, mode := .shared, target := 1, taken := [(1, .shared)], pending := [] }⟩
    (by decide +kernel) rfl).1
  exact ⟨unlocks.held trivial, unlocks.kept (by rw [found]; decide),
    unlocks.robbed 2 found (by decide) (by decide +kernel)⟩

end Service

end DistFs
