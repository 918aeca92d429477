import DistFs.Proofs.Locking.Accounts
import Mathlib.Data.Fintype.EquivFin
import Mathlib.Order.RelClasses
/-!
# Requests do not wait in a ring

A request waits for those who have taken the node that it stands in line for, and for those who
stand before it. The former stand, if at all, in line for a node that comes later in the order in
which nodes are taken, the latter nearer to the head of the same line (`Rises`). So nobody waits for
itself, and when no lock is granted and nobody is about to go on, nobody waits at all.
-/

namespace DistFs

namespace Traffic

variable {s : Traffic} {x y z : Call} {threshold n m i j : Nat}

/-- The request stands in line for the node, at this distance from the head. -/
def StandsAt (s : Traffic) (x : Call) (n : NodeId) (i : Nat) : Prop :=
  x ∈ s.calls.waiting ∧ (s.catalog.locks.get n).queue[i]?.map (·.ticket) = some x.ticket

/-- The first request waits for the second, which has taken the node that the first stands in line
for, or stands before it. -/
def WaitsFor (s : Traffic) (x y : Call) : Prop :=
  ∃ n i, s.StandsAt x n i ∧ y ∈ s.calls.current ∧
    (s.HasTaken y n ∨ ∃ j < i, s.StandsAt y n j)

/-- One place in a line comes after another: it is at a later node, or nearer to the head. -/
def Rises (s : Traffic) (n : NodeId) (i : Nat) (m : NodeId) (j : Nat) : Prop :=
  (s.catalog.tree.node n).path.Before (s.catalog.tree.node m).path ∨ n = m ∧ j < i

theorem Rises.trans {k l : Nat} (h : s.Rises n i m j) (h' : s.Rises m j k l) :
    s.Rises n i k l := by
  rcases h with before | ⟨rfl, nearer⟩ <;> rcases h' with before' | ⟨rfl, nearer'⟩
  · exact .inl (before.trans before')
  · exact .inl before
  · exact .inl before'
  · exact .inr ⟨rfl, Nat.lt_trans nearer' nearer⟩

theorem Rises.irrefl (s : Traffic) (n i : Nat) : ¬ s.Rises n i n i := by
  rintro (before | ⟨-, nearer⟩)
  · exact Path.Before.irrefl _ before
  · exact Nat.lt_irrefl _ nearer

namespace Orderly

theorem stands_mem_queue (h : s.StandsAt x n i) :
    ∃ w ∈ (s.catalog.locks.get n).queue, w.ticket = x.ticket := by
  obtain ⟨w, found, same⟩ := Option.map_eq_some_iff.mp h.2
  exact ⟨w, List.mem_of_getElem? found, same⟩

theorem stands_head (h : s.Orderly) (stands : s.StandsAt x n i) :
    ∃ mode, x.acquisition.pending.head? = some (n, mode) := by
  obtain ⟨w, listed, same⟩ := stands_mem_queue stands
  have place := ((h.sound.balanced n).waiting w listed).1
  rw [same, Calls.waits_of_mem h.sound.regular.nodup_waiting stands.1] at place
  exact ⟨w.mode, place⟩

theorem stands_unique (h : s.Orderly) (stands : s.StandsAt x n i) (stands' : s.StandsAt x m j) :
    n = m ∧ i = j := by
  obtain ⟨mode, head⟩ := h.stands_head stands
  obtain ⟨mode', head'⟩ := h.stands_head stands'
  obtain rfl : n = m := (Prod.mk.inj (Option.some.inj (head.symm.trans head'))).1
  have nodup := (List.nodup_append'.mp (h.sound.balanced n).nodup).1
  have place := stands.2
  have place' := stands'.2
  rw [← List.getElem?_map] at place place'
  have bound := (List.getElem?_eq_some_iff.mp place).1
  exact ⟨rfl, (List.getElem?_inj bound nodup).mp (place.trans place'.symm)⟩

theorem before_of_hasTaken (h : s.Orderly) (taken : s.HasTaken x n) (stands : s.StandsAt x m j) :
    (s.catalog.tree.node n).path.Before (s.catalog.tree.node m).path := by
  obtain ⟨mode, head⟩ := h.stands_head stands
  have ordered := (h.course (List.mem_append_left _ stands.1)).ordered
  have later (mode' : LockMode) (owns : s.Owns x n mode') :
      (s.catalog.tree.node n).path.Before (s.catalog.tree.node m).path := by
    rcases owns with taken | ⟨head', granted⟩
    · exact (List.pairwise_append.mp ordered).2.2 _ taken _ (List.mem_of_head? head)
    · -- A request that was granted no longer stands in line.
      obtain rfl : n = m := (Prod.mk.inj (Option.some.inj (head'.symm.trans head))).1
      obtain ⟨w, listed, same⟩ := stands_mem_queue stands
      have apart := (List.nodup_append'.mp (h.sound.balanced n).nodup).2.2
      exact absurd granted (apart (same ▸ List.mem_map_of_mem listed))
  rcases taken with owns | owns
  · exact later _ owns
  · exact later _ owns

theorem rises_of_waitsFor (h : s.Orderly) (waits : s.WaitsFor x y) (stands : s.StandsAt x n i)
    (stands' : s.StandsAt y m j) : s.Rises n i m j := by
  obtain ⟨n', i', place, -, reason⟩ := waits
  obtain ⟨rfl, rfl⟩ := h.stands_unique stands place
  rcases reason with taken | ⟨j', nearer, place'⟩
  · exact .inl (h.before_of_hasTaken taken stands')
  · obtain ⟨rfl, rfl⟩ := h.stands_unique stands' place'
    exact .inr ⟨rfl, nearer⟩

theorem rises_of_chain (h : s.Orderly) (chain : Relation.TransGen s.WaitsFor x y)
    (stands : s.StandsAt x n i) (stands' : s.StandsAt y m j) : s.Rises n i m j := by
  induction chain generalizing m j with
  | single waits => exact h.rises_of_waitsFor waits stands stands'
  | tail _ waits ih =>
    obtain ⟨k, l, place, -⟩ := id waits
    exact (ih place).trans (h.rises_of_waitsFor waits place stands')

theorem no_ring (h : s.Orderly) (x : Call) : ¬ Relation.TransGen s.WaitsFor x x := by
  intro ring
  obtain ⟨y, ⟨n, i, stands, -⟩, -⟩ := Relation.TransGen.head'_iff.mp ring
  exact Rises.irrefl s n i (h.rises_of_chain ring stands stands)

theorem stands_of_asleep (h : s.Orderly) (member : x ∈ s.calls.waiting)
    (asleep : s.catalog.isWoken x.acquisition x.ticket = false) : ∃ n i, s.StandsAt x n i := by
  unfold Catalog.isWoken at asleep
  cases pending : x.acquisition.pending with
  | nil => exact absurd pending (h.sound.regular.waiting x member)
  | cons next rest =>
    simp only [pending, ne_eq, decide_eq_false_iff_not, not_not] at asleep
    unfold Lock.notice at asleep
    split at asleep
    · cases asleep
    · split at asleep
      next line =>
        obtain ⟨w, listed, same⟩ := List.any_eq_true.mp line
        obtain ⟨i, bound, rfl⟩ := List.mem_iff_getElem.mp listed
        refine ⟨next.1, i, member, ?_⟩
        rw [List.getElem?_eq_getElem bound, Option.map_some, of_decide_eq_true same]
      next => cases asleep

theorem taken_of_stands (h : s.Orderly) (stands : s.StandsAt x n i) :
    ∃ y ∈ s.calls.current, s.HasTaken y n := by
  obtain ⟨w, listed, -⟩ := stands_mem_queue stands
  obtain ⟨v, head⟩ : ∃ v, (s.catalog.locks.get n).queue.head? = some v := by
    cases line : (s.catalog.locks.get n).queue with
    | nil => simp [line] at listed
    | cons v rest => exact ⟨v, rfl⟩
  have full := (h.sound.balanced n).head v head
  have some_hold : ∃ mode, 0 < (s.catalog.locks.get n).count mode := by
    by_contra none
    have free (mode : LockMode) : (s.catalog.locks.get n).count mode = 0 :=
      Nat.eq_zero_of_not_pos fun positive => none ⟨mode, positive⟩
    rw [Lock.admits_iff.mpr ⟨free .exclusive, fun _ => free .shared⟩] at full
    cases full
  obtain ⟨mode, positive⟩ := some_hold
  rw [h.count_eq, List.countP_pos_iff] at positive
  obtain ⟨y, member, owns⟩ := positive
  refine ⟨y, member, ?_⟩
  cases mode with
  | shared => exact .inl (of_decide_eq_true owns)
  | exclusive => exact .inr (of_decide_eq_true owns)

/-- If no lock is granted, and nobody is about to go on, then nobody waits: whoever waited would
wait for somebody who waits too, without an end. -/
theorem nobody_waits (h : s.Orderly) (free : s.calls.granted = [])
    (asleep : ∀ x ∈ s.calls.waiting, s.catalog.isWoken x.acquisition x.ticket = false) :
    s.calls.waiting = [] := by
  have next (x : Call) (member : x ∈ s.calls.waiting) :
      ∃ y ∈ s.calls.waiting, s.WaitsFor x y := by
    obtain ⟨n, i, stands⟩ := h.stands_of_asleep member (asleep x member)
    obtain ⟨y, current, taken⟩ := h.taken_of_stands stands
    refine ⟨y, ?_, n, i, stands, current, .inl taken⟩
    simpa [Calls.current, free] using current
  -- The waiting requests are finitely many, so that no chain among them goes on forever.
  let Behind (x y : {x // x ∈ s.calls.waiting}) : Prop := Relation.TransGen s.WaitsFor y.1 x.1
  have : IsTrans _ Behind := ⟨fun x y z first second => second.trans first⟩
  have : Std.Irrefl Behind := ⟨fun x => h.no_ring x.1⟩
  have wellFounded : WellFounded Behind := Finite.wellFounded_of_trans_of_irrefl Behind
  have nobody (x : {x // x ∈ s.calls.waiting}) : False := by
    induction x using wellFounded.induction with
    | _ x ih =>
      obtain ⟨y, member, waits⟩ := next x.1 x.2
      exact ih ⟨y, member⟩ (.single waits)
  exact List.eq_nil_iff_forall_not_mem.mpr fun x member => nobody ⟨x, member⟩

end Orderly

/-- Nobody waits for himself, through whomever. Every lock that was granted can be unlocked, and
when none is left and nobody is about to go on, then nobody waits. -/
theorem deadlock_free (h : Reachable threshold s) :
    (∀ x, ¬ Relation.TransGen s.WaitsFor x x) ∧
      (∀ call ∈ s.calls.granted, ∃ s', s.Unlocks call s') ∧
      (s.calls.granted = [] →
        (∀ x ∈ s.calls.waiting, s.catalog.isWoken x.acquisition x.ticket = false) →
        s.calls.waiting = []) :=
  ⟨h.orderly.no_ring, fun _ member => h.orderly.exists_unlocks member, h.orderly.nobody_waits⟩

def crowded : Traffic :=
  (((start 1).lock .root .exclusive 0).lock .root .shared 1).lock .root .exclusive 2

theorem crowded_deadlock_free :
    (∃ x y z, crowded.WaitsFor x y ∧ crowded.WaitsFor y z) ∧
      ∀ x, ¬ Relation.TransGen crowded.WaitsFor x x := by
  have reachable : Reachable 1 crowded := by
    refine .next (.next (.next .start (.lock _ _ _ ?_)) (.lock _ _ _ ?_)) (.lock _ _ _ ?_)
    all_goals decide +kernel
  let writer : Call :=
    ⟨0, { path := .root, mode := .exclusive, target := 0, taken := [(0, .exclusive)],
          pending := [] }⟩
  let reader : Call :=
    ⟨1, { path := .root, mode := .shared, target := 0, pending := [(0, .shared)] }⟩
  let second : Call :=
    ⟨2, { path := .root, mode := .exclusive, target := 0, pending := [(0, .exclusive)] }⟩
  have reading : crowded.StandsAt reader 0 0 := ⟨by decide +kernel, by decide +kernel⟩
  have writing : crowded.StandsAt second 0 1 := ⟨by decide +kernel, by decide +kernel⟩
  refine ⟨⟨second, reader, writer, ⟨0, 1, writing, ?_, .inr ⟨0, Nat.one_pos, reading⟩⟩,
    ⟨0, 0, reading, ?_, .inl ?_⟩⟩, (deadlock_free reachable).1⟩
  all_goals decide +kernel

end Traffic

end DistFs
