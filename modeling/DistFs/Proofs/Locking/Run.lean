import DistFs.Proofs.Locking.Soundness
import DistFs.Proofs.Tree.Operations
/-!
# Runs of a directory tree under locks

The requests of any number of clients, in any order: each runs until it has to wait, goes on
whenever it likes, and is unlocked at some time after it was granted. In between the tree grows, and
those who wait may be sent away. No node is removed and no request is dropped.
-/

namespace DistFs

structure Traffic where
  catalog : Catalog
  calls : Calls := {}

namespace Traffic

variable {s s' : Traffic} {call : Call} {threshold : Nat}

abbrev Sound (s : Traffic) (strict : Prop) : Prop := s.catalog.Sound s.calls strict

def start (threshold : Nat) : Traffic := { catalog := .empty threshold }

def lock (s : Traffic) (p : Path) (mode : LockMode) (ticket : Ticket) : Traffic :=
  let (answer, catalog) := s.catalog.lock p mode ticket
  { catalog, calls := s.calls.note ticket p mode catalog answer }

def resume (s : Traffic) (call : Call) : Traffic :=
  let (answer, catalog) := s.catalog.resume call.acquisition call.ticket
  { catalog
    calls := (s.calls.leave call.ticket).note call.ticket call.acquisition.path
      call.acquisition.mode catalog answer }

/-- An unlock that succeeds ends the request. That it does is proved (`Orderly.exists_unlocks`). -/
structure Unlocks (s : Traffic) (call : Call) (s' : Traffic) : Prop where
  answer : s.catalog.unlock call.acquisition.path call.acquisition.mode = (.ok (), s'.catalog)
  calls : s'.calls = s.calls.close call.ticket

def setTree (s : Traffic) (tree : Tree) : Traffic := { s with catalog := { s.catalog with tree } }

def interrupt (s : Traffic) : Traffic := { s with catalog := s.catalog.interrupt.2 }

inductive Step : Traffic → Traffic → Prop
  | lock (s : Traffic) (p : Path) (mode : LockMode) {ticket : Ticket}
      (fresh : ticket ∉ s.calls.tickets) : Step s (s.lock p mode ticket)
  | resume (s : Traffic) {call : Call} (member : call ∈ s.calls.waiting) : Step s (s.resume call)
  | unlock {s s' : Traffic} {call : Call} (member : call ∈ s.calls.granted)
      (unlocks : s.Unlocks call s') : Step s s'
  | add (s : Traffic) {p : Path} {kind : NodeKind} {container : Option Container} {n : NodeId}
      {u : Tree} (made : s.catalog.tree.add p kind container = .ok (n, u)) : Step s (s.setTree u)
  | register (s : Traffic) (p : Path) (container : Container) :
      Step s (s.setTree (s.catalog.tree.register p container).2)
  | interrupt (s : Traffic) : Step s s.interrupt

inductive Reachable (threshold : Nat) : Traffic → Prop
  | start : Reachable threshold (start threshold)
  | next {s s' : Traffic} (before : Reachable threshold s) (step : Step s s') :
      Reachable threshold s'

structure Orderly (s : Traffic) : Prop where
  sound : s.Sound True
  located : s.catalog.Located s.calls

def ofTree (tree : Tree) : Traffic := { catalog := { tree } }

theorem orderly_ofTree {tree : Tree} (wf : tree.WellFormed) : (ofTree tree).Orderly := by
  refine ⟨⟨wf, ⟨?_, ?_, ?_, .nil, .nil⟩, fun n => ?_⟩, ?_⟩
  · simp [ofTree, Calls.current]
  · simp [ofTree]
  · simp [ofTree]
  · have free : ((ofTree tree).catalog.locks.get n) = {} := rfl
    rw [free]
    refine ⟨⟨fun mode => ?_, ?_, ?_, ?_, ?_, ?_⟩, ?_⟩
    · cases mode <;> exact ⟨Nat.le_refl 0, fun _ => rfl⟩
    all_goals simp
  · simp [Catalog.Located, ofTree, Calls.current]

theorem orderly_start (threshold : Nat) : (start threshold).Orderly :=
  orderly_ofTree (Tree.wellFormed_empty threshold)

namespace Orderly

theorem lock (h : s.Orderly) (p : Path) (mode : LockMode) {ticket : Ticket}
    (fresh : ticket ∉ s.calls.tickets) : (s.lock p mode ticket).Orderly :=
  ⟨h.sound.lock p mode fresh, h.located.lock h.sound p mode fresh⟩

theorem resume (h : s.Orderly) (member : call ∈ s.calls.waiting) : (s.resume call).Orderly :=
  ⟨h.sound.resume member, h.located.resume h.sound member⟩

theorem exists_unlocks (h : s.Orderly) (member : call ∈ s.calls.granted) :
    ∃ s', s.Unlocks call s' := by
  obtain ⟨locks, holds, done, -⟩ := h.sound.unlock h.located member
  exact ⟨⟨{ s.catalog with locks, holds }, s.calls.close call.ticket⟩, done, rfl⟩

theorem unlocks_eq (h : s.Orderly) (member : call ∈ s.calls.granted) (unlocks : s.Unlocks call s') :
    ∃ locks holds, s' = ⟨{ s.catalog with locks, holds }, s.calls.close call.ticket⟩ ∧
      ({ s.catalog with locks, holds } : Catalog).Sound (s.calls.close call.ticket) True := by
  obtain ⟨locks, holds, done, sound⟩ := h.sound.unlock h.located member
  obtain ⟨catalog, calls⟩ := s'
  obtain ⟨answer, rfl⟩ := unlocks
  obtain rfl : catalog = _ := congrArg Prod.snd (answer.symm.trans done)
  exact ⟨locks, holds, rfl, sound⟩

theorem unlock (h : s.Orderly) (member : call ∈ s.calls.granted) (unlocks : s.Unlocks call s') :
    s'.Orderly := by
  obtain ⟨locks, holds, rfl, sound⟩ := h.unlocks_eq member unlocks
  exact ⟨sound, h.located.close call.ticket⟩

theorem setTree {u : Tree} (h : s.Orderly) (wf : u.WellFormed) (grows : s.catalog.tree.Grows u) :
    (s.setTree u).Orderly :=
  ⟨h.sound.of_tree wf grows.toExtends, h.located.grow h.sound.tree wf grows⟩

theorem interrupt (h : s.Orderly) : s.interrupt.Orderly := ⟨h.sound.interrupt, h.located⟩

theorem step (h : s.Orderly) (step : Step s s') : s'.Orderly := by
  cases step with
  | lock p mode fresh => exact h.lock p mode fresh
  | resume member => exact h.resume member
  | unlock member unlocks => exact h.unlock member unlocks
  | add made =>
    have grown := Tree.add_grown h.sound.tree made
    exact h.setTree (grown.wellFormed h.sound.tree) grown.grows
  | register p container =>
    have grown := (Tree.register_grown h.sound.tree p container).1
    exact h.setTree (grown.wellFormed (h.sound.tree.settleRoot container))
      ((Tree.settleRoot_grows _ container).trans grown.grows)
  | interrupt => exact h.interrupt

end Orderly

theorem Reachable.orderly (h : Reachable threshold s) : s.Orderly := by
  induction h with
  | start => exact orderly_start threshold
  | next _ step ih => exact ih.step step

end Traffic

end DistFs
