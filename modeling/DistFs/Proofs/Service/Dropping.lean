import DistFs.Proofs.Service.Reachable
import DistFs.Proofs.Tree.Containers
/-!
# Clients that go away

A client may go away while it waits for a lock, which is then never noticed if it is granted all the
same. Even so, nobody ever locks a node before it is made, so that every new node is open.
-/

namespace DistFs

theorem Calls.mem_waiting_note {calls : Calls} {ticket : Ticket} {p : Path} {mode : LockMode}
    {c : Catalog} {answer : LockAnswer} {call : Call}
    (member : call ∈ (calls.note ticket p mode c answer).waiting) :
    call ∈ calls.waiting ∨ answer = .waiting call.acquisition := by
  cases answer with
  | granted target => exact .inl member
  | waiting a =>
    refine (List.mem_append.mp member).imp_right fun last => ?_
    rw [List.mem_singleton.mp last]
  | failed e => exact .inl member

namespace Service

variable {s s' : Service} {call : Call} {config : NamingConfig} {strict : Prop}

def GoesAway (s : Service) : Event → Prop
  | .abandon call => call ∈ s.calls.waiting
  | _ => False

instance (s : Service) : (e : Event) → Decidable (s.GoesAway e)
  | .abandon call => inferInstanceAs (Decidable (call ∈ s.calls.waiting))
  | .lock .. | .resume _ | .unlock .. | .createFile _ | .createDirectory _ | .delete _
  | .storageOf _ | .register .. | .servers _ | .start | .stop => inferInstanceAs (Decidable False)

abbrev Visited (config : NamingConfig) : Service → Prop :=
  Reached (fun s e => s.Admits False e ∨ s.GoesAway e) config

theorem Visited.reachable (visited : Visited config s) : Reachable config s :=
  visited.mono fun _ _ _ => trivial

structure Within (s : Service) : Prop where
  new : s.cluster.catalog.locks.NewBeyond s.tree
  waiting : ∀ call ∈ s.calls.waiting, call.acquisition.Inside s.tree

namespace Within

theorem conclude {calls : Calls} {ticket : Ticket} {p : Path} {mode : LockMode}
    {result : LockAnswer × Catalog} (tidy : s.cluster.Tidy) (same : result.2.tree = s.tree)
    (new : result.2.locks.NewBeyond s.tree)
    (waiting : ∀ call ∈ calls.waiting, call.acquisition.Inside s.tree)
    (waits : ∀ a, result.1 = .waiting a → a.Inside s.tree) :
    Within ⟨(s.cluster.conclude p mode result).2,
      s.cluster.callsThen calls ticket p mode result⟩ := by
  have size := Nat.le_of_eq (tidy.size_conclude p mode same).symm
  refine ⟨((Cluster.changed_conclude new).newOutside new).grow size, fun call member => ?_⟩
  rw [Cluster.waiting_callsThen] at member
  rcases Calls.mem_waiting_note member with before | last
  · exact (waiting call before).grow size
  · exact (waits _ last).grow size

theorem effect (h : s.Within) (tidy : s.cluster.Tidy) (effect : Effect strict s s') :
    s'.Within := by
  cases effect with
  | @lock p mode ticket fresh =>
    rcases s.lock_cases p mode ticket with same | same <;> rw [same]
    · exact ⟨h.new, h.waiting⟩
    · refine conclude tidy (Catalog.tree_lock ..) ?_ h.waiting fun a =>
        Catalog.inside_lock tidy.wellFormed
      exact (Catalog.changed_lock h.new fun n =>
        Catalog.inside_start tidy.wellFormed).newOutside h.new
  | @resume call member =>
    have inside := h.waiting call member
    refine conclude tidy (Catalog.tree_resume ..) ?_ (fun other listed => ?_) fun a =>
      Catalog.inside_resume inside
    · exact (Catalog.changed_resume h.new inside _).newOutside h.new
    · exact h.waiting other (List.mem_of_mem_filter listed)
  | unlock p mode owned =>
    refine ⟨?_, fun call member => ?_⟩
    · rw [tree_unlock]
      exact (Catalog.changed_unlock h.new p mode).newOutside h.new
    · rw [tree_unlock]
      refine h.waiting call ?_
      rwa [unlock, Catalog.waiting_callsAfter] at member
  | @lockFree c free =>
    refine ⟨?_, fun call member => (h.waiting call member).grow free.extended.size⟩
    change c.catalog.locks.NewBeyond c.tree
    rw [free.catalog]
    exact h.new.grow free.extended.size
  | stop =>
    refine ⟨?_, fun call member => ?_⟩
    · rw [tree_stop]
      change s.cluster.stop.catalog.locks.NewBeyond s.tree
      rw [Cluster.catalog_stop]
      have known (n : NodeId) (visited : n ∈ s.tree.reachable) : n < s.tree.size :=
        ((Tree.mem_reachable tidy.wellFormed).mp visited).known
      exact (Catalog.changed_interrupt known).newOutside h.new
    · rw [tree_stop]
      exact h.waiting call member

theorem abandon (h : s.Within) (member : call ∈ s.calls.waiting) : (s.abandon call).Within := by
  have same := s.tree_abandon call
  have changed := Catalog.changed_abandon (h.waiting call member) call.ticket
  refine ⟨same ▸ changed.newOutside h.new, fun other listed => ?_⟩
  rw [same]
  exact h.waiting other (List.mem_of_mem_filter listed)

theorem step {e : Event} (h : s.Within) (tidy : s.cluster.Tidy)
    (may : s.Admits False e ∨ s.GoesAway e) : (s.step e).Within := by
  rcases may with admitted | left
  · exact h.effect tidy (admitted.effect tidy)
  · cases e with
    | abandon call => exact h.abandon left
    | _ => exact left.elim

end Within

theorem Visited.within (visited : Visited config s) : s.Within := by
  induction visited with
  | start servers => exact ⟨fun n _ => LockTable.get_empty n, nofun⟩
  | next before may ih => exact ih.step (Visited.reachable before).inShape.tidy may

end Service

end DistFs
