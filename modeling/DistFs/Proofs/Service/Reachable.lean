import DistFs.Proofs.Locking.Stalled
import DistFs.Proofs.Service.Requests
/-!
# What a naming server may come to

All calls on the naming server, whoever makes them and whenever. Requests for locks may go on out of
turn or be abandoned, paths are unlocked that nobody has locked, and the storage servers change in
between. The tree stays in order, and so do the lines of the locks.
-/

namespace DistFs

namespace Cluster

structure InShape (c : Cluster) : Prop where
  tidy : c.Tidy
  stalled : c.catalog.locks.Stalled

end Cluster

namespace Service

open Cluster

variable {s : Service} {config : NamingConfig} {strict : Prop}

theorem stalled_conclude {c : Cluster} {p : Path} {mode : LockMode} {result : LockAnswer × Catalog}
    (stalled : result.2.locks.Stalled) : (c.conclude p mode result).2.catalog.locks.Stalled :=
  stalled.changed (changed_conclude result.2.locks.newOutside_everywhere)

theorem stalled_of_lockFree {c c' : Cluster} (stalled : c.catalog.locks.Stalled)
    (free : c.LockFree c') : c'.catalog.locks.Stalled := by
  rw [free.catalog]
  exact stalled

theorem stalled_step (tidy : s.cluster.Tidy) (stalled : s.cluster.catalog.locks.Stalled)
    (e : Event) : (s.step e).cluster.catalog.locks.Stalled := by
  cases e with
  | lock p mode ticket =>
    change (s.cluster.lock p mode ticket).2.catalog.locks.Stalled
    rcases s.cluster.lock_cases p mode ticket with same | same <;> rw [same]
    · exact stalled
    · exact stalled_conclude (Catalog.stalled_lock stalled p mode ticket)
  | resume call => exact stalled_conclude (Catalog.stalled_resume stalled _ _)
  | abandon call => exact Catalog.stalled_abandon stalled call.acquisition call.ticket
  | unlock p mode => exact Catalog.stalled_unlock stalled p mode
  | createFile p => exact stalled_of_lockFree stalled (.createFile tidy p)
  | createDirectory p => exact stalled_of_lockFree stalled (.createDirectory tidy p)
  | delete p => exact stalled_of_lockFree stalled (.delete tidy p)
  | storageOf p => exact stalled_of_lockFree stalled (.storageOf tidy p)
  | register container files => exact stalled_of_lockFree stalled (.register tidy container files)
  | servers servers => exact stalled
  | start =>
    obtain ⟨cluster, result, same, -⟩ := s.step_start
    rw [result]
    change cluster.catalog.locks.Stalled
    rwa [same]
  | stop =>
    change s.cluster.stop.catalog.locks.Stalled
    rw [catalog_stop]
    exact Catalog.stalled_interrupt stalled

abbrev Reachable (config : NamingConfig) : Service → Prop := Reached (fun _ _ => True) config

theorem Reachable.inShape (reached : Reachable config s) : s.cluster.InShape := by
  induction reached with
  | start servers => exact ⟨tidy_empty config servers, LockTable.stalled_empty⟩
  | next _ _ ih => exact ⟨tidy_step ih.tidy _, stalled_step ih.tidy ih.stalled _⟩

theorem Requested.reachable (requested : Requested config strict s) : Reachable config s :=
  requested.mono fun _ _ _ => trivial

end Service

end DistFs
