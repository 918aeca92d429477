import DistFs.Proofs.Locking.Ledger
import Mathlib.Logic.Relation

namespace DistFs

namespace Acquisition

variable {t : Tree} {a b : Acquisition}

def Takes (t : Tree) (a b : Acquisition) : Prop :=
  ∃ n mode rest, a.pending = (n, mode) :: rest ∧ b = a.take t n mode rest

abbrev Reaches (t : Tree) : Acquisition → Acquisition → Prop :=
  Relation.ReflTransGen (Takes t)

/-- Bounds how often a request can still have to wait. -/
def effort (a : Acquisition) (t : Tree) : Nat := t.weight (a.pending.map Prod.fst)

theorem effort_pos (t : Tree) (pending : a.pending ≠ []) : 0 < a.effort t := by
  unfold effort
  cases next : a.pending with
  | nil => exact absurd next pending
  | cons x rest => exact Nat.add_pos_left (Tree.toll_pos _) _

theorem Takes.effort_lt (taken : a.Takes t b) : b.effort t < a.effort t := by
  obtain ⟨n, mode, rest, pending, rfl⟩ := taken
  have below := t.weight_children n
  have self := Tree.toll_pos (t.size - n)
  unfold effort
  rw [pending, List.map_cons, Tree.weight]
  cases mode with
  | shared =>
    simp only [take, List.append_nil]
    omega
  | exclusive =>
    simp only [take, List.map_append, List.map_map, Tree.weight_append, Function.comp_def,
      List.map_id']
    omega

theorem Reaches.effort_le (reached : a.Reaches t b) : b.effort t ≤ a.effort t := by
  induction reached with
  | refl => exact Nat.le_refl _
  | tail _ taken ih => exact Nat.le_trans (Nat.le_of_lt taken.effort_lt) ih

end Acquisition

deriving instance DecidableEq for LockProgress

namespace LockProgress

def acquisition : LockProgress → Acquisition
  | .granted a | .waiting a | .interrupted a _ => a

structure ComesFrom (t : Tree) (a : Acquisition) (progress : LockProgress) : Prop where
  reached : a.Reaches t progress.acquisition
  done_iff : progress.acquisition.pending = [] ↔ progress = .granted progress.acquisition

theorem ComesFrom.of_takes {t : Tree} {a b : Acquisition} {progress : LockProgress}
    (h : progress.ComesFrom t b) (first : a.Takes t b) : progress.ComesFrom t a :=
  ⟨.head first h.reached, h.done_iff⟩

end LockProgress

namespace LockTable

variable {table table' : LockTable} {t : Tree} {waits : Waits} {ticket : Ticket}
  {held held' given : List (NodeId × LockMode)} {a : Acquisition} {n : Nat} {mode : LockMode}
  {l : Lock} {strict : Prop}

def Balanced (table : LockTable) (waits : Waits) (held : List (NodeId × LockMode))
    (strict : Prop) : Prop :=
  ∀ n : Nat, (table.get n).Settled n waits held strict

namespace Balanced

theorem of_perm (h : table.Balanced waits held strict) (perm : held'.Perm held) :
    table.Balanced waits held' strict :=
  fun n => (h n).of_held fun _ => perm.count_eq _

theorem set (settled : l.Settled n waits held strict)
    (others : ∀ m : Nat, m ≠ n → (table.get m).Settled m waits held strict) :
    (table.set n l).Balanced waits held strict := by
  intro m
  rw [get_set]
  split
  next same => exact same ▸ settled
  next other => exact others m other

theorem count_cons_other {m : Nat} (other : m ≠ n) (mode mode' : LockMode) :
    ((n, mode) :: held).count (m, mode') = held.count (m, mode') := by
  rw [List.count_cons_of_ne]
  exact fun same => other (Prod.mk.inj same).1.symm

theorem hold (h : table.Balanced waits held strict)
    (answer : (table.get n).acquire mode ticket = (.granted, l)) :
    (table.set n l).Balanced waits ((n, mode) :: held) strict :=
  set ((h n).acquire_granted answer) fun m other =>
    (h m).of_held fun mode' => count_cons_other other mode mode'

theorem wait (h : table.Balanced waits held strict) (new : waits ticket = none)
    (answer : (table.get n).acquire mode ticket = (.waiting, l)) :
    (table.set n l).Balanced (waits.set ticket (some (n, mode))) held strict :=
  set ((h n).acquire_waiting new answer) fun m _ => (h m).elsewhere (by simp [new])

theorem away {m : Nat} (place : waits ticket = some (n, mode)) (other : m ≠ n) (mode' : LockMode) :
    waits ticket ≠ some (m, mode') := by
  rw [place]
  exact fun same => other (Prod.mk.inj (Option.some.inj same)).1.symm

theorem notice_granted (h : table.Balanced waits held strict)
    (place : waits ticket = some (n, mode))
    (answer : (table.get n).notice ticket = (.granted, l)) :
    (table.set n l).Balanced (waits.set ticket none) ((n, mode) :: held) strict :=
  set ((h n).notice_granted place answer) fun m other =>
    ((h m).elsewhere (away place other)).of_held fun mode' => count_cons_other other mode mode'

theorem notice_interrupted (h : table.Balanced waits held strict)
    (place : waits ticket = some (n, mode))
    (answer : (table.get n).notice ticket = (.interrupted, l)) :
    table.Balanced (waits.set ticket none) held strict := by
  intro m
  by_cases other : m = n
  · subst other
    exact (h m).notice_interrupted answer
  · exact (h m).elsewhere (away place other)

theorem release (h : table.Balanced waits held strict) (owned : (n, mode) ∈ held) :
    (∃ l, (table.get n).release mode = some l ∧
        (table.set n l).Balanced waits (held.erase (n, mode)) strict) ∨
      (table.get n).release mode = none ∧ ¬ Exact strict mode ∧
        table.Balanced waits (held.erase (n, mode)) strict := by
  have others (m : Nat) (other : m ≠ n) :
      (table.get m).Settled m waits (held.erase (n, mode)) strict := by
    refine (h m).of_held fun mode' => ?_
    rw [List.count_erase_of_ne]
    exact fun same => other (Prod.mk.inj same).1
  cases (h n).release_owned owned with
  | inl given =>
    obtain ⟨l, released, settled⟩ := given
    exact .inl ⟨l, released, set settled others⟩
  | inr missing =>
    obtain ⟨none, loose, settled⟩ := missing
    refine .inr ⟨none, loose, fun m => ?_⟩
    by_cases same : m = n
    · exact same ▸ settled
    · exact others m same

theorem release_stray (h : table.Balanced waits held strict) (loose : ¬ strict)
    (answer : (table.get n).release .shared = some l) :
    (table.set n l).Balanced waits held strict :=
  set ((h n).release_stray loose answer) fun m _ => h m

theorem close (h : table.Balanced waits held strict) (n : Nat) :
    (table.set n (table.get n).close).Balanced waits held strict :=
  set (h n).close fun m _ => h m

theorem close_all (h : table.Balanced waits held strict) (nodes : List NodeId) :
    (nodes.foldl (fun locks n => locks.set n (locks.get n).close) table).Balanced waits held
      strict := by
  induction nodes generalizing table with
  | nil => exact h
  | cons n rest ih => exact ih (h.close n)

theorem releaseAll (h : table.Balanced waits (given ++ held) strict) :
    (strict → (table.releaseAll given).1 = none) ∧
      (table.releaseAll given).2.Balanced waits held strict := by
  induction given generalizing table with
  | nil => exact ⟨fun _ => rfl, h⟩
  | cons x rest ih =>
    obtain ⟨n, mode⟩ := x
    have owned := h.release List.mem_cons_self
    rw [List.cons_append, List.erase_cons_head] at owned
    rcases owned with ⟨l, released, balanced⟩ | ⟨missing, loose, balanced⟩
    · simp only [LockTable.releaseAll, released]
      exact ih balanced
    · simp only [LockTable.releaseAll, missing]
      exact ⟨fun exactly => absurd (.inl exactly) loose, (ih balanced).2⟩

end Balanced

/-! ## A request that goes on -/

inductive Goes (t : Tree) (ticket : Ticket) (waits : Waits) (held : List (NodeId × LockMode))
    (strict : Prop) (a : Acquisition) : LockProgress × LockTable → Prop
  | granted {b : Acquisition} {table : LockTable} (reached : a.Reaches t b) (done : b.pending = [])
      (balanced : table.Balanced (waits.set ticket none) (b.taken ++ held) strict) :
      Goes t ticket waits held strict a (.granted b, table)
  | waiting {b : Acquisition} {table : LockTable} {n : NodeId} {mode : LockMode}
      {rest : List (NodeId × LockMode)} (reached : a.Reaches t b)
      (pending : b.pending = (n, mode) :: rest)
      (balanced : table.Balanced (waits.set ticket (some (n, mode))) (b.taken ++ held) strict) :
      Goes t ticket waits held strict a (.waiting b, table)
  | interrupted {b : Acquisition} {table : LockTable} (n : NodeId)
      (balanced : table.Balanced (waits.set ticket none) (b.taken ++ held) strict) :
      Goes t ticket waits held strict a (.interrupted b n, table)

namespace Goes

variable {result : LockProgress × LockTable}

theorem of_takes {b : Acquisition} (first : a.Takes t b)
    (h : Goes t ticket waits held strict b result) :
    Goes t ticket waits held strict a result := by
  cases h with
  | granted reached done balanced => exact .granted (.head first reached) done balanced
  | waiting reached pending balanced => exact .waiting (.head first reached) pending balanced
  | interrupted n balanced => exact .interrupted n balanced

theorem of_waits (place : Option (NodeId × LockMode))
    (h : Goes t ticket (waits.set ticket place) held strict a result) :
    Goes t ticket waits held strict a result := by
  cases h with
  | granted reached done balanced => exact .granted reached done (waits.set_set .. ▸ balanced)
  | waiting reached pending balanced =>
    exact .waiting reached pending (waits.set_set .. ▸ balanced)
  | interrupted n balanced => exact .interrupted n (waits.set_set .. ▸ balanced)

end Goes

theorem advance_of_nil (done : a.pending = []) :
    table.advance t ticket a = (.granted a, table) := by
  rw [advance, done]

theorem advance_of_cons {rest : List (NodeId × LockMode)}
    (pending : a.pending = (n, mode) :: rest) :
    table.advance t ticket a =
      match (table.get n).acquire mode ticket with
      | (.granted, l) => (table.set n l).advance t ticket (a.take t n mode rest)
      | (.waiting, l) => (.waiting a, table.set n l)
      | (.refused, _) => (.interrupted a n, table) := by
  rewrite [advance, pending]
  rfl

theorem resume_of_cons {rest : List (NodeId × LockMode)} (pending : a.pending = (n, mode) :: rest) :
    table.resume t ticket a =
      match (table.get n).notice ticket with
      | (.granted, l) => (table.set n l).advance t ticket (a.take t n mode rest)
      | (.waiting, _) => (.waiting a, table)
      | (.interrupted, _) => (.interrupted a n, table) := by
  rewrite [resume, pending]
  rfl

theorem advance_comes (table : LockTable) (t : Tree) (ticket : Ticket) (a : Acquisition) :
    (table.advance t ticket a).1.ComesFrom t a := by
  induction table, a using LockTable.advance.induct t ticket with
  | case1 table a done =>
    rw [advance_of_nil done]
    exact ⟨.refl, iff_of_true done rfl⟩
  | case2 table a n mode rest pending l answer ih =>
    rw [advance_of_cons pending, answer]
    exact ih.of_takes ⟨n, mode, rest, pending, rfl⟩
  | case3 table a n mode rest pending l answer =>
    rw [advance_of_cons pending, answer]
    exact ⟨.refl, by simp [LockProgress.acquisition, pending]⟩
  | case4 table a n mode rest pending l answer =>
    rw [advance_of_cons pending, answer]
    exact ⟨.refl, by simp [LockProgress.acquisition, pending]⟩

theorem resume_comes (table : LockTable) (t : Tree) (ticket : Ticket) (a : Acquisition) :
    (table.resume t ticket a).1.ComesFrom t a := by
  cases pending : a.pending with
  | nil =>
    rw [resume, pending]
    exact ⟨.refl, iff_of_true pending rfl⟩
  | cons x rest =>
    obtain ⟨n, mode⟩ := x
    rw [resume_of_cons pending]
    cases (table.get n).notice ticket with
    | mk notice l =>
      cases notice with
      | granted => exact (advance_comes ..).of_takes ⟨n, mode, rest, pending, rfl⟩
      | waiting | interrupted => exact ⟨.refl, by simp [LockProgress.acquisition, pending]⟩

namespace Balanced

theorem perm_take (taken held : List (NodeId × LockMode)) (x : NodeId × LockMode) :
    ((taken ++ [x]) ++ held).Perm (x :: (taken ++ held)) := by
  rw [List.append_assoc]
  exact List.perm_middle

theorem advance (h : table.Balanced waits (a.taken ++ held) strict) (new : waits ticket = none) :
    Goes t ticket waits held strict a (table.advance t ticket a) := by
  induction table, a using LockTable.advance.induct t ticket with
  | case1 table a done =>
    rw [advance_of_nil done]
    exact .granted .refl done (by rwa [Waits.set_eq_self new])
  | case2 table a n mode rest pending l answer ih =>
    rw [advance_of_cons pending, answer]
    refine .of_takes ⟨n, mode, rest, pending, rfl⟩ (ih ?_)
    exact (h.hold answer).of_perm (perm_take _ _ _)
  | case3 table a n mode rest pending l answer =>
    rw [advance_of_cons pending, answer]
    exact .waiting .refl pending (h.wait new answer)
  | case4 table a n mode rest pending l answer =>
    rw [advance_of_cons pending, answer]
    exact .interrupted n (by rwa [Waits.set_eq_self new])

theorem resume (h : table.Balanced waits (a.taken ++ held) strict)
    (place : waits ticket = a.pending.head?) :
    Goes t ticket waits held strict a (table.resume t ticket a) := by
  cases pending : a.pending with
  | nil =>
    rw [LockTable.resume, pending]
    exact .granted .refl pending (by rwa [Waits.set_eq_self (place.trans (by rw [pending]; rfl))])
  | cons x rest =>
    obtain ⟨n, mode⟩ := x
    replace place : waits ticket = some (n, mode) := by rw [place, pending]; rfl
    rw [resume_of_cons pending]
    cases answer : (table.get n).notice ticket with
    | mk notice l =>
      cases notice with
      | granted =>
        -- From here on the request goes on like one that has never waited.
        refine .of_takes ⟨n, mode, rest, pending, rfl⟩ (.of_waits none ?_)
        refine advance ?_ (Waits.set_self ..)
        exact (h.notice_granted place answer).of_perm (perm_take _ _ _)
      | waiting => exact .waiting .refl pending (by rwa [Waits.set_eq_self place])
      | interrupted => exact .interrupted n (h.notice_interrupted place answer)

end Balanced

end LockTable

end DistFs
