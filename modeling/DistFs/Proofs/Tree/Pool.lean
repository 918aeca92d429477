import DistFs.Proofs.Service.Replicas
/-!
# Containers from the pool

Which container a search finds, and what it leaves of the pool. The pool is searched in order, and
only after it the tree, as a walk meets the homes and the copies there. A container that is given
back goes to where the oldest one stands, so that an attempt that comes to nothing leaves the pool
as it was.
-/

namespace DistFs

namespace Container

variable {d : Container} {l l' : List Container}

def Distinct (l : List Container) : Prop := l.Pairwise fun c d => c.endpoints ≠ d.endpoints

theorem distinct_nil : Distinct [] := List.Pairwise.nil

theorem distinct_singleton (d : Container) : Distinct [d] := List.pairwise_singleton _ _

theorem distinct_cons : Distinct (d :: l) ↔ d.isIn l = false ∧ Distinct l := by
  unfold Distinct
  rw [List.pairwise_cons]
  refine and_congr_left fun _ => ?_
  rw [← Bool.not_eq_true, isIn_iff]
  constructor
  · rintro apart ⟨c, member, same⟩
    exact apart c member same.symm
  · exact fun absent c member same => absent ⟨c, member, same.symm⟩

theorem Distinct.perm (h : Distinct l) (perm : l.Perm l') : Distinct l' :=
  (perm.pairwise_iff fun apart same => apart same.symm).mp h

theorem distinct_concat : Distinct (l ++ [d]) ↔ Distinct l ∧ d.isIn l = false := by
  have turned : Distinct (l ++ [d]) ↔ Distinct (d :: l) :=
    ⟨fun h => h.perm (List.perm_append_singleton d l),
      fun h => h.perm (List.perm_append_singleton d l).symm⟩
  rw [turned, distinct_cons, and_comm]

end Container

namespace Tree

open Container

variable {t u : Tree} {c d : Container} {excluded : List Container}

def met (t : Tree) : List Container :=
  t.reachable.flatMap fun n => (t.node n).home.toList ++ (t.node n).replicas

/-- What a search finds, and what it leaves of the pool: the first container in the pool that is not
excluded, or else the first one in the tree. -/
inductive Drawn (t : Tree) (excluded : List Container) : Option (Container × Bool) × Tree → Prop
  | pooled {c : Container} {before after : List Container} (split : t.pool = before ++ c :: after)
      (passed : ∀ d ∈ before, d.isIn excluded = true) (wanted : c.isIn excluded = false) :
      Drawn t excluded (some (c, true), { t with pool := before ++ after })
  | met {c : Container} (drained : ∀ d ∈ t.pool, d.isIn excluded = true)
      (first : t.met.find? (fun d => !d.isIn excluded) = some c) :
      Drawn t excluded (some (c, false), t)
  | nothing (drained : ∀ d ∈ t.pool, d.isIn excluded = true)
      (spent : ∀ d ∈ t.met, d.isIn excluded = true) : Drawn t excluded (none, t)

theorem takeAvailable_pooled {before after : List Container} (split : t.pool = before ++ c :: after)
    (passed : ∀ d ∈ before, d.isIn excluded = true) (wanted : c.isIn excluded = false) :
    t.takeAvailable excluded = (some (c, true), { t with pool := before ++ after }) := by
  have pooled : t.pool.find? (fun c : Container => !c.isIn excluded) = some c :=
    List.find?_eq_some_iff_append.mpr
      ⟨by simp [wanted], before, after, split, by simpa using passed⟩
  have rest : t.pool.eraseP (fun c : Container => !c.isIn excluded) = before ++ after := by
    rw [split, List.eraseP_append_right _ fun d member => by simp [passed d member],
      List.eraseP_cons_of_pos (by simp [wanted])]
  simp only [takeAvailable, pooled, rest]

theorem takeAvailable_drained (drained : ∀ d ∈ t.pool, d.isIn excluded = true) :
    t.takeAvailable excluded =
      ((t.met.find? fun d => !d.isIn excluded).map (·, false), t) := by
  have pooled : t.pool.find? (fun c : Container => !c.isIn excluded) = none :=
    List.find?_eq_none.mpr (by simpa using drained)
  simp only [takeAvailable, pooled]
  rfl

theorem takeAvailable_drawn (t : Tree) (excluded : List Container) :
    t.Drawn excluded (t.takeAvailable excluded) := by
  cases pooled : t.pool.find? fun c : Container => !c.isIn excluded with
  | some c =>
    obtain ⟨wanted, before, after, split, passed⟩ := List.find?_eq_some_iff_append.mp pooled
    rw [Bool.not_eq_true'] at wanted
    have passed' : ∀ d ∈ before, d.isIn excluded = true := by simpa using passed
    rw [takeAvailable_pooled split passed' wanted]
    exact .pooled split passed' wanted
  | none =>
    have drained : ∀ d ∈ t.pool, d.isIn excluded = true := by
      simpa using List.find?_eq_none.mp pooled
    rw [takeAvailable_drained drained]
    cases first : t.met.find? fun c : Container => !c.isIn excluded with
    | some c => exact .met drained first
    | none => exact .nothing drained (by simpa using List.find?_eq_none.mp first)

theorem Drawn.distinct {fromPool : Bool} (drawn : t.Drawn excluded (some (c, fromPool), u))
    (distinct : Distinct t.pool) :
    Distinct u.pool ∧ (fromPool = true → c.isIn u.pool = false) := by
  cases drawn with
  | met => exact ⟨distinct, nofun⟩
  | @pooled _ before after split =>
    have apart := distinct_cons.mp (distinct.perm (split ▸ List.perm_middle))
    exact ⟨apart.2, fun _ => apart.1⟩

theorem Drawn.wanted {fromPool : Bool} (drawn : t.Drawn excluded (some (c, fromPool), u)) :
    c.isIn excluded = false := by
  cases drawn with
  | pooled split passed wanted => exact wanted
  | met drained first => simpa using List.find?_some first

theorem pool_returnToPool (t : Tree) (d : Container) :
    t.returnToPool d = { t with pool := if d.isIn t.pool then t.pool else d :: t.pool } := by
  unfold returnToPool
  split <;> rfl

theorem pool_addToPool (t : Tree) (d : Container) :
    t.addToPool d = { t with pool := if d.isIn t.pool then t.pool else t.pool ++ [d] } := by
  unfold addToPool
  split <;> rfl

theorem distinct_addToPool (distinct : Distinct t.pool) (d : Container) :
    Distinct (t.addToPool d).pool := by
  rw [pool_addToPool]
  cases listed : d.isIn t.pool with
  | true => exact distinct
  | false => exact distinct_concat.mpr ⟨distinct, listed⟩

theorem Drawn.given_back {fromPool : Bool} (drawn : t.Drawn excluded (some (c, fromPool), u)) :
    ∃ pool, (if fromPool then u.returnToPool c else u) = { t with pool } ∧
      (∀ d : Container, d.isIn pool = d.isIn t.pool) ∧ (Distinct t.pool → pool.Perm t.pool) := by
  cases drawn with
  | met => exact ⟨t.pool, rfl, fun _ => rfl, fun _ => .refl _⟩
  | @pooled _ before after split passed wanted =>
    let left : Tree := { t with pool := before ++ after }
    have drawn : t.Drawn excluded (some (c, true), left) := .pooled split passed wanted
    have back := pool_returnToPool left c
    refine ⟨(left.returnToPool c).pool, by rw [if_pos rfl, back], fun d => ?_, fun distinct => ?_⟩
    · rw [isIn_returnToPool, isIn_perm (split ▸ List.perm_middle : t.pool.Perm _), isIn_cons]
    · rw [back, split]
      simp only [(drawn.distinct distinct).2 rfl, Bool.false_eq_true, if_false]
      exact List.perm_middle.symm

end Tree

end DistFs
