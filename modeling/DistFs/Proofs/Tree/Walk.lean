import DistFs.Proofs.Tree.Shape
import Mathlib.Logic.Relation

namespace DistFs

namespace Tree

variable {t u : Tree} {n m : Nat}

theorem weight_congr (same : t.size = u.size) (todo : List NodeId) :
    t.weight todo = u.weight todo := by
  induction todo with
  | nil => rfl
  | cons n rest ih => rw [weight, weight, same, ih]

abbrev Below (t : Tree) : NodeId → NodeId → Prop :=
  Relation.ReflTransGen fun k m => m ∈ t.children k

theorem mem_walk (todo : List NodeId) :
    n ∈ t.walk todo ↔ ∃ m ∈ todo, t.Below m n := by
  induction todo using Tree.walk.induct t with
  | case1 => simp [walk]
  | case2 m rest ih =>
      rw [walk, List.mem_cons, ih]
      constructor
      · intro visited
        cases visited with
        | inl same => exact ⟨m, List.mem_cons_self, same ▸ .refl⟩
        | inr later =>
            obtain ⟨k, member, below⟩ := later
            cases List.mem_append.mp member with
            | inl child => exact ⟨m, List.mem_cons_self, .head child below⟩
            | inr waiting => exact ⟨k, List.mem_cons_of_mem m waiting, below⟩
      · intro reached
        obtain ⟨k, member, below⟩ := reached
        cases List.mem_cons.mp member with
        | inr waiting => exact .inr ⟨k, List.mem_append_right _ waiting, below⟩
        | inl same =>
            subst same
            cases below.cases_head with
            | inl here => exact .inl here.symm
            | inr deeper =>
                obtain ⟨l, child, below⟩ := deeper
                exact .inr ⟨l, List.mem_append_left _ child, below⟩

theorem mem_reachable (wf : t.WellFormed) : n ∈ t.reachable ↔ t.Attached n := by
  unfold reachable
  rw [mem_walk]
  simp only [List.mem_singleton, exists_eq_left]
  constructor
  · intro below
    induction below with
    | refl => exact wf.attached_root
    | tail _ child ih =>
        obtain ⟨known, linked, entry⟩ := (mem_children wf).mp child
        exact (entry.attached_iff wf known).mpr ⟨linked, ih⟩
  · intro attached
    apply wf.induct (motive := fun n => t.Attached n → t.Below rootId n) _ _ n attached.known
      attached
    · intro _
      exact .refl
    · intro m n known entry ih attached
      obtain ⟨linked, above⟩ := (entry.attached_iff wf known).mp attached
      exact (ih above).tail ((mem_children wf).mpr ⟨known, linked, entry⟩)

end Tree

end DistFs
