import DistFs.Proofs.Service.ReadCount
/-!
# Lists of copies

The server that is to have a further copy of a file is chosen with the copies that there are, and
entered with those that there are once it has answered. In between the file may be read by others,
who choose the same server, and a file that is read no longer may be written.
-/

namespace DistFs

open Container

/-! ## What becomes of a list of copies -/

/-- A list of copies stays as it is, gains a container at its end, or is cut down to the first. -/
inductive Relisted : List Container → List Container → Prop
  | same (l : List Container) : Relisted l l
  | added {l : List Container} {d : Container} (source : l ≠ []) (other : d.isIn l = false) :
      Relisted l (l ++ [d])
  | reduced (l : List Container) : Relisted l (l.take 1)

namespace Relisted

variable {l l' : List Container}

theorem distinct (h : Relisted l l') (distinct : Distinct l) : Distinct l' := by
  cases h with
  | same => exact distinct
  | added source other => exact distinct_concat.mpr ⟨distinct, other⟩
  | reduced => exact distinct.sublist (List.take_sublist 1 l)

theorem head? (h : Relisted l l') : l'.head? = l.head? := by
  cases h with
  | same => rfl
  | added source other => exact List.head?_append_of_ne_nil l source
  | reduced => cases l <;> rfl

theorem ne_nil (h : Relisted l l') (some_copy : l ≠ []) : l' ≠ [] := by
  cases h with
  | same => exact some_copy
  | added => simp
  | reduced => simpa using some_copy

end Relisted

namespace Tree

variable {t : Tree} {n : NodeId}

theorem relisted_recordRead (t : Tree) (m n : NodeId) (s : Servers) :
    Relisted (t.node n).replicas ((t.recordRead m s).2.1.node n).replicas := by
  cases file : (t.node m).isFile with
  | false =>
    simp only [recordRead, file, Bool.not_false, if_true]
    exact .same _
  | true =>
    cases Nat.lt_or_ge ((t.node m).reads + 1) t.threshold with
    | inl more =>
      rw [recordRead_counted file more, replicas_counted]
      exact .same _
    | inr due =>
      rw [recordRead_attempted file due, ← replicas_counted t m n 0]
      have attempt := counted_attempt t m s
      generalize (t.counted m 0).replicate m (t.node m).replicas s = result at attempt ⊢
      cases attempt with
      | sourceless | placeless | refused => exact .same _
      | @copied first target fromPool pool source drawn other =>
        have node : (({ t.counted m 0 with pool } : Tree).copied m target).node n = _ :=
          node_modify ..
        rw [node]
        split
        next here =>
          obtain ⟨rfl, -⟩ := here
          refine .added (fun bare => ?_) other
          rw [bare] at source
          cases source
        next => exact .same _

theorem relisted_consolidate (t : Tree) (m n : NodeId) (s : Servers) :
    Relisted (t.node n).replicas ((t.consolidate m s).2.1.node n).replicas := by
  rw [consolidate_tree]
  split
  · rw [consolidated, node_modify]
    split
    · exact .reduced _
    · exact .same _
  · exact .same _

theorem beginCopy_eq (t : Tree) (replicas : List Container) :
    ∃ pool, (t.beginCopy replicas).2 = { t with pool } := by
  cases replicas with
  | nil => exact ⟨t.pool, rfl⟩
  | cons source rest =>
    have drawn := t.takeAvailable_drawn (source :: rest)
    simp only [beginCopy]
    generalize t.takeAvailable (source :: rest) = found at drawn
    cases drawn <;> exact ⟨_, rfl⟩

theorem beginCopy_source {replicas : List Container} {copying : Copying}
    (begun : (t.beginCopy replicas).1 = some copying) : replicas ≠ [] := by
  rintro rfl
  cases begun

/-- Whatever copies there are by then, the container is entered only if it is none of them. -/
theorem relisted_endCopy (some_copy : (t.node n).replicas ≠ []) (copying : Copying)
    (answer : Except Error Bool) (m : NodeId) :
    Relisted (t.node m).replicas ((t.endCopy n copying answer).2.node m).replicas := by
  by_cases done : answer = .ok true
  · subst done
    change Relisted _ ((t.modify n _).node m).replicas
    rw [node_modify]
    split
    next here =>
      obtain ⟨rfl, -⟩ := here
      by_cases listed : copying.target.isIn (t.node m).replicas = true
      · rw [if_pos listed]
        exact .same _
      · rw [if_neg listed]
        exact .added some_copy (Bool.eq_false_iff.mpr listed)
    next => exact .same _
  · rw [endCopy_refused t n copying done]
    obtain ⟨pool, back⟩ := returnToPool_eq t copying.target
    cases copying.fromPool with
    | true => exact back ▸ .same _
    | false => exact .same _

theorem size_endCopy (t : Tree) (n : NodeId) (copying : Copying) (answer : Except Error Bool) :
    (t.endCopy n copying answer).2.size = t.size := by
  by_cases done : answer = .ok true
  · subst done
    exact size_modify ..
  · rw [endCopy_refused t n copying done]
    obtain ⟨pool, back⟩ := returnToPool_eq t copying.target
    cases copying.fromPool with
    | true => exact back ▸ rfl
    | false => rfl

/-! ## Copies on their way -/

structure Underway where
  tree : Tree
  begun : List (NodeId × Copying) := []

namespace Underway

variable {s s' : Underway}

/-- Copies are begun and ended in any order, also of one file. In between the tree grows, and the
copies of a file are given up but for the first. -/
inductive Step : Underway → Underway → Prop
  | start (s : Underway) (n : NodeId) :
      Step s ⟨(s.tree.beginCopy (s.tree.node n).replicas).2,
        s.begun ++ ((s.tree.beginCopy (s.tree.node n).replicas).1.map (n, ·)).toList⟩
  | finish {s : Underway} {before after : List (NodeId × Copying)} {n : NodeId} {copying : Copying}
      (split : s.begun = before ++ (n, copying) :: after) (answer : Except Error Bool) :
      Step s ⟨(s.tree.endCopy n copying answer).2, before ++ after⟩
  | meanwhile (s : Underway) {u : Tree} (larger : s.tree.size ≤ u.size)
      (relisted : ∀ n < s.tree.size, Relisted (s.tree.node n).replicas (u.node n).replicas) :
      Step s ⟨u, s.begun⟩

def Sourced (s : Underway) : Prop := ∀ x ∈ s.begun, (s.tree.node x.1).replicas ≠ []

theorem known_of_copy {t : Tree} {n : NodeId} (some_copy : (t.node n).replicas ≠ []) :
    n < t.size := by
  by_contra unknown
  rw [node_of_size_le (Nat.not_lt.mp unknown)] at some_copy
  exact some_copy rfl

theorem Step.relisted (step : Step s s') (sourced : s.Sourced) :
    s'.Sourced ∧ s.tree.size ≤ s'.tree.size ∧
      ∀ n < s.tree.size, Relisted (s.tree.node n).replicas (s'.tree.node n).replicas := by
  cases step with
  | start n =>
    obtain ⟨pool, left⟩ := s.tree.beginCopy_eq (s.tree.node n).replicas
    rw [left]
    refine ⟨fun x member => ?_, Nat.le_refl _, fun m known => .same _⟩
    rcases List.mem_append.mp member with old | new
    · exact sourced x old
    · rw [Option.mem_toList] at new
      obtain ⟨copying, begun, rfl⟩ := Option.map_eq_some_iff.mp new
      exact beginCopy_source (t := s.tree) begun
  | @finish before after n copying split answer =>
    have some_copy : (s.tree.node n).replicas ≠ [] := sourced (n, copying) (by simp [split])
    have relisted := relisted_endCopy some_copy copying answer
    refine ⟨fun x member => ?_, Nat.le_of_eq (size_endCopy ..).symm,
      fun m _ => relisted m⟩
    have listed : x ∈ s.begun := by
      rw [split]
      simp only [List.mem_append, List.mem_cons] at member ⊢
      tauto
    exact (relisted x.1).ne_nil (sourced x listed)
  | meanwhile larger relisted =>
    exact ⟨fun x member => (relisted x.1 (known_of_copy (sourced x member))).ne_nil
      (sourced x member), larger, relisted⟩

/-- However the copies overlap, no container comes to be listed twice for a file, and the first copy
stays the first. -/
theorem lists_kept (steps : Relation.ReflTransGen Step s s') (sourced : s.Sourced) {n : NodeId}
    (known : n < s.tree.size) :
    (Distinct (s.tree.node n).replicas → Distinct (s'.tree.node n).replicas) ∧
      (s'.tree.node n).replicas.head? = (s.tree.node n).replicas.head? := by
  suffices kept : s'.Sourced ∧ n < s'.tree.size ∧
      (Distinct (s.tree.node n).replicas → Distinct (s'.tree.node n).replicas) ∧
      (s'.tree.node n).replicas.head? = (s.tree.node n).replicas.head? from kept.2.2
  induction steps with
  | refl => exact ⟨sourced, known, id, rfl⟩
  | tail _ step ih =>
    obtain ⟨sourced, known, distinct, head⟩ := ih
    obtain ⟨sourced', larger, relisted⟩ := step.relisted sourced
    have relisted := relisted n known
    exact ⟨sourced', Nat.lt_of_lt_of_le known larger, fun before =>
      relisted.distinct (distinct before), relisted.head?.trans head⟩

example :
    let t := ((empty 1).register .sole (.own "s")).2
    let copying : Copying := { target := .own "t", fromPool := false, source := .own "s" }
    let u := (t.endCopy 1 copying (.ok true)).2
    ((u.endCopy 1 copying (.ok true)).2.node 1).replicas = [.own "s", .own "t"] := by
  decide +kernel

theorem replicate_steps (t : Tree) (n : NodeId) (servers : Servers) :
    Relation.ReflTransGen Step ⟨t, []⟩ ⟨(t.replicate n (t.node n).replicas servers).2.1, []⟩ := by
  have start := Step.start ⟨t, []⟩ n
  unfold replicate
  cases begun : t.beginCopy (t.node n).replicas with
  | mk copying u =>
    simp only [begun] at start ⊢
    cases copying with
    | none => exact .single start
    | some copying =>
      have split : [(n, copying)] = [] ++ (n, copying) :: [] := rfl
      exact .tail (.single start) (.finish (s := ⟨u, [(n, copying)]⟩) split _)

end Underway

end Tree

end DistFs
