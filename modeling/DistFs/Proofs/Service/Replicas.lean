import DistFs.Proofs.Tree.Containers
import DistFs.Replication

namespace DistFs

namespace Tree

variable {t u : Tree} {n m : Nat} {s : Servers} {c d : Container} {pool : List Container}

theorem attached_pool : ({ t with pool } : Tree).Attached n ↔ t.Attached n :=
  ⟨fun h => ⟨h.known, h.linked, h.above⟩, fun h => ⟨h.known, h.linked, h.above⟩⟩

theorem kept_pool : ({ t with pool } : Tree).Kept c ↔ t.Kept c := by
  apply exists_congr
  intro m
  rw [attached_pool]
  rfl

theorem WellFormed.of_pool (wf : t.WellFormed) : ({ t with pool } : Tree).WellFormed := by
  refine ⟨wf.nonempty, wf.root_path, wf.root_kind, wf.root_lineage, wf.root_linked, ?_, wf.unique⟩
  intro n known other
  obtain ⟨m, h⟩ := wf.entry n known other
  exact ⟨m, h.younger, h.lineage, h.path, h.directory, h.kind⟩

theorem grows_pool : t.Grows { t with pool } :=
  ⟨⟨Nat.le_refl _, fun _ _ => .refl _, fun _ _ h => h⟩, fun _ _ h => h⟩

/-! ## Counting a shared grant -/

def counted (t : Tree) (n : NodeId) (reads : Nat) : Tree := t.modify n ({ · with reads })

def copied (t : Tree) (n : NodeId) (d : Container) : Tree :=
  t.modify n fun x => { x with replicas := x.replicas ++ [d] }

inductive Reading (t : Tree) (n : NodeId) (s : Servers) : Option Container × Tree × Servers → Prop
  | directory (kind : (t.node n).isFile = false) : Reading t n s (none, t, s)
  | counted (kind : (t.node n).isFile = true) (reads : Nat) :
      Reading t n s (none, t.counted n reads, s)
  | refused {source target : Container} {rest : List Container} {fromPool : Bool} {u : Tree}
      (kind : (t.node n).isFile = true) (replicas : (t.node n).replicas = source :: rest)
      (taken : (t.counted n 0).Taken (t.node n).replicas (some (target, fromPool), u))
      (refused : (s.copy target.command (t.node n).path source.storage).1 ≠ .ok true) :
      Reading t n s (none, if fromPool then u.returnToPool target else u,
        (s.copy target.command (t.node n).path source.storage).2)
  | copied {source target : Container} {rest : List Container} {fromPool : Bool} {u : Tree}
      (kind : (t.node n).isFile = true) (replicas : (t.node n).replicas = source :: rest)
      (taken : (t.counted n 0).Taken (t.node n).replicas (some (target, fromPool), u))
      (copied : (s.copy target.command (t.node n).path source.storage).1 = .ok true) :
      Reading t n s (some target, u.copied n target,
        (s.copy target.command (t.node n).path source.storage).2)

theorem grows_counted (t : Tree) (n : Nat) (reads : Nat) : t.Grows (t.counted n reads) :=
  grows_modify t n ⟨rfl, rfl, rfl⟩ rfl

theorem WellFormed.counted (wf : t.WellFormed) (n : Nat) (reads : Nat) :
    (t.counted n reads).WellFormed :=
  wf.hold n ⟨rfl, rfl, rfl⟩ rfl

theorem Furnished.counted (h : t.Furnished) (n : Nat) (reads : Nat) :
    (t.counted n reads).Furnished :=
  h.modify n fun furnished => ⟨furnished.file, furnished.directory⟩

theorem grows_copied (t : Tree) (n : Nat) (d : Container) : t.Grows (t.copied n d) :=
  grows_modify t n ⟨rfl, rfl, rfl⟩ rfl

theorem WellFormed.copied (wf : t.WellFormed) (n : Nat) (d : Container) :
    (t.copied n d).WellFormed :=
  wf.hold n ⟨rfl, rfl, rfl⟩ rfl

@[simp] theorem pool_copied (t : Tree) (n : Nat) (d : Container) :
    (t.copied n d).pool = t.pool := rfl

theorem node_counted (t : Tree) (n m : Nat) (reads : Nat) :
    (t.counted n reads).node m =
      if m = n ∧ m < t.size then { t.node m with reads } else t.node m := node_modify ..

theorem isFile_counted (t : Tree) (n reads : Nat) :
    ((t.counted n reads).node n).isFile = (t.node n).isFile := by
  rw [node_counted]
  split <;> rfl

theorem Taken.nodes {excluded : List Container} {found : Option (Container × Bool)}
    (h : t.Taken excluded (found, u)) : ∃ pool, u = { t with pool } := by
  cases h with
  | pooled => exact ⟨_, rfl⟩
  | kept => exact ⟨t.pool, rfl⟩
  | nothing => exact ⟨t.pool, rfl⟩

theorem Taken.wanted {excluded : List Container} {fromPool : Bool}
    (h : t.Taken excluded (some (d, fromPool), u)) : d.isIn excluded = false := by
  cases h with
  | pooled wanted _ => exact wanted
  | kept wanted _ _ => exact wanted

theorem Taken.given_back {excluded : List Container} {fromPool : Bool}
    (h : t.Taken excluded (some (d, fromPool), u)) :
    ∃ pool, (if fromPool then u.returnToPool d else u) = { t with pool } := by
  obtain ⟨pool, rfl⟩ := h.nodes
  cases fromPool with
  | false => exact ⟨pool, rfl⟩
  | true => exact returnToPool_eq { t with pool } d

theorem modify_congr {f g : Node → Node} (h : f (t.node n) = g (t.node n)) :
    t.modify n f = t.modify n g := by
  unfold modify
  congr 1
  apply Array.ext (by simp)
  intro i known known'
  rw [Array.getElem_modify, Array.getElem_modify]
  split
  next same =>
    subst same
    have bound : n < t.nodes.size := by simpa using known
    have here : t.node n = t.nodes[n] := by simp [node, bound]
    rw [← here, h]
  next => rfl

theorem endCopy_refused (t : Tree) (n : NodeId) (copying : Copying) {answer : Except Error Bool}
    (refused : answer ≠ .ok true) : t.endCopy n copying answer =
      (none, if copying.fromPool then t.returnToPool copying.target else t) := by
  cases answer with
  | error e => rfl
  | ok done =>
    cases done with
    | false => rfl
    | true => exact absurd rfl refused

theorem endCopy_copied {copying : Copying}
    (wanted : copying.target.isIn (t.node n).replicas = false) :
    t.endCopy n copying (.ok true) = (some copying.target, t.copied n copying.target) := by
  have added : t.modify n (fun x => if copying.target.isIn x.replicas then x
      else { x with replicas := x.replicas ++ [copying.target] }) = t.copied n copying.target := by
    apply modify_congr
    simp [wanted]
  exact congrArg (some copying.target, ·) added

section

variable {source target : Container} {rest : List Container} {fromPool : Bool}

theorem replicate_none (found : t.takeAvailable (source :: rest) = (none, u)) (n : NodeId)
    (s : Servers) : t.replicate n (source :: rest) s = (none, u, s) := by
  simp only [replicate, beginCopy, found]

theorem replicate_found
    (found : t.takeAvailable (source :: rest) = (some (target, fromPool), u)) (n : NodeId)
    (s : Servers) : t.replicate n (source :: rest) s =
      ((u.endCopy n { target, fromPool, source }
          (s.copy target.command (t.node n).path source.storage).1).1,
        (u.endCopy n { target, fromPool, source }
          (s.copy target.command (t.node n).path source.storage).1).2,
        (s.copy target.command (t.node n).path source.storage).2) := by
  simp only [replicate, beginCopy, found]

theorem replicate_refused
    (found : t.takeAvailable (source :: rest) = (some (target, fromPool), u))
    (refused : (s.copy target.command (t.node n).path source.storage).1 ≠ .ok true) :
    t.replicate n (source :: rest) s =
      (none, if fromPool then u.returnToPool target else u,
        (s.copy target.command (t.node n).path source.storage).2) := by
  rw [replicate_found found, endCopy_refused u n _ refused]

theorem replicate_copied
    (found : t.takeAvailable (source :: rest) = (some (target, fromPool), u))
    (wanted : target.isIn (u.node n).replicas = false)
    (done : (s.copy target.command (t.node n).path source.storage).1 = .ok true) :
    t.replicate n (source :: rest) s =
      (some target, u.copied n target,
        (s.copy target.command (t.node n).path source.storage).2) := by
  rw [replicate_found found, done, endCopy_copied wanted]

end

theorem replicate_reading (wf : t.WellFormed) (furnished : t.Furnished)
    (kind : (t.node n).isFile = true) (s : Servers) :
    t.Reading n s ((t.counted n 0).replicate n (t.node n).replicas s) := by
  have same : ((t.counted n 0).node n).replicas = (t.node n).replicas ∧
      ((t.counted n 0).node n).path = (t.node n).path := by
    rw [node_counted]
    split <;> exact ⟨rfl, rfl⟩
  have taken := takeAvailable_taken (wf.counted n 0) (furnished.counted n 0) (t.node n).replicas
  cases listed : (t.node n).replicas with
  | nil => exact .counted kind 0
  | cons source rest =>
      rw [listed] at taken
      cases found : (t.counted n 0).takeAvailable (source :: rest) with
      | mk chosen u =>
          rw [found] at taken
          cases chosen with
          | none =>
              rw [replicate_none found]
              cases taken
              exact .counted kind 0
          | some choice =>
              obtain ⟨target, fromPool⟩ := choice
              have wanted : target.isIn (u.node n).replicas = false := by
                have absent := taken.wanted
                obtain ⟨pool, rfl⟩ := taken.nodes
                rwa [← listed, ← same.1] at absent
              rw [← listed] at taken
              by_cases done : (s.copy target.command (t.node n).path source.storage).1 = .ok true
              · rw [replicate_copied found wanted (same.2 ▸ done), same.2]
                exact .copied kind listed taken done
              · rw [replicate_refused found (same.2 ▸ done), same.2]
                exact .refused kind listed taken done

theorem recordRead_reading (wf : t.WellFormed) (furnished : t.Furnished) (n : Nat) (s : Servers) :
    t.Reading n s (t.recordRead n s) := by
  cases kind : (t.node n).isFile with
  | false =>
      simp only [recordRead, kind, Bool.not_false, if_true]
      exact .directory kind
  | true =>
      simp only [recordRead, kind, Bool.not_true, Bool.false_eq_true, if_false]
      split
      · exact .counted kind _
      · exact replicate_reading wf furnished kind s

theorem Furnished.of_pool (h : t.Furnished) : ({ t with pool } : Tree).Furnished := h

theorem Furnished.copied (h : t.Furnished) (kind : (t.node n).isFile = true) (d : Container) :
    (t.copied n d).Furnished := by
  apply h.modify n
  intro furnished
  exact ⟨furnished.file, fun dir => absurd (kind.symm.trans dir) (by simp)⟩

theorem Reading.keeps {result : Option Container × Tree × Servers} (h : t.Reading n s result)
    (wf : t.WellFormed) (furnished : t.Furnished) :
    t.Grows result.2.1 ∧ result.2.1.WellFormed ∧ result.2.1.Furnished := by
  have grows := grows_counted t n 0
  have wf' := wf.counted n 0
  have furnished' := furnished.counted n 0
  cases h with
  | directory => exact ⟨.refl t, wf, furnished⟩
  | counted kind reads =>
      exact ⟨grows_counted t n reads, wf.counted n reads, furnished.counted n reads⟩
  | @refused source target rest fromPool u kind replicas taken refused =>
      obtain ⟨pool, same⟩ := taken.given_back
      simp only [same]
      exact ⟨grows.trans grows_pool, wf'.of_pool, furnished'⟩
  | @copied source target rest fromPool u kind replicas taken copied =>
      obtain ⟨pool, rfl⟩ := taken.nodes
      have kind' : (({ t.counted n 0 with pool } : Tree).node n).isFile = true :=
        (isFile_counted t n 0).trans kind
      exact ⟨(grows.trans grows_pool).trans (grows_copied _ n target), wf'.of_pool.copied n target,
        furnished'.of_pool.copied kind' target⟩

theorem Reading.elsewhere {result : Option Container × Tree × Servers} (h : t.Reading n s result)
    (other : m ≠ n) : result.2.1.node m = t.node m := by
  have counted (reads : Nat) : (t.counted n reads).node m = t.node m :=
    (node_counted t n m reads).trans (if_neg fun same => other same.1)
  cases h with
  | directory => rfl
  | counted kind reads => exact counted reads
  | @refused source target rest fromPool u kind replicas taken refused =>
      obtain ⟨pool, same⟩ := taken.given_back
      simp only [same]
      exact counted 0
  | @copied source target rest fromPool u kind replicas taken copied =>
      obtain ⟨pool, rfl⟩ := taken.nodes
      have copied : (({ t.counted n 0 with pool } : Tree).copied n target).node m = _ :=
        node_modify ..
      rw [if_neg fun same => other same.1] at copied
      exact copied.trans (counted 0)

theorem Reading.size {result : Option Container × Tree × Servers} (h : t.Reading n s result) :
    result.2.1.size = t.size := by
  cases h with
  | directory => rfl
  | counted kind reads => exact size_modify ..
  | @refused source target rest fromPool u kind replicas taken refused =>
      obtain ⟨pool, same⟩ := taken.given_back
      simp only [same]
      exact size_modify ..
  | @copied source target rest fromPool u kind replicas taken copied =>
      obtain ⟨pool, rfl⟩ := taken.nodes
      exact (size_modify ..).trans (size_modify ..)

/-! ## What the copies do for their containers -/

theorem kept_counted (wf : t.WellFormed) (reads : Nat) : (t.counted n reads).Kept c ↔ t.Kept c := by
  unfold counted
  rw [kept_modify wf n ⟨rfl, rfl, rfl⟩ rfl, kept_iff t n c]
  rfl

theorem kept_copied (wf : t.WellFormed) (kind : (t.node n).isFile = true) :
    (t.copied n d).Kept c ↔ t.Kept c ∨ (t.Attached n ∧ d.endpoints = c.endpoints) := by
  have keeps : Node.keeps { t.node n with replicas := (t.node n).replicas ++ [d] } =
      (t.node n).keeps ++ [d] := by
    have kind' : Node.isFile { t.node n with replicas := (t.node n).replicas ++ [d] } = true := kind
    simp [Node.keeps, kind, kind']
  unfold copied
  rw [kept_modify wf n ⟨rfl, rfl, rfl⟩ rfl, kept_iff t n c, keeps, Container.isIn_append]
  simp only [Container.isIn_cons, Container.isIn_nil, Bool.or_false, Bool.or_eq_true,
    decide_eq_true_eq, and_or_left]
  exact or_right_comm

theorem attached_counted (wf : t.WellFormed) (reads : Nat) :
    (t.counted n reads).Attached m ↔ t.Attached m := by
  constructor
  · intro attached
    have known : m < t.size := by simpa [counted] using attached.known
    exact ((grows_counted t n reads).attached_iff wf known).mp attached
  · exact (grows_counted t n reads).attached wf

theorem available_counted (wf : t.WellFormed) (reads : Nat) :
    (t.counted n reads).Available c ↔ t.Available c :=
  or_congr Iff.rfl (kept_counted wf reads)

section Taken

variable {excluded : List Container} {fromPool : Bool}

theorem Taken.kept_iff (h : t.Taken excluded (some (d, fromPool), u)) : u.Kept c ↔ t.Kept c := by
  obtain ⟨pool, rfl⟩ := h.nodes
  exact kept_pool

theorem Taken.available (h : t.Taken excluded (some (d, fromPool), u)) :
    t.Available c ↔ d.endpoints = c.endpoints ∨ u.Available c := by
  cases h with
  | pooled wanted perm =>
      rw [Available, Container.isIn_perm perm, Available]
      simp [kept_pool, or_assoc]
  | kept wanted attached kept =>
      constructor
      · exact .inr
      · intro either
        cases either with
        | inr available => exact available
        | inl same => exact .inr ⟨_, attached, Container.isIn_iff.mpr ⟨d, kept, same⟩⟩

theorem Taken.returned (h : t.Taken excluded (some (d, fromPool), u)) :
    (if fromPool then u.returnToPool d else u).Available c ↔ t.Available c := by
  cases h with
  | @pooled _ pool wanted perm =>
      obtain ⟨pool', result⟩ := returnToPool_eq { t with pool } d
      have pooled := isIn_returnToPool { t with pool } c d
      rw [result] at pooled
      simp only [if_true, result, Available, kept_pool, pooled, Container.isIn_perm perm,
        Container.isIn_cons]
  | kept => exact Iff.rfl

end Taken

/-- A container leaves the pool for a copy of a file that was removed, and is not used elsewhere. -/
def LostToCopy (t : Tree) (n : NodeId) (s : Servers) (c : Container) : Prop :=
  ¬ t.Attached n ∧ (∃ d, (t.recordRead n s).1 = some d ∧ d.endpoints = c.endpoints) ∧
    c.isIn (t.recordRead n s).2.1.pool = false ∧ ¬ t.Kept c

theorem available_recordRead (wf : t.WellFormed) (furnished : t.Furnished) :
    (t.recordRead n s).2.1.Available c ↔ t.Available c ∧ ¬ t.LostToCopy n s c := by
  have reading := recordRead_reading wf furnished n s
  unfold LostToCopy
  generalize t.recordRead n s = result at reading
  cases reading with
  | directory => simp
  | counted kind reads => simp [available_counted wf]
  | @refused source target rest fromPool u kind replicas taken refused =>
      have same := taken.returned (c := c)
      rw [available_counted wf] at same
      simpa using same
  | @copied source target rest fromPool u kind replicas taken copied =>
      have before := taken.available (c := c)
      rw [available_counted wf] at before
      have kept := taken.kept_iff (c := c)
      rw [kept_counted wf] at kept
      obtain ⟨pool, rfl⟩ := taken.nodes
      have attached := attached_counted wf (n := n) (m := n) 0
      have kind' : (({ t.counted n 0 with pool } : Tree).node n).isFile = true :=
        (isFile_counted t n 0).trans kind
      have after := kept_copied (wf.counted n 0).of_pool kind' (c := c) (d := target)
      rw [attached_pool, attached, kept] at after
      rw [Available, after, before, Available, kept]
      simp only [pool_copied, Option.some.injEq, exists_eq_left']
      by_cases here : t.Attached n <;> by_cases same : target.endpoints = c.endpoints <;>
        by_cases used : t.Kept c <;> simp [here, same, used]

/-! ## Giving up copies -/

def consolidated (t : Tree) (n : NodeId) : Tree :=
  t.modify n fun x => { x with replicas := x.replicas.take 1 }

theorem consolidate_tree (t : Tree) (n : Nat) (s : Servers) :
    (t.consolidate n s).2.1 = if (t.node n).isFile then t.consolidated n else t := by
  unfold consolidate
  cases kind : (t.node n).isFile with
  | false => simp [kind]
  | true =>
      have same : t.modify n (fun x => { x with replicas := (t.node n).replicas.take 1 }) =
          t.consolidated n := modify_congr rfl
      simp only [kind, Bool.not_true, Bool.false_eq_true, if_false, if_true, same]
      split <;> rfl

theorem consolidate_elsewhere (t : Tree) (s : Servers) (other : m ≠ n) :
    (t.consolidate n s).2.1.node m = t.node m := by
  rw [consolidate_tree]
  split
  · exact (node_modify ..).trans (if_neg fun same => other same.1)
  · rfl

theorem consolidate_size (t : Tree) (n : Nat) (s : Servers) :
    (t.consolidate n s).2.1.size = t.size := by
  rw [consolidate_tree]
  split
  · exact size_modify ..
  · rfl

theorem consolidate_alone (t : Tree) (n : Nat) (s : Servers)
    (file : ((t.consolidate n s).2.1.node n).isFile = true) :
    ((t.consolidate n s).2.1.node n).replicas.length ≤ 1 := by
  rw [consolidate_tree] at file ⊢
  cases kind : (t.node n).isFile with
  | false =>
      simp [kind] at file
  | true =>
      simp only [if_true, consolidated, node_modify]
      split
      · exact List.length_take_le 1 _
      next outside =>
        have unknown : t.size ≤ n := Nat.not_lt.mp fun known => outside ⟨trivial, known⟩
        rw [node_of_size_le unknown]
        exact Nat.zero_le 1

theorem grows_consolidated (t : Tree) (n : Nat) : t.Grows (t.consolidated n) :=
  grows_modify t n ⟨rfl, rfl, rfl⟩ rfl

theorem WellFormed.consolidated (wf : t.WellFormed) (n : Nat) : (t.consolidated n).WellFormed :=
  wf.hold n ⟨rfl, rfl, rfl⟩ rfl

theorem Furnished.consolidated (h : t.Furnished) (n : Nat) : (t.consolidated n).Furnished := by
  apply h.modify n
  intro furnished
  exact ⟨furnished.file, fun dir => by simp [furnished.directory dir]⟩

/-- A container has only copies of one file to offer, and these are given up. -/
def LostToWriter (t : Tree) (n : NodeId) (c : Container) : Prop :=
  (t.node n).isFile = true ∧ c.isIn ((t.node n).replicas.drop 1) = true ∧
    c.isIn ((t.node n).replicas.take 1) = false ∧ c.isIn t.pool = false ∧
    ∀ m, t.Attached m → c.isIn (t.node m).keeps = true → m = n

theorem available_consolidate (wf : t.WellFormed) :
    (t.consolidate n s).2.1.Available c ↔ t.Available c ∧ ¬ t.LostToWriter n c := by
  rw [consolidate_tree]
  cases kind : (t.node n).isFile with
  | false => simp [LostToWriter, kind]
  | true =>
      have keeps : (t.node n).keeps = (t.node n).replicas.take 1 ++ (t.node n).replicas.drop 1 := by
        rw [Node.keeps, if_pos kind, List.take_append_drop]
      have keeps' : Node.keeps { t.node n with replicas := (t.node n).replicas.take 1 } =
          (t.node n).replicas.take 1 := by
        have kind' : Node.isFile { t.node n with replicas := (t.node n).replicas.take 1 } = true :=
          kind
        simp [Node.keeps, kind']
      have after : (t.consolidated n).Kept c ↔ _ := kept_modify wf n ⟨rfl, rfl, rfl⟩ rfl
      have before := kept_iff t n c
      rw [keeps, Container.isIn_append] at before
      rw [keeps'] at after
      have alone : (∀ m, t.Attached m → c.isIn (t.node m).keeps = true → m = n) ↔
          ¬ ∃ m, m ≠ n ∧ t.Attached m ∧ c.isIn (t.node m).keeps = true := by
        constructor
        · intro only other
          obtain ⟨m, apart, attached, kept⟩ := other
          exact apart (only m attached kept)
        · intro none m attached kept
          by_contra apart
          exact none ⟨m, apart, attached, kept⟩
      have pool : (t.consolidated n).pool = t.pool := rfl
      simp only [if_true, Available, LostToWriter, kind, after, before, alone, pool]
      by_cases here : t.Attached n <;>
        by_cases other : ∃ m, m ≠ n ∧ t.Attached m ∧ c.isIn (t.node m).keeps = true <;>
        cases c.isIn t.pool <;> cases c.isIn ((t.node n).replicas.take 1) <;>
        simp [here, other]

end Tree

end DistFs
