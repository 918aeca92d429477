import DistFs.Proofs.Storage.Contents
import DistFs.Proofs.Tree.Pool
import DistFs.Proofs.Tree.Preorder

namespace DistFs

namespace Container

variable {c d : Container} {l found : List Container}

def firsts (l : List Container) : List Container :=
  l.eraseDupsBy fun c d => c.endpoints = d.endpoints

theorem firsts_nil : firsts [] = [] := rfl

theorem firsts_cons (c : Container) (l : List Container) :
    firsts (c :: l) = c :: firsts (l.filter fun d => d.endpoints ≠ c.endpoints) := by
  rw [firsts, List.eraseDupsBy_cons, firsts]
  simp

theorem firsts_induction {motive : List Container → Prop} (nil : motive [])
    (cons : ∀ c l, motive (l.filter fun d => d.endpoints ≠ c.endpoints) → motive (c :: l)) :
    ∀ l, motive l
  | [] => nil
  | c :: l => cons c l (firsts_induction nil cons _)
termination_by l => l.length
decreasing_by exact Nat.lt_succ_of_le (List.length_filter_le _ l)

theorem isIn_firsts (c : Container) (l : List Container) : c.isIn (firsts l) = c.isIn l := by
  induction l using firsts_induction with
  | nil => rfl
  | cons d l ih =>
    rw [firsts_cons, isIn_cons, isIn_cons, ih]
    by_cases same : d.endpoints = c.endpoints
    · simp [same]
    · simp only [same, decide_false, Bool.false_or]
      rw [Bool.eq_iff_iff, isIn_iff, isIn_iff]
      simp only [List.mem_filter, decide_eq_true_eq, and_assoc]
      refine exists_congr fun e => and_congr_right fun _ => ⟨And.right, fun here => ⟨?_, here⟩⟩
      rw [here]
      exact Ne.symm same

theorem distinct_firsts (l : List Container) : Distinct (firsts l) := by
  induction l using firsts_induction with
  | nil => exact distinct_nil
  | cons d l ih =>
    rw [firsts_cons, distinct_cons, isIn_firsts, ← Bool.not_eq_true, isIn_iff]
    refine ⟨?_, ih⟩
    rintro ⟨e, listed, same⟩
    simp only [List.mem_filter, decide_eq_true_eq] at listed
    exact listed.2 same

theorem isIn_flatMap {α : Type} (c : Container) (l : List α) (f : α → List Container) :
    c.isIn (l.flatMap f) = true ↔ ∃ a ∈ l, c.isIn (f a) = true := by
  simp [isIn]

theorem foldl_firsts (found l : List Container) :
    l.foldl (fun found c => if c.isIn found then found else found ++ [c]) found =
      found ++ firsts (l.filter fun c => !c.isIn found) := by
  induction l generalizing found with
  | nil => simp [firsts_nil]
  | cons c l ih =>
    rw [List.foldl_cons, ih, List.filter_cons]
    cases there : c.isIn found with
    | true => simp
    | false =>
      have rest : (l.filter fun d => !d.isIn (found ++ [c])) =
          (l.filter fun d => !d.isIn found).filter fun d => d.endpoints ≠ c.endpoints := by
        rw [List.filter_filter]
        refine List.filter_congr fun d _ => ?_
        simp [Bool.and_comm, eq_comm]
      simp only [Bool.false_eq_true, if_false, Bool.not_false, if_true, rest, firsts_cons,
        List.append_assoc, List.singleton_append]

end Container

namespace Tree

open Container

variable {t : Tree} {n m : Nat} {p : Path} {c : Container}
  {excluded l : List Container}

theorem met_eq (t : Tree) : t.met =
    (t.preorder rootId).flatMap fun n => (t.node n).home.toList ++ (t.node n).replicas := by
  rw [met, reachable, walk_singleton]

theorem takeAvailable_eq_none : (t.takeAvailable excluded).1 = none ↔
    (∀ d ∈ t.pool, d.isIn excluded = true) ∧ ∀ d ∈ t.met, d.isIn excluded = true := by
  have drawn := t.takeAvailable_drawn excluded
  generalize t.takeAvailable excluded = result at drawn ⊢
  cases drawn with
  | @pooled c before after split passed wanted =>
    refine iff_of_false (by simp) fun all => ?_
    rw [all.1 c (by simp [split])] at wanted
    cases wanted
  | @met c drained first =>
    refine iff_of_false (by simp) fun all => ?_
    have wanted := List.find?_some first
    rw [all.2 c (List.mem_of_find?_eq_some first)] at wanted
    cases wanted
  | nothing drained spent => exact iff_of_true rfl ⟨drained, spent⟩

theorem containersUnder_of_found (found : t.find? p = some n) :
    t.containersUnder p = .ok (firsts ((t.preorder n).flatMap fun m => (t.node m).replicas)) := by
  have all (l : List Container) : (l.filter fun c => !c.isIn []) = l := by simp
  simp only [containersUnder, get, found, walk_singleton, foldl_firsts, all]
  rfl

theorem isIn_containersUnder (wf : t.WellFormed) (found : t.find? p = some n)
    (listed : t.containersUnder p = .ok l) : c.isIn l = true ↔
      ∃ m, t.Attached m ∧ (t.node m).path.isUnder p = true ∧ c.isIn (t.node m).replicas = true := by
  obtain rfl := Except.ok.inj ((containersUnder_of_found found).symm.trans listed)
  obtain ⟨attached, rfl⟩ := (find?_eq_some_iff wf).mp found
  simp only [isIn_firsts, isIn_flatMap, mem_preorder wf attached, and_assoc]

theorem filter_preorder_root (wf : t.WellFormed) (attached : t.Attached n) :
    (t.preorder rootId).filter (fun m => (t.node m).path.isUnder (t.node n).path) =
      t.preorder n := by
  refine eq_preorder wf ((preorder_sorted wf rootId).filter _) fun m => ?_
  rw [List.mem_filter, mem_preorder_root wf, mem_preorder wf attached]

/-- A search takes the oldest container of the pool that it may take, or else the first one that it
comes to in the tree. For a path the copies at and below it are listed, each once, where it is first
come to. -/
theorem search_exact (wf : t.WellFormed) (furnished : t.Furnished) :
    let order := t.preorder rootId
    (∀ n, n ∈ order ↔ t.Attached n) ∧
    order.Pairwise (fun m n => (t.node m).path < (t.node n).path) ∧
    (∀ excluded c before after, t.pool = before ++ c :: after →
      (∀ d ∈ before, d.isIn excluded = true) → c.isIn excluded = false →
      t.takeAvailable excluded = (some (c, true), { t with pool := before ++ after })) ∧
    (∀ excluded, (∀ d ∈ t.pool, d.isIn excluded = true) →
      t.takeAvailable excluded =
        (((order.flatMap fun n => (t.node n).home.toList ++ (t.node n).replicas).find? fun d =>
          !d.isIn excluded).map (·, false), t)) ∧
    (∀ excluded, (t.takeAvailable excluded).1 = none ↔
      (∀ d ∈ t.pool, d.isIn excluded = true) ∧ ∀ n, t.Attached n →
        ∀ d ∈ (t.node n).home.toList ++ (t.node n).replicas, d.isIn excluded = true) ∧
    (∀ p, t.find? p = none → t.containersUnder p = .error (.notFound p)) ∧
    ∀ p, t.contains p = true → ∃ l, t.containersUnder p = .ok l ∧
      l = firsts ((order.filter fun m => (t.node m).path.isUnder p).flatMap fun m =>
        (t.node m).replicas) ∧
      Distinct l ∧
      ∀ c : Container, c.isIn l = true ↔ ∃ m, t.Attached m ∧ (t.node m).isFile = true ∧
        (t.node m).path.isUnder p = true ∧ c.isIn (t.node m).replicas = true := by
  refine ⟨fun n => mem_preorder_root wf, preorder_sorted wf rootId,
    fun excluded c before after => takeAvailable_pooled, fun excluded drained => ?_,
    fun excluded => ?_, fun p absent => ?_, fun p there => ?_⟩
  · rw [takeAvailable_drained drained, met_eq]
  · rw [takeAvailable_eq_none, met_eq]
    simp only [List.mem_flatMap, mem_preorder_root wf, forall_exists_index, and_imp]
    exact and_congr_right fun _ =>
      ⟨fun all n here d => all d n here, fun all d n here => all n here d⟩
  · simp only [containersUnder, get, absent]
    rfl
  · obtain ⟨n, found⟩ := Option.isSome_iff_exists.mp there
    have listed := containersUnder_of_found found
    obtain ⟨attached, path⟩ := (find?_eq_some_iff wf).mp found
    refine ⟨_, listed, by rw [← path, filter_preorder_root wf attached], distinct_firsts _,
      fun c => ?_⟩
    rw [isIn_containersUnder wf found listed]
    -- Only files have copies.
    refine exists_congr fun m => and_congr_right fun _ => ⟨fun here => ⟨?_, here⟩, And.right⟩
    by_contra directory
    rw [(furnished m).directory (eq_false_of_ne_true directory)] at here
    cases here.2

def stocked : Tree :=
  (((empty 1).register .inner (own "s")).2.register .neighbour (own "t")).2.addToPool (own "u")

theorem stocked_sound : stocked.WellFormed ∧ stocked.Furnished := by
  have step {t : Tree} (wf : t.WellFormed) (furnished : t.Furnished) (p : Path) (c : Container) :
      (t.register p c).2.WellFormed ∧ (t.register p c).2.Furnished :=
    have grown := (register_grown wf p c).1
    ⟨grown.wellFormed (wf.settleRoot c), (furnished.settleRoot wf c).grown grown⟩
  have first := step (wellFormed_empty 1) (furnished_empty 1) .inner (own "s")
  have second := step first.1 first.2 .neighbour (own "t")
  rw [stocked, pool_addToPool]
  exact ⟨second.1.of_pool, second.2.of_pool⟩

theorem preorder_stocked : stocked.preorder rootId = [0, 1, 2, 3] := by
  rw [preorder_of_sorted stocked_sound.1 (by decide +kernel)]
  decide +kernel

theorem stocked_searched :
    stocked.takeAvailable [own "s"] = (some (own "u", true), { stocked with pool := [] }) ∧
      stocked.takeAvailable [own "u", own "s"] = (some (own "t", false), stocked) ∧
      (stocked.takeAvailable [own "s", own "t", own "u"]).1 = none ∧
      stocked.containersUnder .root = .ok [own "s", own "t"] := by
  obtain ⟨-, -, pooled, drained, -, -, listed⟩ := search_exact stocked_sound.1 stocked_sound.2
  refine ⟨pooled _ (own "u") [] [] rfl nofun (by decide +kernel), ?_, ?_, ?_⟩
  · rw [drained _ (by decide +kernel), preorder_stocked]
    exact Prod.ext (by decide +kernel) rfl
  · rw [drained _ (by decide +kernel), preorder_stocked]
    decide +kernel
  · obtain ⟨l, found, exact, -⟩ := listed .root (by decide +kernel)
    rw [found, exact, preorder_stocked]
    decide +kernel

end Tree

end DistFs
