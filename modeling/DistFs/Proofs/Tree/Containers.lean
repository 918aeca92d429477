import DistFs.Proofs.Tree.Operations
import DistFs.Proofs.Tree.Walk

namespace DistFs

namespace Container

variable {c d : Container} {l l' : List Container}

theorem isIn_iff : c.isIn l = true ↔ ∃ d ∈ l, d.endpoints = c.endpoints := by
  simp [isIn]

@[simp] theorem isIn_nil (c : Container) : c.isIn [] = false := rfl

@[simp] theorem isIn_cons (c d : Container) (l : List Container) :
    c.isIn (d :: l) = (decide (d.endpoints = c.endpoints) || c.isIn l) := rfl

@[simp] theorem isIn_append (c : Container) (l l' : List Container) :
    c.isIn (l ++ l') = (c.isIn l || c.isIn l') := by
  simp [isIn]

theorem isIn_congr (h : d.endpoints = c.endpoints) : d.isIn l = c.isIn l := by
  simp [isIn, h]

theorem isIn_perm (h : l.Perm l') : c.isIn l = c.isIn l' := h.any_eq

end Container

namespace Node

def keeps (x : Node) : List Container := if x.isFile then x.replicas else x.home.toList

structure Furnished (x : Node) : Prop where
  file : x.isFile = true → x.home = none
  directory : x.isFile = false → x.replicas = []

theorem Furnished.keeps_eq {x : Node} (h : x.Furnished) :
    x.home.toList ++ x.replicas = x.keeps := by
  unfold keeps
  cases kind : x.isFile with
  | true => simp [h.file kind]
  | false => simp [h.directory kind]

theorem Furnished.mem_keeps {x : Node} {c : Container} (h : x.Furnished) (listed : c ∈ x.replicas) :
    c ∈ x.keeps := by
  rw [← h.keeps_eq]
  exact List.mem_append_right _ listed

theorem Makes.furnished {d x : Node} {container : Option Container} (h : d.Makes container x) :
    x.Furnished := by
  cases h with
  | directory p => exact ⟨fun file => by simp [isFile] at file, fun _ => rfl⟩
  | file p lives => exact ⟨fun _ => rfl, fun dir => by simp [isFile] at dir⟩

theorem Makes.keeps {d x : Node} {container : Option Container} {c : Container}
    (h : d.Makes container x) (kept : c.isIn x.keeps = true) :
    (∃ e, container = some e ∧ e.endpoints = c.endpoints) ∨
      container = none ∧ ∃ e, d.home = some e ∧ e.endpoints = c.endpoints := by
  have lives : ∃ e, (container <|> d.home) = some e ∧ e.endpoints = c.endpoints := by
    cases h with
    | directory p =>
        obtain ⟨e, member, same⟩ := Container.isIn_iff.mp kept
        exact ⟨e, by simpa [Node.keeps, isFile] using member, same⟩
    | @file p e lives => exact ⟨e, lives, by simpa [Node.keeps, isFile] using kept⟩
  obtain ⟨e, chosen, same⟩ := lives
  cases container with
  | some e' => exact .inl ⟨e, chosen, same⟩
  | none => exact .inr ⟨rfl, e, chosen, same⟩

theorem Makes.lives {d x : Node} {c : Container} (h : d.Makes (some c) x) :
    x.keeps = [c] ∧ (x.isFile = true → x.replicas = [c]) ∧
      (x.isFile = false → x.replicas = []) := by
  cases h with
  | directory p => exact ⟨rfl, fun file => by simp [isFile] at file, fun _ => rfl⟩
  | file p lives =>
      cases lives
      exact ⟨rfl, fun _ => rfl, fun dir => by simp [isFile] at dir⟩

theorem keeps_settled {x : Node} (directory : x.isFile = false) (d : Container) :
    Node.keeps { x with home := x.home <|> some d } = (x.home <|> some d).toList := by
  have directory' : Node.isFile { x with home := x.home <|> some d } = false := directory
  unfold Node.keeps
  rw [if_neg]
  exact fun file => absurd (directory'.symm.trans file) (by simp)

end Node

namespace Tree

variable {t u : Tree} {n m : Nat} {c d : Container} {p : Path} {excluded pool : List Container}

def Furnished (t : Tree) : Prop := ∀ n, (t.node n).Furnished

def Kept (t : Tree) (c : Container) : Prop := ∃ n, t.Attached n ∧ c.isIn (t.node n).keeps = true

def Available (t : Tree) (c : Container) : Prop := c.isIn t.pool = true ∨ t.Kept c

theorem node_empty (threshold n : Nat) : (empty threshold).node n = default := by
  cases n <;> rfl

theorem furnished_empty (threshold : Nat) : (empty threshold).Furnished := by
  intro n
  rw [node_empty]
  exact ⟨fun _ => rfl, fun _ => rfl⟩

theorem Furnished.modify (h : t.Furnished) (k : Nat) {change : Node → Node}
    (furnished : (t.node k).Furnished → (change (t.node k)).Furnished) :
    (t.modify k change).Furnished := by
  intro n
  rw [node_modify]
  split
  next same => exact same.1 ▸ furnished (h k)
  next => exact h n

theorem Furnished.grown {container : Option Container} (h : t.Furnished)
    (grown : Grown t (Node.Made container p) u) : u.Furnished := by
  induction grown with
  | same => exact h
  | entry _ _ _ _ _ _ _ allowed ih =>
      intro n
      rw [node_insert]
      split
      · exact ⟨allowed.1.furnished.file, allowed.1.furnished.directory⟩
      · exact ih n

theorem kept_congr (grows : t.Grows u) (wf : t.WellFormed)
    (kept : ∀ n, t.Attached n → c.isIn (u.node n).keeps = c.isIn (t.node n).keeps)
    (new : ∀ n, t.size ≤ n → u.Attached n → c.isIn (u.node n).keeps = true → t.Available c) :
    c.isIn t.pool = true ∨ u.Kept c ↔ t.Available c := by
  constructor
  · intro available
    cases available with
    | inl pooled => exact .inl pooled
    | inr kept' =>
        obtain ⟨n, attached, here⟩ := kept'
        by_cases known : n < t.size
        · have before := (grows.attached_iff wf known).mp attached
          exact .inr ⟨n, before, kept n before ▸ here⟩
        · exact new n (Nat.not_lt.mp known) attached here
  · intro available
    cases available with
    | inl pooled => exact .inl pooled
    | inr kept' =>
        obtain ⟨n, attached, here⟩ := kept'
        exact .inr ⟨n, grows.attached wf attached, (kept n attached).symm ▸ here⟩

theorem kept_modify (wf : t.WellFormed) (k : Nat) {change : Node → Node}
    (same : (t.node k).Same (change (t.node k)))
    (linked : (change (t.node k)).linked = (t.node k).linked) :
    (t.modify k change).Kept c ↔
      (t.Attached k ∧ c.isIn (change (t.node k)).keeps = true) ∨
        ∃ m, m ≠ k ∧ t.Attached m ∧ c.isIn (t.node m).keeps = true := by
  have grows := grows_modify t k same linked
  constructor
  · intro kept
    obtain ⟨m, attached, here⟩ := kept
    have known : m < t.size := by simpa using attached.known
    have before := (grows.attached_iff wf known).mp attached
    rw [node_modify] at here
    split at here
    next there => exact .inl ⟨there.1 ▸ before, there.1 ▸ here⟩
    next other => exact .inr ⟨m, fun same => other ⟨same, known⟩, before, here⟩
  · intro kept
    cases kept with
    | inl there =>
        refine ⟨k, grows.attached wf there.1, ?_⟩
        rw [node_modify, if_pos ⟨rfl, there.1.known⟩]
        exact there.2
    | inr elsewhere =>
        obtain ⟨m, other, attached, here⟩ := elsewhere
        refine ⟨m, grows.attached wf attached, ?_⟩
        rw [node_modify, if_neg fun same => other same.1]
        exact here

theorem kept_iff (t : Tree) (k : Nat) (c : Container) :
    t.Kept c ↔ (t.Attached k ∧ c.isIn (t.node k).keeps = true) ∨
      ∃ m, m ≠ k ∧ t.Attached m ∧ c.isIn (t.node m).keeps = true := by
  constructor
  · intro kept
    obtain ⟨m, attached, here⟩ := kept
    by_cases same : m = k
    · exact .inl ⟨same ▸ attached, same ▸ here⟩
    · exact .inr ⟨m, same, attached, here⟩
  · intro kept
    cases kept with
    | inl there => exact ⟨k, there⟩
    | inr elsewhere =>
        obtain ⟨m, -, attached, here⟩ := elsewhere
        exact ⟨m, attached, here⟩

theorem available_modify (wf : t.WellFormed) (k : Nat) {change : Node → Node}
    (same : (t.node k).Same (change (t.node k)))
    (linked : (change (t.node k)).linked = (t.node k).linked)
    (kept : c.isIn (change (t.node k)).keeps = c.isIn (t.node k).keeps) :
    (t.modify k change).Available c ↔ t.Available c := by
  apply or_congr Iff.rfl
  rw [kept_modify wf k same linked, kept, ← kept_iff]

theorem available_grown {container : Option Container} (wf : t.WellFormed)
    (grown : Grown t (Node.Made container p) u)
    (there : ∀ e, container = some e → e.endpoints = c.endpoints → t.Available c) :
    u.Available c ↔ t.Available c := by
  rw [Available, grown.pool]
  apply kept_congr grown.grows wf
  · intro n attached
    rw [grown.node attached.known]
  · intro n
    induction n using Nat.strongRecOn with
    | _ n ih =>
      intro new attached kept
      obtain ⟨-, m, x, above, made, node⟩ := grown.new wf attached.known new
      have entry : m < n := by
        apply (grown.wellFormed wf).lineage_lt attached.known
        simp [node]
      rw [node] at kept
      cases made.1.keeps kept with
      | inl told => exact there _ told.choose_spec.1 told.choose_spec.2
      | inr home =>
          obtain ⟨-, e, here, same⟩ := home
          have directory : (u.node m).isFile = false := by
            have other : n ≠ rootId := fun root => Nat.not_lt.mpr new (root ▸ wf.nonempty)
            obtain ⟨k, h⟩ := (grown.wellFormed wf).entry n attached.known other
            have : k = m := by simpa [node, Node.parent?] using h.parent?.symm
            exact this ▸ h.directory
          have keeps : c.isIn (u.node m).keeps = true := by
            simp [Node.keeps, directory, here, same]
          by_cases known : m < t.size
          · refine .inr ⟨m, (grown.grows.attached_iff wf known).mp above, ?_⟩
            rw [← grown.node known]
            exact keeps
          · exact ih m entry (Nat.not_lt.mp known) above keeps

theorem available_unlink (wf : t.WellFormed) (found : t.find? p = some n) :
    (t.unlink n).Available c ↔ c.isIn t.pool = true ∨
      ∃ m, t.Attached m ∧ (t.node m).path.isUnder p = false ∧ c.isIn (t.node m).keeps = true := by
  have keeps (m : Nat) : ((t.unlink n).node m).keeps = (t.node m).keeps := by
    unfold unlink
    rw [node_modify]
    split <;> rfl
  apply or_congr Iff.rfl
  apply exists_congr
  intro m
  rw [attached_unlink wf found, keeps, and_assoc]

theorem Furnished.settleRoot (h : t.Furnished) (wf : t.WellFormed) (d : Container) :
    (t.settleRoot d).Furnished := by
  have directory : (t.node rootId).isFile = false := by simp [Node.isFile, wf.root_kind]
  apply h.modify rootId
  intro furnished
  exact ⟨fun file => absurd (directory.symm.trans file) (by simp), furnished.directory⟩

theorem available_settleRoot (wf : t.WellFormed) (d : Container)
    (there : d.endpoints = c.endpoints → t.Available c) :
    (t.settleRoot d).Available c ↔ t.Available c := by
  have directory : (t.node rootId).isFile = false := by simp [Node.isFile, wf.root_kind]
  have keeps : (t.node rootId).keeps = (t.node rootId).home.toList := by
    simp [Node.keeps, directory]
  have keeps' := Node.keeps_settled directory d
  cases home : (t.node rootId).home with
  | some e =>
      apply available_modify wf rootId ⟨rfl, rfl, rfl⟩ rfl
      rw [keeps', keeps, home]
      rfl
  | none =>
      have after : (t.settleRoot d).Kept c ↔ _ := kept_modify wf rootId ⟨rfl, rfl, rfl⟩ rfl
      rw [keeps', home] at after
      have before := kept_iff t rootId c
      rw [keeps, home] at before
      constructor
      · intro available
        cases available with
        | inl pooled => exact .inl pooled
        | inr kept =>
            cases after.mp kept with
            | inl root => exact there (by simpa using root.2)
            | inr elsewhere => exact .inr (before.mpr (.inr elsewhere))
      · intro available
        cases available with
        | inl pooled => exact .inl pooled
        | inr kept =>
            cases before.mp kept with
            | inl root => simp at root
            | inr elsewhere => exact .inr (after.mpr (.inr elsewhere))

theorem kept_insert {x : Node} {a : Name} (wf : t.WellFormed) (attached : t.Attached m)
    (directory : (t.node m).isFile = false) (absent : t.child? m a = none)
    (path : x.path = (t.node m).path.child a) (kind : x.kind ≠ .root) (linked : x.linked = true) :
    (t.insert m x).2.Kept c ↔ t.Kept c ∨ c.isIn x.keeps = true := by
  have grows := grows_insert t m x
  have new : (t.insert m x).2.node t.size = { x with lineage := (t.node m).lineage ++ [m] } := by
    simp [node_insert]
  have old (n : Nat) (known : n < t.size) : (t.insert m x).2.node n = t.node n := by
    rw [node_insert, if_neg (Nat.ne_of_lt known)]
  constructor
  · intro kept
    obtain ⟨n, there, here⟩ := kept
    by_cases known : n < t.size
    · rw [old n known] at here
      exact .inl ⟨n, (grows.attached_iff wf known).mp there, here⟩
    · have bound := there.known
      rw [size_insert] at bound
      have last : n = t.size := Nat.le_antisymm (Nat.le_of_lt_succ bound) (Nat.not_lt.mp known)
      rw [last, new] at here
      exact .inr here
  · intro kept
    cases kept with
    | inl before =>
        obtain ⟨n, there, here⟩ := before
        exact ⟨n, grows.attached wf there, (old n there.known).symm ▸ here⟩
    | inr here =>
        refine ⟨t.size, attached_insert wf attached directory absent path kind linked, ?_⟩
        rw [new]
        exact here

/-! ## The pool -/

theorem isIn_addToPool (t : Tree) (c d : Container) :
    c.isIn (t.addToPool d).pool = (decide (d.endpoints = c.endpoints) || c.isIn t.pool) := by
  unfold addToPool
  split
  next there =>
    by_cases same : d.endpoints = c.endpoints
    · rw [Container.isIn_congr same] at there
      simp [same, there]
    · simp [same]
  next => simp [Bool.or_comm]

theorem isIn_returnToPool (t : Tree) (c d : Container) :
    c.isIn (t.returnToPool d).pool = (decide (d.endpoints = c.endpoints) || c.isIn t.pool) := by
  unfold returnToPool
  split
  next there =>
    by_cases same : d.endpoints = c.endpoints
    · rw [Container.isIn_congr same] at there
      simp [same, there]
    · simp [same]
  next => simp

theorem returnToPool_eq (t : Tree) (d : Container) :
    ∃ pool, t.returnToPool d = { t with pool } := by
  unfold returnToPool
  split
  · exact ⟨t.pool, rfl⟩
  · exact ⟨_, rfl⟩

theorem addToPool_eq (t : Tree) (d : Container) : ∃ pool, t.addToPool d = { t with pool } := by
  unfold addToPool
  split
  · exact ⟨t.pool, rfl⟩
  · exact ⟨_, rfl⟩

/-- A container that is not excluded, where one was found, and what is left of the pool. -/
inductive Taken (t : Tree) (excluded : List Container) : Option (Container × Bool) × Tree → Prop
  | pooled {c : Container} {pool : List Container} (wanted : c.isIn excluded = false)
      (perm : t.pool.Perm (c :: pool)) : Taken t excluded (some (c, true), { t with pool })
  | kept {c : Container} {n : Nat} (wanted : c.isIn excluded = false) (attached : t.Attached n)
      (kept : c ∈ (t.node n).keeps) : Taken t excluded (some (c, false), t)
  | nothing (all : ∀ c, t.Available c → c.isIn excluded = true) : Taken t excluded (none, t)

theorem takeAvailable_taken (wf : t.WellFormed) (furnished : t.Furnished)
    (excluded : List Container) : t.Taken excluded (t.takeAvailable excluded) := by
  have keeps (c : Container) :
      c ∈ (t.reachable.flatMap fun n => (t.node n).home.toList ++ (t.node n).replicas) ↔
        ∃ n, t.Attached n ∧ c ∈ (t.node n).keeps := by
    rw [List.mem_flatMap]
    apply exists_congr
    intro n
    rw [mem_reachable wf, (furnished n).keeps_eq]
  unfold takeAvailable
  cases pooled : t.pool.find? fun c : Container => !c.isIn excluded with
  | some c =>
      have wanted := List.find?_some pooled
      have member := List.mem_of_find?_eq_some pooled
      simp only [Bool.not_eq_true'] at wanted
      simp only [pooled]
      obtain ⟨d, before, after, passed, chosen, split, rest⟩ :=
        List.exists_of_eraseP (p := fun c : Container => !c.isIn excluded) member (by simp [wanted])
      have first : d = c := by
        have found := pooled
        rw [split, List.find?_append, List.find?_eq_none.mpr (by simpa using passed)] at found
        simpa [chosen] using found
      subst first
      rw [rest]
      apply Taken.pooled wanted
      rw [split]
      exact List.perm_middle
  | none =>
      simp only [pooled]
      have empty : ∀ c ∈ t.pool, c.isIn excluded = true := by
        simpa using List.find?_eq_none.mp pooled
      cases known : (t.reachable.flatMap fun n => (t.node n).home.toList ++
          (t.node n).replicas).find? fun c : Container => !c.isIn excluded with
      | some c =>
          have wanted := List.find?_some known
          simp only [Bool.not_eq_true'] at wanted
          obtain ⟨n, attached, kept⟩ := (keeps c).mp (List.mem_of_find?_eq_some known)
          exact .kept wanted attached kept
      | none =>
          apply Taken.nothing
          intro c available
          cases available with
          | inl pooled =>
              obtain ⟨d, member, same⟩ := Container.isIn_iff.mp pooled
              rw [← Container.isIn_congr same]
              exact empty d member
          | inr kept =>
              obtain ⟨n, attached, here⟩ := kept
              obtain ⟨d, member, same⟩ := Container.isIn_iff.mp here
              have all := List.find?_eq_none.mp known d ((keeps d).mpr ⟨n, attached, member⟩)
              rw [← Container.isIn_congr same]
              simpa using all

/-! ## Below a path -/

theorem mem_foldl_found {list found : List Container}
    (member : c ∈ list.foldl (fun found c => if c.isIn found then found else found ++ [c]) found) :
    c ∈ found ∨ c ∈ list := by
  induction list generalizing found with
  | nil => exact .inl member
  | cons d rest ih =>
      rw [List.foldl_cons] at member
      cases ih member with
      | inr later => exact .inr (List.mem_cons_of_mem _ later)
      | inl before =>
          split at before
          · exact .inl before
          · cases List.mem_append.mp before with
            | inl old => exact .inl old
            | inr new => exact .inr (List.mem_singleton.mp new ▸ List.mem_cons_self)

theorem containersUnder_eq_ok {containers : List Container}
    (listed : t.containersUnder p = .ok containers) :
    ∃ n, t.find? p = some n ∧ ∀ c ∈ containers, ∃ m ∈ t.walk [n], c ∈ (t.node m).replicas := by
  cases found : t.find? p with
  | none => simp [containersUnder, get, found, Bind.bind, Except.bind] at listed
  | some n =>
      simp only [containersUnder, get, found, Bind.bind, Except.bind, pure, Except.pure,
        Except.ok.injEq] at listed
      subst listed
      refine ⟨n, rfl, fun c member => ?_⟩
      cases mem_foldl_found member with
      | inl none => cases none
      | inr there => exact List.mem_flatMap.mp there

end Tree

end DistFs
