import DistFs.Proofs.Service.Run
import DistFs.Proofs.Storage.Contents
/-!
# The copies behind a tree

A tree is backed by the storage servers if every container that it lists for a file has that file,
with the same contents for all of them (`Backed`). Here is how each change of a tree and of the
servers keeps that up.
-/

namespace DistFs

def Servers.Holds (s : Servers) (c : Container) (p : Path) (d : Bytes) : Prop :=
  ∃ name, c = .own name ∧ s.content name p = some d

theorem Servers.Holds.of_eq {s s' : Servers} {c : Container} {p : Path} {d : Bytes}
    (h : s.Holds c p d) (same : ∀ name, s'.content name p = s.content name p) : s'.Holds c p d := by
  obtain ⟨name, own, there⟩ := h
  exact ⟨name, own, (same name).trans there⟩

def Container.Owned (c : Container) (registered : List String) : Prop :=
  (∃ name, c = .own name) ∧ c.endpoints.1 ∈ registered

namespace Tree

variable {t u : Tree} {s s' : Servers} {registered registered' : List String} {n m : Nat} {p : Path}
  {c d target : Container} {pool : List Container}

def Uses (t : Tree) (c : Container) : Prop := c ∈ t.pool ∨ ∃ n, c ∈ (t.node n).keeps

structure Backed (t : Tree) (s : Servers) (registered : List String) : Prop where
  memory : s.InMemory
  owned : ∀ c, t.Uses c → c.Owned registered
  apart : ∀ n, (t.node n).replicas.Pairwise fun c d => c.endpoints ≠ d.endpoints
  agree : ∀ n, t.Attached n → (t.node n).isFile = true →
    ∃ d, ∀ c ∈ (t.node n).replicas, s.Holds c (t.node n).path d

namespace Backed

theorem empty (memory : s.InMemory) (threshold : Nat) :
    (Tree.empty threshold).Backed s registered := by
  refine ⟨memory, fun c used => ?_, fun n => ?_, fun n _ file => ?_⟩
  · cases used with
    | inl pooled => cases pooled
    | inr kept =>
        obtain ⟨n, kept⟩ := kept
        rw [node_empty] at kept
        cases kept
  · rw [node_empty]
    exact List.Pairwise.nil
  · rw [node_empty] at file
    cases file

theorem of_servers (h : t.Backed s registered) (memory : s'.InMemory)
    (same : ∀ n, t.Attached n → (t.node n).isFile = true → ∀ name,
      .own name ∈ (t.node n).replicas →
      s'.content name (t.node n).path = s.content name (t.node n).path) :
    t.Backed s' registered := by
  refine ⟨memory, h.owned, h.apart, fun n attached file => ?_⟩
  obtain ⟨d, holds⟩ := h.agree n attached file
  refine ⟨d, fun c member => ?_⟩
  obtain ⟨name, rfl, there⟩ := holds c member
  exact ⟨name, rfl, (same n attached file name member).trans there⟩

theorem of_pool (h : t.Backed s registered) (owned : ∀ c ∈ pool, c.Owned registered) :
    ({ t with pool } : Tree).Backed s registered := by
  refine ⟨h.memory, fun c used => ?_, h.apart, fun n attached => ?_⟩
  · cases used with
    | inl pooled => exact owned c pooled
    | inr kept => exact h.owned c (.inr kept)
  · exact h.agree n (attached_pool.mp attached)

theorem mono (h : t.Backed s registered) (more : ∀ e ∈ registered, e ∈ registered') :
    t.Backed s registered' :=
  ⟨h.memory, fun c used => ⟨(h.owned c used).1, more _ (h.owned c used).2⟩, h.apart, h.agree⟩

theorem modify (h : t.Backed s registered) (wf : t.WellFormed) {change : Node → Node}
    (same : (t.node n).Same (change (t.node n)))
    (linked : (change (t.node n)).linked = (t.node n).linked) (memory : s'.InMemory)
    (elsewhere : ∀ m, m ≠ n → t.Attached m → (t.node m).isFile = true →
      ∀ name, s'.content name (t.node m).path = s.content name (t.node m).path)
    (owned : ∀ c ∈ (change (t.node n)).keeps, c.Owned registered)
    (apart : (change (t.node n)).replicas.Pairwise fun c d => c.endpoints ≠ d.endpoints)
    (agree : t.Attached n → (t.node n).isFile = true →
      ∃ d, ∀ c ∈ (change (t.node n)).replicas, s'.Holds c (t.node n).path d) :
    (t.modify n change).Backed s' registered := by
  have grows := grows_modify t n same linked
  refine ⟨memory, fun c used => ?_, fun m => ?_, fun m attached file => ?_⟩
  · cases used with
    | inl pooled => exact h.owned c (.inl pooled)
    | inr kept =>
        obtain ⟨m, kept⟩ := kept
        rw [node_modify] at kept
        split at kept
        next here => exact owned c (here.1 ▸ kept)
        next => exact h.owned c (.inr ⟨m, kept⟩)
  · rw [node_modify]
    split
    next here => exact here.1 ▸ apart
    next => exact h.apart m
  · have known : m < t.size := by simpa using attached.known
    have before := (grows.attached_iff wf known).mp attached
    rw [node_modify] at file ⊢
    split at file
    next here =>
      obtain ⟨rfl, -⟩ := here
      rw [same.isFile] at file
      rw [if_pos ⟨rfl, known⟩, same.path]
      exact agree before file
    next other =>
      have other : m ≠ n := fun same => other ⟨same, known⟩
      rw [if_neg fun here => other here.1]
      obtain ⟨d, holds⟩ := h.agree m before file
      exact ⟨d, fun c member => (holds c member).of_eq (elsewhere m other before file)⟩

theorem insert (h : t.Backed s registered) (wf : t.WellFormed) {x : Node} (memory : s'.InMemory)
    (elsewhere : ∀ n, t.Attached n → (t.node n).isFile = true →
      ∀ name, s'.content name (t.node n).path = s.content name (t.node n).path)
    (owned : ∀ c ∈ x.keeps, c.Owned registered)
    (apart : x.replicas.Pairwise fun c d => c.endpoints ≠ d.endpoints)
    (agree : x.isFile = true → ∃ d, ∀ c ∈ x.replicas, s'.Holds c x.path d) :
    (t.insert m x).2.Backed s' registered := by
  have grows := grows_insert t m x
  refine ⟨memory, fun c used => ?_, fun n => ?_, fun n attached file => ?_⟩
  · cases used with
    | inl pooled => exact h.owned c (.inl pooled)
    | inr kept =>
        obtain ⟨n, kept⟩ := kept
        rw [node_insert] at kept
        split at kept
        · exact owned c kept
        · exact h.owned c (.inr ⟨n, kept⟩)
  · rw [node_insert]
    split
    · exact apart
    · exact h.apart n
  · have bound := attached.known
    rw [size_insert] at bound
    rw [node_insert] at file ⊢
    split at file
    next new =>
      rw [if_pos new]
      exact agree file
    next old =>
      have known : n < t.size := Nat.lt_of_le_of_ne (Nat.le_of_lt_succ bound) old
      have before := (grows.attached_iff wf known).mp attached
      rw [if_neg old]
      obtain ⟨d, holds⟩ := h.agree n before file
      exact ⟨d, fun c member => (holds c member).of_eq (elsewhere n before file)⟩

theorem written {name : String} (h : t.Backed s registered) (memory : s'.InMemory)
    (alone : ∀ n, t.Attached n → (t.node n).isFile = true → (t.node n).path = p →
      (t.node n).replicas.length ≤ 1)
    (there : s.content name p ≠ none → s'.content name p ≠ none)
    (elsewhere : ∀ other q, (other ≠ name ∨ q ≠ p) → s'.content other q = s.content other q) :
    t.Backed s' registered := by
  refine ⟨memory, h.owned, h.apart, fun n attached file => ?_⟩
  obtain ⟨d, holds⟩ := h.agree n attached file
  by_cases here : (t.node n).path = p
  · -- The one copy may be on another server, which the write does not concern.
    cases listed : (t.node n).replicas with
    | nil => exact ⟨d, by simp⟩
    | cons c rest =>
        have single := alone n attached file here
        rw [listed] at holds single
        obtain rfl : rest = [] := List.eq_nil_of_length_eq_zero (by simpa using single)
        obtain ⟨other, rfl, before⟩ := holds c List.mem_cons_self
        have after : s'.content other (t.node n).path ≠ none := by
          by_cases same : other = name
          · subst same
            rw [here] at before ⊢
            exact there (by simp [before])
          · rw [elsewhere other _ (.inl same), before]
            simp
        obtain ⟨e, after⟩ := Option.ne_none_iff_exists'.mp after
        refine ⟨e, fun c member => ?_⟩
        rw [List.mem_singleton.mp member]
        exact ⟨other, rfl, after⟩
  · exact ⟨d, fun c member => (holds c member).of_eq fun other => elsewhere other _ (.inr here)⟩

/-! ## The pool -/

theorem returnToPool (h : t.Backed s registered) (owned : c.Owned registered) :
    (t.returnToPool c).Backed s registered := by
  unfold Tree.returnToPool
  split
  · exact h
  · apply h.of_pool
    intro d member
    cases List.mem_cons.mp member with
    | inl same => exact same ▸ owned
    | inr pooled => exact h.owned d (.inl pooled)

theorem addToPool (h : t.Backed s registered) (owned : c.Owned registered) :
    (t.addToPool c).Backed s registered := by
  unfold Tree.addToPool
  split
  · exact h
  · apply h.of_pool
    intro d member
    cases List.mem_append.mp member with
    | inl pooled => exact h.owned d (.inl pooled)
    | inr same => exact List.mem_singleton.mp same ▸ owned

theorem taken {excluded : List Container} {fromPool : Bool} (h : t.Backed s registered)
    (taken : t.Taken excluded (some (c, fromPool), u)) :
    u.Backed s registered ∧ c.Owned registered := by
  cases taken with
  | pooled wanted perm =>
      refine ⟨h.of_pool fun d member => h.owned d (.inl ?_), h.owned c (.inl ?_)⟩
      · exact perm.symm.subset (List.mem_cons_of_mem _ member)
      · exact perm.symm.subset List.mem_cons_self
  | kept wanted attached kept => exact ⟨h, h.owned c (.inr ⟨_, kept⟩)⟩

theorem given_back {excluded : List Container} {fromPool : Bool} (h : t.Backed s registered)
    (taken : t.Taken excluded (some (c, fromPool), u)) :
    (if fromPool then u.returnToPool c else u).Backed s registered := by
  obtain ⟨backed, owned⟩ := h.taken taken
  cases fromPool with
  | false => exact backed
  | true => exact backed.returnToPool owned

/-! ## Reading -/

theorem counted (h : t.Backed s registered) (wf : t.WellFormed) (n reads : Nat) :
    (t.counted n reads).Backed s registered :=
  h.modify wf ⟨rfl, rfl, rfl⟩ rfl h.memory (fun _ _ _ _ _ => rfl)
    (fun c kept => h.owned c (.inr ⟨n, kept⟩)) (h.apart n) (h.agree n)

theorem copied (h : t.Backed s registered) (wf : t.WellFormed) (source : Container)
    (attached : t.Attached n) (kind : (t.node n).isFile = true) (owned : target.Owned registered)
    (wanted : target.isIn (t.node n).replicas = false) (listed : source ∈ (t.node n).replicas)
    (copied : (s.copy target.command (t.node n).path source.storage).1 = .ok true) :
    (t.copied n target).Backed (s.copy target.command (t.node n).path source.storage).2
      registered := by
  obtain ⟨e, holds⟩ := h.agree n attached kind
  obtain ⟨name, own⟩ := owned.1
  obtain ⟨origin, rfl, there⟩ := holds source listed
  obtain ⟨memory, d, read, contents⟩ :=
    Servers.copy_direct_contents h.memory name origin (t.node n).path
  have same : s.copy target.command (t.node n).path (Container.own origin).storage =
      s.copy (.direct name) (t.node n).path (.direct origin) := by rw [own]; rfl
  rw [same] at copied ⊢
  obtain rfl : d = e := Option.some.inj ((read copied).symm.trans there)
  simp only [copied, true_and] at contents
  have kind' : Node.isFile { t.node n with replicas := (t.node n).replicas ++ [target] } = true :=
    kind
  refine h.modify wf ⟨rfl, rfl, rfl⟩ rfl memory ?_ ?_ ?_ ?_
  · intro m other attached' file name'
    have apart : (t.node m).path ≠ (t.node n).path := fun same =>
      other (attached'.eq_of_path wf attached same)
    exact (contents name' _).trans (if_neg fun here => apart here.2)
  · intro c kept
    rw [Node.keeps, if_pos kind'] at kept
    cases List.mem_append.mp kept with
    | inl old => exact h.owned c (.inr ⟨n, by rwa [Node.keeps, if_pos kind]⟩)
    | inr new => exact List.mem_singleton.mp new ▸ owned
  · apply List.pairwise_append.mpr
    refine ⟨h.apart n, List.pairwise_singleton _ _, ?_⟩
    intro c old c' new same
    rw [List.mem_singleton.mp new] at same
    rw [Container.isIn_iff.mpr ⟨c, old, same⟩] at wanted
    cases wanted
  · intro _ _
    refine ⟨d, fun c member => ?_⟩
    cases List.mem_append.mp member with
    | inl old =>
        obtain ⟨name', rfl, here⟩ := holds c old
        refine ⟨name', rfl, (contents name' _).trans ?_⟩
        split
        · rfl
        · exact here
    | inr new =>
        rw [List.mem_singleton.mp new]
        exact ⟨name, own, (contents name _).trans (if_pos ⟨rfl, rfl⟩)⟩

theorem uncopied {source : Container} (h : t.Backed s registered) (owned : target.Owned registered)
    (owned' : source.Owned registered) (p : Path)
    (refused : (s.copy target.command p source.storage).1 ≠ .ok true) :
    t.Backed (s.copy target.command p source.storage).2 registered := by
  obtain ⟨name, rfl⟩ := owned.1
  obtain ⟨origin, rfl⟩ := owned'.1
  obtain ⟨memory, d, -, contents⟩ := Servers.copy_direct_contents h.memory name origin p
  apply h.of_servers memory
  intro n _ _ name' _
  exact (contents name' _).trans (if_neg fun done => refused done.1)

theorem recordRead (h : t.Backed s registered) (wf : t.WellFormed) (furnished : t.Furnished)
    (attached : t.Attached n) :
    (t.recordRead n s).2.1.Backed (t.recordRead n s).2.2 registered := by
  have reading := recordRead_reading wf furnished n s
  generalize t.recordRead n s = result at reading
  have listed {source : Container} {rest : List Container} (kind : (t.node n).isFile = true)
      (replicas : (t.node n).replicas = source :: rest) : source ∈ (t.node n).keeps := by
    rw [Node.keeps, if_pos kind, replicas]
    exact List.mem_cons_self
  cases reading with
  | directory => exact h
  | counted kind reads => exact h.counted wf n reads
  | @refused source target rest fromPool u kind replicas taken refused =>
      have counted := h.counted wf n 0
      have owned := h.owned source (.inr ⟨n, listed kind replicas⟩)
      have left := counted.uncopied (counted.taken taken).2 owned (t.node n).path refused
      exact left.given_back taken
  | @copied source target rest fromPool u kind replicas taken copied =>
      obtain ⟨backed, owned⟩ := (h.counted wf n 0).taken taken
      have wanted := taken.wanted
      obtain ⟨pool, rfl⟩ := taken.nodes
      have node : (({ t.counted n 0 with pool } : Tree).node n) = { t.node n with reads := 0 } :=
        (node_counted t n n 0).trans (if_pos ⟨rfl, attached.known⟩)
      have attached' : ({ t.counted n 0 with pool } : Tree).Attached n :=
        attached_pool.mpr ((attached_counted wf 0).mpr attached)
      have made :=
        backed.copied (wf.counted n 0).of_pool source attached' (by rw [node]; exact kind)
        owned (by rw [node]; exact wanted) (by rw [node]; exact replicas ▸ List.mem_cons_self)
        (by rw [node]; exact copied)
      rw [node] at made
      exact made

/-! ## Giving up copies -/

theorem consolidate_servers (t : Tree) (n : Nat) (s : Servers) :
    (t.consolidate n s).2.2 = if (t.node n).isFile then
      (deleteFrom (t.node n).path ((t.node n).replicas.drop 1) s).2 else s := by
  unfold Tree.consolidate
  cases kind : (t.node n).isFile with
  | false => simp [kind]
  | true =>
      simp only [kind, Bool.not_true, Bool.false_eq_true, if_false, if_true]
      split <;> simp_all

theorem consolidate (h : t.Backed s registered) (wf : t.WellFormed) (attached : t.Attached n) :
    (t.consolidate n s).2.1.Backed (t.consolidate n s).2.2 registered := by
  rw [consolidate_tree, consolidate_servers]
  cases kind : (t.node n).isFile with
  | false => exact h
  | true =>
      have keeps : (t.node n).keeps = (t.node n).replicas := by rw [Node.keeps, if_pos kind]
      have owned (c : Container) (listed : c ∈ (t.node n).replicas) : c.Owned registered :=
        h.owned c (.inr ⟨n, keeps.symm ▸ listed⟩)
      obtain ⟨memory, contents⟩ := Servers.deleteFrom_contents h.memory (t.node n).path
        fun c removed => (owned c (List.mem_of_mem_drop removed)).1
      have kind' : Node.isFile { t.node n with replicas := (t.node n).replicas.take 1 } = true :=
        kind
      refine h.modify wf ⟨rfl, rfl, rfl⟩ rfl memory ?_ ?_ ?_ ?_
      · intro m other attached' file name
        exact contents name _ (.inr (wf.isUnder_file attached kind attached' other))
      · intro c kept
        rw [Node.keeps, if_pos kind'] at kept
        exact owned c (List.mem_of_mem_take kept)
      · exact (h.apart n).sublist (List.take_sublist 1 _)
      · intro _ _
        obtain ⟨d, holds⟩ := h.agree n attached kind
        refine ⟨d, fun c kept => ?_⟩
        obtain ⟨name, rfl, there⟩ := holds c (List.mem_of_mem_take kept)
        refine ⟨name, rfl, (contents name _ (.inl fun removed => ?_)).trans there⟩
        have split := h.apart n
        rw [← List.take_append_drop 1 (t.node n).replicas] at split
        exact (List.pairwise_append.mp split).2.2 _ kept _ removed rfl

/-! ## Making a file -/

theorem created (h : t.Backed s registered) (wf : t.WellFormed) (owned : target.Owned registered)
    (absent : ∀ n, t.Attached n → (t.node n).path ≠ p)
    (created : (s.create target.command p).1 = .ok true) :
    (t.insert m { path := p, kind := .file, replicas := [target] }).2.Backed
      (s.create target.command p).2 registered := by
  obtain ⟨name, rfl⟩ := owned.1
  obtain ⟨memory, contents⟩ := Servers.create_direct_contents h.memory name p
  refine h.insert wf memory ?_ ?_ (List.pairwise_singleton _ _) ?_
  · intro n attached _ other
    exact (contents other _).trans (if_neg fun here => absent n attached here.2.2)
  · intro c kept
    exact List.mem_singleton.mp kept ▸ owned
  · intro _
    refine ⟨[], fun c member => ?_⟩
    rw [List.mem_singleton.mp member]
    exact ⟨name, rfl, (contents name p).trans (if_pos ⟨created, rfl, rfl⟩)⟩

theorem uncreated (h : t.Backed s registered) (owned : target.Owned registered) (p : Path)
    (refused : (s.create target.command p).1 ≠ .ok true) :
    t.Backed (s.create target.command p).2 registered := by
  obtain ⟨name, rfl⟩ := owned.1
  obtain ⟨memory, contents⟩ := Servers.create_direct_contents h.memory name p
  apply h.of_servers memory
  intro n _ _ other _
  exact (contents other _).trans (if_neg fun done => refused done.1)

/-! ## Removing -/

theorem unlink (h : t.Backed s registered) (wf : t.WellFormed) (found : t.find? p = some n)
    (memory : s'.InMemory)
    (apart : ∀ name q, q.isUnder p = false → s'.content name q = s.content name q) :
    (t.unlink n).Backed s' registered := by
  have node (m : Nat) : (t.unlink n).node m =
      if m = n ∧ m < t.size then { t.node m with linked := false } else t.node m := node_modify ..
  have keeps (m : Nat) : ((t.unlink n).node m).keeps = (t.node m).keeps := by
    rw [node]
    split <;> rfl
  have replicas (m : Nat) : ((t.unlink n).node m).replicas = (t.node m).replicas := by
    rw [node]
    split <;> rfl
  refine ⟨memory, fun c used => ?_, fun m => replicas m ▸ h.apart m, fun m attached file => ?_⟩
  · cases used with
    | inl pooled => exact h.owned c (.inl pooled)
    | inr kept =>
        obtain ⟨m, kept⟩ := kept
        exact h.owned c (.inr ⟨m, keeps m ▸ kept⟩)
  · obtain ⟨before, outside⟩ := (attached_unlink wf found).mp attached
    have same := (extends_unlink t n).same m before.known
    obtain ⟨d, holds⟩ := h.agree m before (same.isFile ▸ file)
    rw [replicas, same.path]
    exact ⟨d, fun c member => (holds c member).of_eq fun name => apart name _ outside⟩

theorem of_containersUnder {containers : List Container} (h : t.Backed s registered)
    (furnished : t.Furnished) (listed : t.containersUnder p = .ok containers)
    (member : c ∈ containers) : c.Owned registered := by
  obtain ⟨n, -, copies⟩ := containersUnder_eq_ok listed
  obtain ⟨m, -, copy⟩ := copies c member
  exact h.owned c (.inr ⟨m, (furnished m).mem_keeps copy⟩)

/-! ## Registering -/

theorem settleRoot (h : t.Backed s registered) (wf : t.WellFormed) (owned : d.Owned registered) :
    (t.settleRoot d).Backed s registered := by
  have directory : (t.node rootId).isFile = false := by simp [Node.isFile, wf.root_kind]
  refine h.modify wf ⟨rfl, rfl, rfl⟩ rfl h.memory (fun _ _ _ _ _ => rfl) ?_ (h.apart rootId)
    (h.agree rootId)
  intro c kept
  rw [Node.keeps_settled directory, Option.mem_toList] at kept
  cases home : (t.node rootId).home with
  | some e =>
      rw [home] at kept
      refine h.owned c (.inr ⟨rootId, ?_⟩)
      rw [Node.keeps, if_neg (by simp [directory]), home]
      exact Option.mem_toList.mpr kept
  | none =>
      rw [home] at kept
      cases kept
      exact owned

theorem grown {may : Node → Node → Prop} (h : t.Backed s registered) (wf : t.WellFormed)
    (owned : d.Owned registered) (grown : Grown t may u)
    (makes : ∀ y x, may y x → y.Makes (some d) x)
    (held : ∀ y x, may y x → x.isFile = true → ∃ e, s.Holds d x.path e) :
    u.Backed s registered := by
  induction grown with
  | same => exact h
  | @entry v m x a grown attached directory absent path kind linked allowed ih =>
      have wf' := grown.wellFormed wf
      obtain ⟨keeps, replicas, none⟩ := (makes _ x allowed).lives
      apply ih.insert wf' ih.memory (fun _ _ _ _ => rfl)
      · intro c kept
        rw [keeps, List.mem_singleton] at kept
        exact kept ▸ owned
      · cases kind : x.isFile with
        | true => exact (replicas kind).symm ▸ List.pairwise_singleton _ d
        | false => exact (none kind).symm ▸ List.Pairwise.nil
      · intro file
        obtain ⟨e, holds⟩ := held _ x allowed file
        rw [replicas file]
        refine ⟨e, fun c member => ?_⟩
        rw [List.mem_singleton.mp member]
        exact holds

theorem recording {offer : Cluster.Offer} (h : t.Backed s registered) (wf : t.WellFormed)
    (owned : d.Owned registered) (first : Cluster.Recording d t p offer u)
    (held : offer = .added → ∃ e, s.Holds d p e) : u.Backed s registered := by
  have settled := h.settleRoot wf owned
  have wf' := wf.settleRoot d
  cases first with
  | passed => exact h
  | refused other quiet =>
      apply settled.grown wf' owned quiet
      · exact fun y x made => made.1
      · exact fun y x made file => absurd (made.2.symm.trans file) (by simp)
  | added registered =>
      have grown := (register_grown wf p d).1
      rw [registered] at grown
      apply settled.grown wf' owned grown
      · exact fun y x made => made.1
      · exact fun y x made file => (made.2 file).symm ▸ held rfl

theorem recorded {offers : List (Path × Cluster.Offer)} (h : t.Backed s registered)
    (wf : t.WellFormed) (owned : d.Owned registered) (recorded : Cluster.Recorded d t offers u)
    (held : ∀ p, (p, Cluster.Offer.added) ∈ offers → ∃ e, s.Holds d p e) :
    u.Backed s registered := by
  induction recorded with
  | nil => exact h
  | cons first rest ih =>
      apply ih (h.recording wf owned first _) (first.keeps wf).2.1
      · exact fun p later => held p (List.mem_cons_of_mem _ later)
      · rintro rfl
        exact held _ List.mem_cons_self

theorem entered {offers : List (Path × Cluster.Offer)} (h : t.Backed s registered)
    (wf : t.WellFormed) (owned : d.Owned registered) (recorded : Cluster.Recorded d t offers u)
    (held : ∀ p, (p, Cluster.Offer.added) ∈ offers → ∃ e, s.Holds d p e) :
    ∃ pool, (if offers.any (·.2 = .added) then u else u.addToPool d) = { u with pool } ∧
      ({ u with pool } : Tree).Backed s registered := by
  have backed := h.recorded wf owned recorded held
  split
  · exact ⟨u.pool, rfl, backed⟩
  · obtain ⟨pool, added⟩ := addToPool_eq u d
    exact ⟨pool, added, added ▸ backed.addToPool owned⟩

end Backed

end Tree

end DistFs
