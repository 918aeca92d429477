import DistFs.Proofs.Tree.Listing
import DistFs.Proofs.Tree.Operations
import Mathlib.Data.List.Sort
/-!
# The directory tree shows a flat map

A tree shows a listing if it has a node for each entry and for nothing else (`Shows`). Each call
takes both on to a tree and a listing of which the same is true, and is answered alike on both, so
to its callers the tree is the listing.
-/

namespace DistFs

def Node.entry (x : Node) : Entry := ⟨x.kind, x.home, x.replicas⟩

@[simp] theorem Node.isFile_entry (x : Node) : x.entry.isFile = x.isFile := rfl

namespace Tree

variable {t u : Tree} {l : Listing} {p q : Path} {n m : Nat} {c : Container}

def entryOf (t : Tree) (n : NodeId) : Path × Entry := ((t.node n).path, (t.node n).entry)

def perform (t : Tree) : TreeCall → TreeAnswer × Tree
  | .get p => (.node ((t.get p).map t.entryOf), t)
  | .names p => (.names (t.entries p), t)
  | .add p kind container =>
    match t.add p kind container with
    | .ok (n, u) => (.node (.ok (u.entryOf n)), u)
    | .error e => (.node (.error e), t)
  | .remove p => (.removed (t.remove p).1, (t.remove p).2)
  | .register p c =>
    let (answer, u) := t.register p c
    (.node (answer.map u.entryOf), u)

def performAll (t : Tree) : List TreeCall → List TreeAnswer × Tree
  | [] => ([], t)
  | call :: calls =>
    let (answer, t) := t.perform call
    let (answers, t) := t.performAll calls
    (answer :: answers, t)

theorem entryOf_insert_fst (t : Tree) (m : NodeId) (x : Node) :
    (t.insert m x).2.entryOf (t.insert m x).1 = (x.path, x.entry) := by
  simp [entryOf, node_insert, Node.entry]

structure Shows (t : Tree) (l : Listing) : Prop where
  wf : t.WellFormed
  entries : ∀ p, l.get? p = (t.find? p).map fun n => (t.node n).entry

def Alike (t : Tree) (l : Listing) (call : TreeCall) : Prop :=
  (t.perform call).1 = (l.perform call).1 ∧ (t.perform call).2.Shows (l.perform call).2

namespace Shows

theorem empty (threshold : Nat) : (Tree.empty threshold).Shows Listing.initial := by
  refine ⟨wellFormed_empty threshold, fun p => ?_⟩
  rcases p.eq_root_or_child with rfl | ⟨q, a, rfl⟩
  · rfl
  · have absent : (Tree.empty threshold).find? (q.child a) = none := by
      cases found : (Tree.empty threshold).find? (q.child a) with
      | none => rfl
      | some n =>
        obtain ⟨attached, path⟩ := (find?_eq_some_iff (wellFormed_empty threshold)).mp found
        have root : n = rootId := Nat.lt_one_iff.mp attached.known
        rw [root, (wellFormed_empty threshold).root_path] at path
        exact absurd path.symm (Path.child_ne_root q a)
    simp [absent, Listing.initial, Path.child_ne_root]

theorem get?_of_find? (h : t.Shows l) (found : t.find? p = some n) :
    l.get? p = some (t.node n).entry := by
  rw [h.entries, found, Option.map_some]

theorem contains (h : t.Shows l) (p : Path) : l.contains p = (t.find? p).isSome := by
  rw [PathMap.contains, h.entries, Option.isSome_map]

theorem entry_of_find? (h : t.Shows l) (found : t.find? p = some n) :
    l.entry p = .ok (t.node n).entry := by
  rw [Listing.entry, h.get?_of_find? found]

theorem entry_of_absent (h : t.Shows l) (absent : t.find? p = none) :
    l.entry p = .error (.notFound p) := by
  rw [Listing.entry, h.entries, absent, Option.map_none]

theorem isFile_of_find? (h : t.Shows l) (found : t.find? p = some n) :
    l.isFile p = (t.node n).isFile := by
  rw [Listing.isFile, h.get?_of_find? found, Option.any_some, Node.isFile_entry]

theorem isFile_of_absent (h : t.Shows l) (absent : t.find? p = none) : l.isFile p = false := by
  rw [Listing.isFile, h.entries, absent]
  rfl

theorem closed (h : t.Shows l) : l.Closed := by
  refine ⟨⟨_, h.get?_of_find? (find?_root t), h.wf.root_kind⟩, fun p listed q above => ?_,
    fun p e listed root => ?_⟩
  · rw [h.contains] at listed
    obtain ⟨n, found⟩ := Option.isSome_iff_exists.mp listed
    obtain ⟨attached, rfl⟩ := (find?_eq_some_iff h.wf).mp found
    have place : t.find? q ∈ (t.node n).lineage.map some := by
      rw [find?_lineage h.wf attached]
      exact List.mem_map_of_mem above
    obtain ⟨m, member, here⟩ := List.mem_map.mp place
    exact ⟨_, h.get?_of_find? here.symm, h.wf.directory_of_mem_lineage attached.known m member⟩
  · rw [h.entries, Option.map_eq_some_iff] at listed
    obtain ⟨n, found, rfl⟩ := listed
    obtain ⟨attached, rfl⟩ := (find?_eq_some_iff h.wf).mp found
    by_contra other
    have below : n ≠ rootId := by
      rintro rfl
      exact other h.wf.root_path
    obtain ⟨m, entry⟩ := h.wf.entry n attached.known below
    exact entry.kind root

/-! ## One change -/

theorem insert {x : Node} {a : Name} (h : t.Shows l) (attached : t.Attached m)
    (directory : (t.node m).isFile = false) (absent : t.child? m a = none)
    (path : x.path = (t.node m).path.child a) (kind : x.kind ≠ .root) (linked : x.linked = true) :
    (t.insert m x).2.Shows (PathMap.insert l x.path x.entry) := by
  refine ⟨h.wf.insert attached.known directory absent path kind, fun q => ?_⟩
  rw [find?_insert h.wf attached directory absent path kind linked, PathMap.get?_insert]
  split
  · simp [node_insert, Node.entry]
  · rw [h.entries]
    refine Option.map_congr fun n found => ?_
    have known := ((find?_eq_some_iff h.wf).mp found).1.known
    rw [node_insert, if_neg (Nat.ne_of_lt known)]

theorem unlink (h : t.Shows l) (found : t.find? p = some n) (other : n ≠ rootId) :
    (t.unlink n).Shows (l.filter fun q => !q.isUnder p) := by
  refine ⟨h.wf.unlink other, fun q => ?_⟩
  rw [find?_unlink h.wf found other, PathMap.get?_filter, h.entries]
  cases q.isUnder p with
  | true => rfl
  | false =>
    refine Option.map_congr fun k _ => ?_
    rw [node_unlink]
    split <;> rfl

theorem settle (h : t.Shows l) (c : Container) : (t.settleRoot c).Shows (l.settle c) := by
  refine ⟨h.wf.settleRoot c, fun q => ?_⟩
  rw [find?_settleRoot h.wf, Listing.get?_settle]
  split
  next root =>
    rw [root, h.entries, find?_root, settleRoot]
    rw [Option.map_some, Option.map_some, Option.map_some, node_modify,
      if_pos ⟨rfl, h.wf.nonempty⟩]
    rfl
  next other =>
    rw [h.entries]
    refine Option.map_congr fun n found => ?_
    have apart : n ≠ rootId := by
      rintro rfl
      exact other (((find?_eq_some_iff h.wf).mp found).2.symm.trans h.wf.root_path)
    rw [settleRoot, node_modify, if_neg fun here => apart here.1]

/-! ## Calls that change nothing -/

theorem get (h : t.Shows l) (p : Path) :
    (t.get p).map t.entryOf = (l.entry p).map (p, ·) := by
  unfold Tree.get
  cases found : t.find? p with
  | none => rw [h.entry_of_absent found]; rfl
  | some n =>
    rw [h.entry_of_find? found, ← ((find?_eq_some_iff h.wf).mp found).2]
    rfl

theorem paths_children (h : t.Shows l) (found : t.find? p = some n) :
    (t.children n).map (fun m => (t.node m).path) = l.keys.filter fun q => q.parent? = some p := by
  obtain ⟨attached, rfl⟩ := (find?_eq_some_iff h.wf).mp found
  apply (List.pairwise_map.mpr (children_sorted h.wf n)).eq_of_mem_iff (l.sorted_keys.filter _)
  intro q
  simp only [List.mem_map, List.mem_filter, decide_eq_true_eq, PathMap.mem_keys, h.entries,
    Option.map_eq_some_iff]
  constructor
  · rintro ⟨m, child, rfl⟩
    obtain ⟨known, linked, entry⟩ := (mem_children h.wf).mp child
    have there := (entry.attached_iff h.wf known).mpr ⟨linked, attached⟩
    obtain ⟨a, path⟩ := entry.path
    exact ⟨⟨_, m, (find?_eq_some_iff h.wf).mpr ⟨there, rfl⟩, rfl⟩, by rw [path, Path.parent?_child]⟩
  · rintro ⟨⟨-, m, here, -⟩, parent⟩
    rcases q.eq_root_or_child with rfl | ⟨r, a, rfl⟩
    · simp [Path.parent?] at parent
    · obtain rfl : r = (t.node n).path := by simpa using parent
      rw [find?_child, found, Option.bind_some, child?_eq_some_iff h.wf] at here
      exact ⟨m, (mem_children h.wf).mpr ⟨here.1, here.2.1, here.2.2.1⟩, here.2.2.2⟩

theorem names (h : t.Shows l) (p : Path) : t.entries p = l.names p := by
  unfold Tree.entries Tree.get Listing.names
  cases found : t.find? p with
  | none =>
    rw [h.entry_of_absent found]
    rfl
  | some n =>
    rw [h.entry_of_find? found, ← h.paths_children found, List.filterMap_map]
    cases file : (t.node n).isFile with
    | true => simp [file, bind, Except.bind, throw, throwThe, MonadExceptOf.throw]
    | false => simp [file, bind, Except.bind, pure, Except.pure]

/-! ## Calls that change the tree -/

theorem add (h : t.Shows l) (p : Path) (kind : NodeKind) (container : Option Container) :
    (∀ e, l.newEntry p kind container = .error e → t.add p kind container = .error e) ∧
    ∀ x, l.newEntry p kind container = .ok x → ∃ n u, t.add p kind container = .ok (n, u) ∧
      u.entryOf n = (p, x) ∧ u.Shows (PathMap.insert l p x) := by
  rcases p.eq_root_or_child with rfl | ⟨q, a, rfl⟩
  · simp [Listing.newEntry, Tree.add, Path.parent?, throw, throwThe, MonadExceptOf.throw]
  · unfold Listing.newEntry Tree.add Tree.get
    simp only [Path.parent?_child, Path.last?_child]
    cases found : t.find? q with
    | none => simp [h.entry_of_absent found, bind, Except.bind]
    | some m =>
      obtain ⟨attached, rfl⟩ := (find?_eq_some_iff h.wf).mp found
      have present : l.contains ((t.node m).path.child a) = (t.child? m a).isSome := by
        rw [h.contains, find?_child, found, Option.bind_some]
      simp only [h.entry_of_find? found, Node.isFile_entry, present, bind, Except.bind, pure,
        Except.pure, throw, throwThe, MonadExceptOf.throw]
      by_cases file : (t.node m).isFile = true
      · simp [file]
      · by_cases there : (t.child? m a).isSome = true
        · simp [file, there]
        · have absent : t.child? m a = none := by simpa using there
          simp only [file, there, Bool.false_eq_true, if_false]
          cases kind with
          | root => simp
          | directory =>
            refine ⟨nofun, ?_⟩
            rintro x ⟨⟩
            exact ⟨_, _, rfl, entryOf_insert_fst .., h.insert attached (by simpa using file) absent
              rfl nofun rfl⟩
          | file =>
            cases lives : container <|> (t.node m).home with
            | none => simp [Node.entry, lives]
            | some c =>
              simp only [Node.entry, lives]
              refine ⟨nofun, ?_⟩
              rintro x ⟨⟩
              exact ⟨_, _, rfl, entryOf_insert_fst .., h.insert attached (by simpa using file)
                absent rfl nofun rfl⟩

theorem remove (h : t.Shows l) (p : Path) : t.Alike l (.remove p) := by
  simp only [Alike, perform, Listing.perform, remove_eq]
  by_cases root : p.isRoot = true
  · simpa [root] using h
  · simp only [root, Bool.false_eq_true, if_false, h.contains]
    cases found : t.find? p with
    | none =>
      refine ⟨rfl, h.wf, fun q => ?_⟩
      rw [PathMap.get?_filter, h.entries]
      cases under : q.isUnder p with
      | true => rw [find?_eq_none_of_isUnder found under]; rfl
      | false => rfl
    | some n =>
      refine ⟨rfl, h.unlink found ?_⟩
      rintro rfl
      have path := ((find?_eq_some_iff h.wf).mp found).2
      rw [h.wf.root_path] at path
      simp [← path, Path.isRoot] at root

theorem descend (h : t.Shows l) (c : Container) (names : List Name) (attached : t.Attached n)
    (directory : (t.node n).isFile = false) :
    (∀ q, ((t.node n).path.steps names).find? l.isFile = some q →
      Tree.descend c names n t = (.error (.notADirectory q), t)) ∧
    ((∀ q ∈ (t.node n).path.steps names, l.isFile q = false) →
      (∃ m, (Tree.descend c names n t).1 = .ok m) ∧
      (Tree.descend c names n t).2.Shows (l.establish c ((t.node n).path.steps names))) := by
  induction names generalizing n t l with
  | nil => exact ⟨nofun, fun _ => ⟨⟨n, rfl⟩, h⟩⟩
  | cons a names ih =>
    have here : t.find? ((t.node n).path.child a) = t.child? n a := by
      rw [find?_child, (find?_eq_some_iff h.wf).mpr ⟨attached, rfl⟩, Option.bind_some]
    rw [Path.steps, List.find?_cons, Tree.descend, Listing.establish, List.foldl_cons,
      ← Listing.establish, List.forall_mem_cons]
    cases child : t.child? n a with
    | some m =>
      obtain ⟨known, linked, entry, path⟩ := (child?_eq_some_iff h.wf).mp child
      have below := (entry.attached_iff h.wf known).mpr ⟨linked, attached⟩
      have there := here.trans child
      rw [h.isFile_of_find? there, h.contains, there, ← path]
      cases file : (t.node m).isFile with
      | true => simp [file]
      | false => simpa [file] using ih h below file
    | none =>
      have absent := here.trans child
      generalize made :
        ({ path := (t.node n).path.child a, kind := .directory, home := some c } : Node) = x
      have path : x.path = (t.node n).path.child a := by rw [← made]
      have entry : x.entry = { kind := .directory, home := some c } := by rw [← made]; rfl
      have kind : x.kind ≠ .root := by simp [← made]
      have linked : x.linked = true := by rw [← made]
      have shown := h.insert attached directory child path kind linked
      have fresh := attached_insert h.wf attached directory child path kind linked
      have dir : ((t.insert n x).2.node t.size).isFile = false := by
        simp [node_insert, Node.isFile, ← made]
      have rest := (ih shown fresh dir).2
      simp only [node_insert, if_pos, path, entry] at rest
      rw [h.isFile_of_absent absent, h.contains, absent]
      -- Nothing stands below a directory that is missing, so no file is met any more.
      have clear : ∀ q ∈ ((t.node n).path.child a).steps names, l.isFile q = false := by
        intro q member
        have under := (Path.below_of_mem_steps member).1
        exact h.isFile_of_absent (find?_eq_none_of_isUnder absent under)
      refine ⟨fun q met => ?_, fun _ => rest fun q member => ?_⟩
      · have file := List.find?_some met
        rw [clear q (List.mem_of_find?_eq_some met)] at file
        cases file
      · have other := (Path.below_of_mem_steps member).2
        simpa [Listing.isFile, other] using clear q member

theorem descend_above (h : t.Shows l) (c : Container) (q : Path) (a : Name) :
    (∀ r, (q.child a).ancestors.find? l.isFile = some r →
      Tree.descend c q.names rootId t = (.error (.notADirectory r), t)) ∧
    ((q.child a).ancestors.find? l.isFile = none →
      ∃ m u, Tree.descend c q.names rootId t = (.ok m, u) ∧ u.find? q = some m ∧
        (u.node m).isFile = false ∧ u.Shows (l.establish c (q.child a).ancestors)) := by
  have attached := h.wf.attached_root
  have directory : (t.node rootId).isFile = false := by simp [Node.isFile, h.wf.root_kind]
  have top : l.isFile .root = false := (h.isFile_of_find? (find?_root t)).trans directory
  have there : l.contains .root = true := by rw [h.contains, find?_root, Option.isSome_some]
  obtain ⟨met, clear⟩ := h.descend c q.names attached directory
  obtain ⟨-, reached⟩ := descend_grown c q.names h.wf attached directory
  rw [h.wf.root_path] at met clear
  rw [Path.ancestors_child_eq_steps, List.find?_cons, top]
  refine ⟨met, fun none_met => ?_⟩
  obtain ⟨⟨m, done⟩, shown⟩ := clear (by simpa using none_met)
  obtain ⟨attached', directory', names⟩ := reached m done
  rw [h.wf.root_path] at names
  refine ⟨m, _, Prod.ext done rfl, ?_, directory', ?_⟩
  · exact (find?_eq_some_iff shown.wf).mpr ⟨attached', congrArg Path.mk names⟩
  · simpa [Listing.establish, there] using shown

theorem register (h : t.Shows l) (p : Path) (c : Container) : t.Alike l (.register p c) := by
  simp only [Alike, perform, Listing.perform]
  have settled := h.settle c
  generalize l.settle c = l' at settled ⊢
  rcases p.eq_root_or_child with rfl | ⟨q, a, rfl⟩
  · have there : l'.contains .root = true := by
      rw [settled.contains, find?_root, Option.isSome_some]
    have obstacle : l'.obstacle .root = some (.alreadyExists .root) := by
      simp [Listing.obstacle, there]
    rw [obstacle]
    exact ⟨rfl, settled⟩
  · obtain ⟨met, clear⟩ := settled.descend_above c q a
    unfold Listing.obstacle
    cases above : (q.child a).ancestors.find? l'.isFile with
    | some r =>
      rw [register_of_error (met r above)]
      exact ⟨rfl, settled⟩
    | none =>
      obtain ⟨m, u, walked, found, directory, shown⟩ := clear above
      obtain ⟨attached, path⟩ := (find?_eq_some_iff shown.wf).mp found
      have present : (u.child? m a).isSome = l'.contains (q.child a) := by
        have same := shown.contains (q.child a)
        rw [find?_child, found, Option.bind_some, Listing.contains_establish] at same
        · exact same.symm
        · exact fun member => Nat.lt_irrefl _ (Path.depth_lt_of_mem_ancestors member)
      rw [register_of_ok walked, present]
      by_cases there : l'.contains (q.child a) = true
      · have same : l'.establish c (q.child a).ancestors = l' :=
          Listing.establish_of_contains (settled.closed.contains_above there)
        simp only [if_pos there]
        exact ⟨rfl, same ▸ shown⟩
      · have absent : u.child? m a = none := by simpa [← present] using there
        simp only [if_neg there]
        refine ⟨congrArg _ (congrArg _ (entryOf_insert_fst u m _)), ?_⟩
        exact shown.insert attached directory absent (congrArg (Path.child · a) path.symm)
          (by simp) rfl

end Shows

theorem shows_perform (h : t.Shows l) (call : TreeCall) : t.Alike l call := by
  cases call with
  | get p => exact ⟨congrArg TreeAnswer.node (h.get p), h⟩
  | names p => exact ⟨congrArg TreeAnswer.names (h.names p), h⟩
  | add p kind container =>
    obtain ⟨failed, made⟩ := h.add p kind container
    simp only [Alike, perform, Listing.perform]
    cases rule : l.newEntry p kind container with
    | error e =>
      rw [failed e rule]
      exact ⟨rfl, h⟩
    | ok x =>
      obtain ⟨n, u, added, entry, shown⟩ := made x rule
      rw [added]
      exact ⟨congrArg _ (congrArg _ entry), shown⟩
  | remove p => exact h.remove p
  | register p c => exact h.register p c

theorem shows_performAll (h : t.Shows l) (calls : List TreeCall) :
    (t.performAll calls).1 = (l.performAll calls).1 ∧
      (t.performAll calls).2.Shows (l.performAll calls).2 := by
  induction calls generalizing t l with
  | nil => exact ⟨rfl, h⟩
  | cons call calls ih =>
    obtain ⟨answer, shown⟩ := shows_perform h call
    obtain ⟨answers, shown'⟩ := ih shown
    exact ⟨congrArg₂ List.cons answer answers, shown'⟩

/-- To its callers the directory tree is a flat map, and whatever they do, the map is closed under
parents, has nothing below a file and gives names in order. The node found at a path is the node of
that path, and was made under the nodes found at the paths above it. -/
theorem refines_listing (threshold : Nat) (calls : List TreeCall) :
    let t := ((empty threshold).performAll calls).2
    let l := (Listing.initial.performAll calls).2
    ((empty threshold).performAll calls).1 = (Listing.initial.performAll calls).1 ∧
    (∀ p, (t.find? p).map (fun n => (t.node n).entry) = l.get? p) ∧
    l.Closed ∧
    (∀ p names, l.names p = .ok names → names.Pairwise (· < ·)) ∧
    ∀ p n, t.find? p = some n →
      (t.node n).path = p ∧ (t.node n).lineage.map some = p.ancestors.map t.find? := by
  obtain ⟨answers, shown⟩ := shows_performAll (.empty threshold) calls
  refine ⟨answers, fun p => (shown.entries p).symm, shown.closed,
    fun p names h => Listing.names_sorted h, fun p n found => ?_⟩
  obtain ⟨attached, rfl⟩ := (find?_eq_some_iff shown.wf).mp found
  exact ⟨rfl, find?_lineage shown.wf attached⟩

def remade : List TreeCall :=
  let c : Container := ⟨.direct "s", .direct "s"⟩
  [.register .sole c, .add (.child .sole ⟨"b", by decide, by decide, by decide⟩) .directory none,
    .remove .sole, .add .sole .file none]

theorem remade_refines :
    ((empty 1).performAll remade).1 = (Listing.initial.performAll remade).1 ∧
    ((empty 1).performAll remade).2.find? .sole = some 2 ∧
    (((empty 1).performAll remade).2.node 2).path = .sole := by
  have refines := refines_listing 1 remade
  have found : ((empty 1).performAll remade).2.find? .sole = some 2 := by decide +kernel
  exact ⟨refines.1, found, (refines.2.2.2.2 .sole 2 found).1⟩

end Tree

end DistFs
