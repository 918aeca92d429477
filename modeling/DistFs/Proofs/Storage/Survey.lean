import DistFs.Proofs.PathText
import DistFs.Proofs.Storage.Mirror
import Mathlib.Data.List.Perm.Subperm
/-!
# Looking through a directory of the host

The search goes through the directory one directory at a time. Those that it still has to look into
are apart from each other, so that it comes across everything below them exactly once. What no path
can name is passed over.
-/

namespace DistFs

namespace MountedStore

variable {store : MountedStore} {fs : HostFiles} {m : MemoryStore} {p q dir : Path}
  {e : HostEntry} {todo children : List Path} {fuel : Nat} {found : List (Path × HostEntry)}

/-- The host can go to the directory, and to all those in it that a path can name. -/
structure Walkable (store : MountedStore) (fs : HostFiles) : Prop where
  host : fs.WellFormed
  root : fs.entry? store.root = some .directory
  reaches : ∀ p, fs.entry? (store.place p) = some .directory → store.Reaches p

theorem Walkable.above (walkable : store.Walkable fs) (there : fs.entry? (store.place p) = some e)
    (above : q ∈ p.ancestors) : fs.entry? (store.place q) = some .directory := by
  obtain ⟨under, other⟩ := Path.mem_ancestors.mp above
  exact walkable.host.directory_above there (place_prefix_iff.mpr under)
    fun same => other (place_inj.mp same)

theorem Mirrors.reaches (mirrors : store.Mirrors fs m) (there : m.entryAt p = some e) :
    store.Reaches p := by
  obtain ⟨q, reaches, same⟩ :=
    mirrors.named _ e ((mirrors.same p).trans there) (root_prefix_place store p)
  exact place_inj.mp same ▸ reaches

theorem Mirrors.walkable (mirrors : store.Mirrors fs m) : store.Walkable fs :=
  ⟨mirrors.host, mirrors.entry?_root,
    fun p there => mirrors.reaches ((mirrors.same p).symm.trans there)⟩

/-! ## One directory -/

theorem child?_eq_some (name : String) :
    (dir.child? name).toOption = some p ↔ ∃ a : Name, a.text = name ∧ p = dir.child a := by
  simp only [← Path.ofText_eq_ok, Path.child?]
  cases Name.ofText name with
  | ok a => simp [Except.map, Except.toOption, eq_comm]
  | error fault => simp [Except.map, Except.toOption]

theorem listed_of_list {raw : List (String × HostEntry)} {P : Spot → HostEntry → Prop}
    (lists : fs.list (store.place dir) = .ok raw) (apart : raw.Pairwise (·.1 ≠ ·.1))
    (member : ∀ name e, (name, e) ∈ raw ↔ P (store.place dir ++ [name]) e) :
    ∃ found, store.listed fs dir = .ok found ∧ found.Pairwise (·.1 ≠ ·.1) ∧
      ∀ p e, (p, e) ∈ found ↔ (∃ a, p = dir.child a) ∧ P (store.place p) e := by
  have seen (entry : String × HostEntry) (found : Path × HostEntry) :
      (dir.child? entry.1).toOption.map (·, entry.2) = some found ↔
        (∃ a : Name, a.text = entry.1 ∧ found.1 = dir.child a) ∧ found.2 = entry.2 := by
    rw [← child?_eq_some, Option.map_eq_some_iff]
    constructor
    · rintro ⟨p, here, rfl⟩
      exact ⟨here, rfl⟩
    · rintro ⟨here, same⟩
      exact ⟨found.1, here, Prod.ext rfl same.symm⟩
  have listed : store.listed fs dir =
      .ok (raw.filterMap fun entry => (dir.child? entry.1).toOption.map (·, entry.2)) := by
    rw [MountedStore.listed, lists]
    rfl
  refine ⟨_, listed, ?_, fun p e => ?_⟩
  · rw [List.pairwise_filterMap]
    refine apart.imp fun {entry entry'} apart found here found' here' same => apart ?_
    obtain ⟨⟨a, text, child⟩, -⟩ := (seen entry found).mp here
    obtain ⟨⟨b, text', child'⟩, -⟩ := (seen entry' found').mp here'
    rw [child, child'] at same
    have last := congrArg Path.last? same
    rw [Path.last?_child, Path.last?_child, Option.some_inj] at last
    rw [← text, ← text', last]
  · rw [List.mem_filterMap]
    constructor
    · rintro ⟨entry, listed, here⟩
      obtain ⟨⟨a, text, rfl⟩, rfl⟩ := (seen entry (p, e)).mp here
      refine ⟨⟨a, rfl⟩, ?_⟩
      rw [place_child, text]
      exact (member entry.1 entry.2).mp listed
    · rintro ⟨⟨a, rfl⟩, entry⟩
      rw [place_child] at entry
      exact ⟨(a.text, e), (member a.text e).mpr entry, (seen _ _).mpr ⟨⟨a, rfl, rfl⟩, rfl⟩⟩

theorem Walkable.listed (walkable : store.Walkable fs)
    (there : fs.entry? (store.place dir) = some .directory) :
    ∃ found, store.listed fs dir = .ok found ∧ found.Pairwise (·.1 ≠ ·.1) ∧
      ∀ p e, (p, e) ∈ found ↔ (∃ a, p = dir.child a) ∧ fs.entry? (store.place p) = some e := by
  obtain ⟨raw, lists, apart, member⟩ :=
    HostFiles.list_eq_ok walkable.host (walkable.reaches dir there) there
  exact listed_of_list (P := fun x e => fs.entry? x = some e) lists apart member

/-! ## What is still to be looked into -/

/-- The directories that the search has still to look into, with as many steps left. -/
structure Frontier (store : MountedStore) (fs : HostFiles) (todo : List Path) (fuel : Nat) :
    Prop where
  directories : ∀ q ∈ todo, fs.entry? (store.place q) = some .directory
  apart : todo.Pairwise fun q r => q.isUnder r = false ∧ r.isUnder q = false
  enough : ∃ left : List Path, left.length ≤ fuel ∧
    ∀ q ∈ todo, ∀ p, p.isUnder q = true → fs.entry? (store.place p) = some .directory → p ∈ left

def Beneath (todo : List Path) (p : Path) : Prop := ∃ q ∈ todo, p.isUnder q = true ∧ p ≠ q

/-- What is below the directories is directly in the first one, or below those that take its
place. -/
theorem beneath_iff (walkable : store.Walkable fs)
    (inside : ∀ q, q ∈ children ↔
      (∃ a, q = dir.child a) ∧ fs.entry? (store.place q) = some .directory)
    (there : fs.entry? (store.place p) = some e) :
    Beneath (dir :: todo) p ↔ (∃ a, p = dir.child a) ∨ Beneath (children ++ todo) p := by
  constructor
  · rintro ⟨q, member, under, other⟩
    rcases List.mem_cons.mp member with rfl | later
    · obtain ⟨a, under'⟩ := Path.exists_child_of_isUnder under other
      by_cases same : p = q.child a
      · exact .inl ⟨a, same⟩
      · have above := walkable.above there (Path.mem_ancestors.mpr ⟨under', Ne.symm same⟩)
        exact .inr ⟨_, List.mem_append_left _ ((inside _).mpr ⟨⟨a, rfl⟩, above⟩), under', same⟩
    · exact .inr ⟨q, List.mem_append_right _ later, under, other⟩
  · rintro (⟨a, rfl⟩ | ⟨q, member, under, other⟩)
    · refine ⟨dir, List.mem_cons_self, Path.isUnder_child dir a, fun same => ?_⟩
      have longer := congrArg (List.length ∘ Path.names) same
      simp at longer
    · rcases List.mem_append.mp member with child | later
      · obtain ⟨⟨a, rfl⟩, -⟩ := (inside q).mp child
        have under' := Path.isUnder_trans under (Path.isUnder_child dir a)
        refine ⟨dir, List.mem_cons_self, under', ?_⟩
        rintro rfl
        exact other (Path.isUnder_antisymm under (Path.isUnder_child p a))
      · exact ⟨q, List.mem_cons_of_mem _ later, under, other⟩

namespace Frontier

theorem beside (frontier : Frontier store fs (dir :: todo) fuel) (later : q ∈ todo)
    (under : p.isUnder dir = true) : p.isUnder q = false := by
  obtain ⟨apart, apart'⟩ := (List.pairwise_cons.mp frontier.apart).1 q later
  rw [← Bool.not_eq_true]
  intro under'
  rcases Path.isUnder_or_isUnder under under' with h | h
  · exact Bool.false_ne_true (apart.symm.trans h)
  · exact Bool.false_ne_true (apart'.symm.trans h)

theorem not_beneath (frontier : Frontier store fs (dir :: todo) fuel)
    (inside : ∀ q, q ∈ children ↔
      (∃ a, q = dir.child a) ∧ fs.entry? (store.place q) = some .directory)
    (a : Name) : ¬ Beneath (children ++ todo) (dir.child a) := by
  rintro ⟨q, member, under, other⟩
  rcases List.mem_append.mp member with child | later
  · obtain ⟨⟨b, rfl⟩, -⟩ := (inside q).mp child
    exact other (Path.child_isUnder_child under)
  · rw [frontier.beside later (Path.isUnder_child dir a)] at under
    cases under

theorem step (frontier : Frontier store fs (dir :: todo) (fuel + 1)) (unique : children.Nodup)
    (inside : ∀ q, q ∈ children ↔
      (∃ a, q = dir.child a) ∧ fs.entry? (store.place q) = some .directory) :
    Frontier store fs (children ++ todo) fuel := by
  have under {q : Path} (member : q ∈ children) : q.isUnder dir = true := by
    obtain ⟨⟨a, rfl⟩, -⟩ := (inside q).mp member
    exact Path.isUnder_child dir a
  refine ⟨fun q member => ?_, ?_, ?_⟩
  · rcases List.mem_append.mp member with child | later
    · exact ((inside q).mp child).2
    · exact frontier.directories q (List.mem_cons_of_mem _ later)
  · refine List.pairwise_append.mpr ⟨?_, (List.pairwise_cons.mp frontier.apart).2,
      fun q child r later => ⟨frontier.beside later (under child), ?_⟩⟩
    · refine List.Pairwise.imp_of_mem (fun {q r} child child' other => ?_) unique
      obtain ⟨⟨a, rfl⟩, -⟩ := (inside q).mp child
      obtain ⟨⟨b, rfl⟩, -⟩ := (inside r).mp child'
      rw [← Bool.not_eq_true, ← Bool.not_eq_true]
      exact ⟨fun h => other (Path.child_isUnder_child h),
        fun h => other (Path.child_isUnder_child h).symm⟩
    · rw [← Bool.not_eq_true]
      intro h
      have := frontier.beside later (Path.isUnder_trans h (under child))
      rw [Path.isUnder_refl] at this
      cases this
  · obtain ⟨left, short, covers⟩ := frontier.enough
    have first := covers dir List.mem_cons_self dir (Path.isUnder_refl dir)
      (frontier.directories dir List.mem_cons_self)
    refine ⟨left.erase dir, ?_, fun q member p below there => ?_⟩
    · rw [List.length_erase_of_mem first]
      omega
    · rcases List.mem_append.mp member with child | later
      · refine (List.mem_erase_of_ne ?_).mpr
          (covers dir List.mem_cons_self p (Path.isUnder_trans below (under child)) there)
        rintro rfl
        have same := Path.isUnder_antisymm below (under child)
        obtain ⟨⟨a, rfl⟩, -⟩ := (inside q).mp child
        have longer := congrArg (List.length ∘ Path.names) same
        simp at longer
      · refine (List.mem_erase_of_ne ?_).mpr
          (covers q (List.mem_cons_of_mem _ later) p below there)
        rintro rfl
        rw [frontier.beside later (Path.isUnder_refl p)] at below
        cases below

end Frontier

/-! ## The search -/

structure Finds (store : MountedStore) (fs : HostFiles) (todo files dirs : List Path) : Prop where
  files_nodup : files.Nodup
  dirs_nodup : dirs.Nodup
  mem_files : ∀ p, p ∈ files ↔ Beneath todo p ∧ ∃ d, fs.entry? (store.place p) = some (.file d)
  mem_dirs : ∀ p, p ∈ dirs ↔ Beneath todo p ∧ fs.entry? (store.place p) = some .directory

theorem nodup_choice {found : List (Path × HostEntry)} {choose : Path × HostEntry → Option Path}
    (unique : found.Pairwise (·.1 ≠ ·.1))
    (chosen : ∀ entry p, choose entry = some p → entry.1 = p) : (found.filterMap choose).Nodup := by
  refine List.pairwise_filterMap.mpr (unique.imp fun {entry entry'} apart p here q there => ?_)
  rw [← chosen entry p here, ← chosen entry' q there]
  exact apart

def directoriesIn (found : List (Path × HostEntry)) : List Path :=
  found.filterMap fun (p, entry) => if entry = .directory then some p else none

def filesIn (found : List (Path × HostEntry)) : List Path :=
  found.filterMap fun (p, entry) => if entry = .directory then none else some p

theorem mem_directoriesIn : p ∈ directoriesIn found ↔ (p, .directory) ∈ found := by
  simp [directoriesIn]

theorem mem_filesIn : p ∈ filesIn found ↔ ∃ d, (p, .file d) ∈ found := by
  rw [filesIn, List.mem_filterMap]
  constructor
  · rintro ⟨⟨q, e⟩, seen, chosen⟩
    cases e with
    | directory => simp at chosen
    | file d =>
      obtain rfl : q = p := by simpa using chosen
      exact ⟨d, seen⟩
  · rintro ⟨d, seen⟩
    exact ⟨_, seen, rfl⟩

theorem nodup_directoriesIn (unique : found.Pairwise (·.1 ≠ ·.1)) :
    (directoriesIn found).Nodup := by
  refine nodup_choice unique fun entry p chosen => ?_
  dsimp only at chosen
  split at chosen <;> cases chosen
  rfl

theorem nodup_filesIn (unique : found.Pairwise (·.1 ≠ ·.1)) : (filesIn found).Nodup := by
  refine nodup_choice unique fun entry p chosen => ?_
  dsimp only at chosen
  split at chosen <;> cases chosen
  rfl

theorem search_cons (fs : HostFiles) (fuel : Nat) (dir : Path) (todo : List Path) :
    store.search fs (fuel + 1) (dir :: todo) =
      (store.listed fs dir).bind fun entries =>
        (store.search fs fuel ((directoriesIn entries).reverse ++ todo)).map fun rest =>
          (filesIn entries ++ rest.1, directoriesIn entries ++ rest.2) := by
  rw [search]
  cases store.listed fs dir with
  | error fault => rfl
  | ok entries =>
    simp only [bind, Except.bind, directoriesIn]
    cases store.search fs fuel _ <;> rfl

theorem Walkable.search_cons (walkable : store.Walkable fs)
    (there : fs.entry? (store.place dir) = some .directory) :
    ∃ here children, here.Nodup ∧ children.Nodup ∧
      (∀ p, p ∈ here ↔
        (∃ a, p = dir.child a) ∧ ∃ d, fs.entry? (store.place p) = some (.file d)) ∧
      (∀ p, p ∈ children ↔
        (∃ a, p = dir.child a) ∧ fs.entry? (store.place p) = some .directory) ∧
      ∀ fuel todo files dirs, store.search fs fuel (children.reverse ++ todo) = .ok (files, dirs) →
        store.search fs (fuel + 1) (dir :: todo) = .ok (here ++ files, children ++ dirs) := by
  obtain ⟨entries, listed, unique, member⟩ := walkable.listed there
  refine ⟨filesIn entries, directoriesIn entries, nodup_filesIn unique, nodup_directoriesIn unique,
    fun p => ?_, fun p => ?_, fun fuel todo files dirs rest => ?_⟩
  · simp only [mem_filesIn, member, exists_and_left]
  · rw [mem_directoriesIn, member]
  · rw [MountedStore.search_cons, listed, Except.bind, rest]
    rfl

theorem Walkable.search (walkable : store.Walkable fs)
    (frontier : Frontier store fs todo fuel) :
    ∃ files dirs, store.search fs fuel todo = .ok (files, dirs) ∧
      Finds store fs todo files dirs := by
  have nothing : Finds store fs [] [] [] := by
    refine ⟨.nil, .nil, fun p => ?_, fun p => ?_⟩ <;> simp [Beneath]
  induction fuel generalizing todo with
  | zero =>
    cases todo with
    | nil => exact ⟨[], [], by rw [MountedStore.search], nothing⟩
    | cons dir todo =>
      obtain ⟨left, short, covers⟩ := frontier.enough
      have first := covers dir List.mem_cons_self dir (Path.isUnder_refl dir)
        (frontier.directories dir List.mem_cons_self)
      rw [List.length_eq_zero_iff.mp (Nat.le_zero.mp short)] at first
      cases first
  | succ fuel ih =>
    cases todo with
    | nil => exact ⟨[], [], by rw [MountedStore.search], nothing⟩
    | cons dir todo =>
      obtain ⟨here, children, here_nodup, children_nodup, mem_here, mem_children, goesOn⟩ :=
        walkable.search_cons (frontier.directories dir List.mem_cons_self)
      have inside (q : Path) : q ∈ children.reverse ↔
          (∃ a, q = dir.child a) ∧ fs.entry? (store.place q) = some .directory := by
        rw [List.mem_reverse, mem_children]
      obtain ⟨files, dirs, found, finds⟩ :=
        ih (frontier.step (List.nodup_reverse.mpr children_nodup) inside)
      have once (a : Name) := frontier.not_beneath inside a
      refine ⟨here ++ files, children ++ dirs, goesOn _ _ _ _ found, ?_, ?_, fun p => ?_,
        fun p => ?_⟩
      · refine List.nodup_append.mpr ⟨here_nodup, finds.files_nodup, fun p first q later same => ?_⟩
        obtain ⟨⟨a, rfl⟩, -⟩ := (mem_here p).mp first
        exact once a ((finds.mem_files _).mp (same ▸ later)).1
      · refine List.nodup_append.mpr ⟨children_nodup, finds.dirs_nodup,
          fun p first q later same => ?_⟩
        obtain ⟨⟨a, rfl⟩, -⟩ := (mem_children p).mp first
        exact once a ((finds.mem_dirs _).mp (same ▸ later)).1
      · rw [List.mem_append, mem_here, finds.mem_files, ← or_and_right]
        refine and_congr_left ?_
        rintro ⟨d, there⟩
        exact (beneath_iff walkable inside there).symm
      · rw [List.mem_append, mem_children, finds.mem_dirs, ← or_and_right]
        exact and_congr_left fun there => (beneath_iff walkable inside there).symm

/-! ## The whole directory -/

theorem Walkable.frontier (walkable : store.Walkable fs) :
    Frontier store fs [.root] (fs.entries.length + 1) := by
  have : Nonempty Path := ⟨.root⟩
  -- The host has no more directories below the root than entries.
  refine ⟨fun q member => ?_, List.pairwise_singleton ..,
    (store.root :: fs.entries.map Prod.fst).map (Function.invFun store.place), ?_,
    fun _ _ p _ there => List.mem_map.mpr ⟨store.place p, ?_, ?_⟩⟩
  · rw [List.mem_singleton.mp member, place_root, walkable.root]
  · exact Nat.le_of_eq
      ((List.length_map _).trans (congrArg (· + 1) (List.length_map Prod.fst)))
  · rcases p.eq_root_or_child with rfl | ⟨parent, a, rfl⟩
    · rw [place_root]
      exact List.mem_cons_self
    · refine List.mem_cons_of_mem _ ((HostFiles.mem_keys walkable.host ?_).mpr ⟨_, there⟩)
      simp [place_child]
  · exact Function.leftInverse_invFun (fun _ _ => place_inj.mp) p

theorem beneath_root : Beneath [.root] p ↔ p ≠ .root := by
  simp [Beneath, Path.isUnder_root]

theorem Walkable.survey (walkable : store.Walkable fs) :
    ∃ files dirs, store.survey fs = .ok (files, dirs) ∧ files.Pairwise (· < ·) ∧
      (∀ p, p ∈ files ↔ ∃ d, fs.entry? (store.place p) = some (.file d)) ∧ dirs.Nodup ∧
      (∀ p, p ∈ dirs ↔ p ≠ .root ∧ fs.entry? (store.place p) = some .directory) ∧
      dirs.Pairwise fun p q => q.depth ≤ p.depth := by
  obtain ⟨files, dirs, found, finds⟩ := walkable.search walkable.frontier
  have ordered : (dirs.mergeSort fun p q => q.depth ≤ p.depth).Pairwise
      fun p q => decide (q.depth ≤ p.depth) = true := by
    refine List.pairwise_mergeSort (fun p q r before after => ?_) (fun p q => ?_) dirs
    · rw [decide_eq_true_eq] at before after ⊢
      exact Nat.le_trans after before
    · rw [Bool.or_eq_true, decide_eq_true_eq, decide_eq_true_eq]
      exact Nat.le_total ..
  refine ⟨Path.sort files, dirs.mergeSort fun p q => q.depth ≤ p.depth, ?_,
    Path.sorted_sort finds.files_nodup, fun p => ?_, ?_, fun p => ?_,
    ordered.imp fun before => decide_eq_true_eq.mp before⟩
  · rw [MountedStore.survey, found]
  · rw [Path.mem_sort, finds.mem_files, beneath_root, and_iff_right_iff_imp]
    rintro ⟨d, file⟩ rfl
    rw [place_root, walkable.root] at file
    cases file
  · exact (List.mergeSort_perm dirs _).nodup_iff.mpr finds.dirs_nodup
  · rw [(List.mergeSort_perm dirs _).mem_iff, finds.mem_dirs, beneath_root]

theorem Mirrors.listFiles (mirrors : store.Mirrors fs m) :
    store.listFiles fs = .ok m.files.keys := by
  obtain ⟨files, dirs, found, sorted, member, -⟩ := mirrors.walkable.survey
  have same : files = m.files.keys := by
    refine Path.eq_of_sorted sorted m.files.sorted_keys fun p => ?_
    rw [member, PathMap.mem_keys]
    simp only [mirrors.same, mirrors.memory.entryAt_eq_file]
  rw [MountedStore.listFiles, found, same]
  rfl

end MountedStore

end DistFs
