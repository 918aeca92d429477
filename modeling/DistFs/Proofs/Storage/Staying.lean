import DistFs.Proofs.Storage.Confinement

namespace DistFs

namespace MountedStore

open HostFiles (Holds Keeps Stays Confined isBelow isNear keeps_error keeps_ok keeps_put stays_refl
  makeDirectories_then)

variable {store : MountedStore} {fs : HostFiles} {p q dir : Path} {todo children : List Path}
  {found : List (Path × HostEntry)} {fuel : Nat}

/-! ## Places in the directory -/

theorem isNear_place (store : MountedStore) (p : Path) :
    isNear store.root (store.place p) = true :=
  HostFiles.isNear_iff.mpr (.inr (root_prefix_place store p))

theorem isBelow_place (below : p ≠ .root) : isBelow (store.place p) store.root = true :=
  HostFiles.isBelow_iff.mpr ⟨root_prefix_place store p, (root_ne_place below).symm⟩

theorem dotless_place_iff :
    HostFiles.Dotless (store.place p) ↔ HostFiles.Dotless store.root ∧ p.Dotless :=
  HostFiles.dotless_append

theorem holds_of_mount {here : Spot} {r : String} (wf : fs.WellFormed)
    (dotless : ∀ e ∈ fs.entries, HostFiles.Dotless e.1) (mounted : mount fs here r = .ok store) :
    Holds store.root fs ∧ HostFiles.Dotless store.root := by
  unfold mount at mounted
  split at mounted
  next => cases mounted
  next => cases mounted
  next spot found =>
    cases mounted
    obtain ⟨resolved, there⟩ := HostFiles.stat_inv (HostFiles.stat_of_find found)
    refine ⟨wf.holds dotless there, ?_⟩
    rw [HostFiles.eq_lexical_of_resolve resolved]
    exact HostFiles.dotless_lexical _

/-! ## Data -/

theorem file_within (named : HostFiles.Dotless (store.place p)) (fs : HostFiles) :
    store.file (fs.within store.root) p = store.file fs p := by
  rw [file, file, HostFiles.stat_within fs named (isNear_place store p)]

theorem size_within (named : HostFiles.Dotless (store.place p)) (fs : HostFiles) :
    store.size (fs.within store.root) p = store.size fs p := by
  rw [size, size, file_within named]

theorem read_within (named : HostFiles.Dotless (store.place p)) (fs : HostFiles)
    (offset length : UInt64) :
    store.read (fs.within store.root) p offset length = store.read fs p offset length := by
  rw [read, read, file_within named]

theorem write_keeps (holds : Holds store.root fs) (named : HostFiles.Dotless (store.place p))
    (offset : UInt64) (w : Bytes) :
    Keeps store.root fs (store.write fs p offset w)
      (store.write (fs.within store.root) p offset w) := by
  rw [write, write, file_within named, file]
  split
  next spot d found =>
    obtain ⟨rfl, there⟩ := HostFiles.eq_of_stat named found
    simp only [Except.bind]
    split
    next => exact keeps_error _
    next =>
      split
      next => exact keeps_ok _
      next =>
        have free : fs.entry? (store.place p) ≠ some .directory := by
          rw [there]
          intro same
          cases same
        exact keeps_put _ (holds.isBelow (isNear_place store p) free) named _
  next => exact keeps_error _

/-! ## Making and removing -/

theorem create_stays (holds : Holds store.root fs) (named : HostFiles.Dotless (store.place p)) :
    Stays store.root fs (store.create fs p) (store.create (fs.within store.root) p) := by
  rcases p.eq_root_or_child with rfl | ⟨parent, a, rfl⟩
  · exact stays_refl _
  · have above : HostFiles.Dotless (store.place parent) :=
      named.of_prefix (place_prefix_iff.mpr (Path.isUnder_child parent a))
    unfold MountedStore.create
    rw [Path.parent?_child, HostFiles.stat_within fs named (isNear_place store _)]
    simp only
    split
    next => exact stays_refl _
    next =>
      refine makeDirectories_then holds above (isNear_place store parent) _ fun fs' holds => ?_
      rcases HostFiles.createFile_keeps holds named (isNear_place store _) with
        ⟨fault, fails, fails'⟩ | ⟨fs'', created, created', confined⟩
      · rw [fails, fails']
        cases fault <;> exact stays_refl _
      · rw [created, created']
        exact ⟨rfl, confined⟩

theorem receive_stays (holds : Holds store.root fs) (named : HostFiles.Dotless (store.place p))
    (d : Bytes) :
    Stays store.root fs (store.receive fs p d) (store.receive (fs.within store.root) p d) := by
  rcases p.eq_root_or_child with rfl | ⟨parent, a, rfl⟩
  · exact stays_refl _
  · have above : HostFiles.Dotless (store.place parent) :=
      named.of_prefix (place_prefix_iff.mpr (Path.isUnder_child parent a))
    unfold MountedStore.receive
    rw [Path.parent?_child, HostFiles.isDirectory_within fs named (isNear_place store _)]
    simp only
    split
    next => exact stays_refl _
    next =>
      refine makeDirectories_then holds above (isNear_place store parent) _ fun fs' holds => ?_
      rcases HostFiles.writeFile_keeps holds named (isNear_place store _) d with
        ⟨fault, fails, fails'⟩ | ⟨fs'', written, written', confined⟩
      · rw [fails, fails']
        exact stays_refl _
      · rw [written, written']
        exact ⟨rfl, confined⟩

theorem delete_stays (holds : Holds store.root fs) (named : HostFiles.Dotless (store.place p)) :
    Stays store.root fs (store.delete fs p) (store.delete (fs.within store.root) p) := by
  by_cases top : p = .root
  · subst top
    exact stays_refl _
  · unfold MountedStore.delete
    rw [HostFiles.stat_within fs named (isNear_place store p), if_neg (by simpa using top),
      if_neg (by simpa using top)]
    split
    next => exact stays_refl _
    next =>
      obtain ⟨same, confined⟩ := HostFiles.removeTree_stays fs named (isBelow_place top)
      rw [same]
      cases removed : fs.removeTree (store.place p) with
      | mk answer fs' =>
        rw [removed] at confined
        cases answer <;> exact ⟨rfl, confined⟩
    next =>
      rcases HostFiles.removeFile_keeps holds named (isNear_place store p) with
        ⟨fault, fails, fails'⟩ | ⟨fs', removed, removed', confined⟩
      · rw [fails, fails']
        exact stays_refl _
      · rw [removed, removed']
        exact ⟨rfl, confined⟩

/-! ## Looking through the directory -/

theorem listed_within (named : HostFiles.Dotless (store.place dir)) (fs : HostFiles) :
    store.listed (fs.within store.root) dir = store.listed fs dir := by
  rw [listed, listed, HostFiles.list_within named (root_prefix_place store dir)]

theorem listed_eq_ok (holds : Holds store.root fs) (named : HostFiles.Dotless (store.place dir))
    (lists : store.listed fs dir = .ok found) : found.Pairwise (·.1 ≠ ·.1) ∧
      ∀ p e, (p, e) ∈ found → (∃ a, p = dir.child a) ∧ (store.place p, e) ∈ fs.entries := by
  have stat : fs.stat (store.place dir) = .ok (store.place dir, .directory) := by
    cases stat : fs.stat (store.place dir) with
    | error fault =>
      rw [listed, HostFiles.list, stat] at lists
      cases lists
    | ok at_ =>
      obtain ⟨spot, e⟩ := at_
      obtain ⟨rfl, -⟩ := HostFiles.eq_of_stat named stat
      cases e with
      | directory => rfl
      | file d =>
        rw [listed, HostFiles.list, stat] at lists
        cases lists
  obtain ⟨raw, lists', apart, member⟩ := HostFiles.list_of_stat holds.unique stat
  obtain ⟨found', lists'', apart, member⟩ :=
    listed_of_list (P := fun x e => (x, e) ∈ fs.entries) lists' apart member
  obtain rfl := Except.ok.inj (lists.symm.trans lists'')
  exact ⟨apart, fun p e => (member p e).mp⟩

theorem dotless_of_listed (holds : Holds store.root fs)
    (named : HostFiles.Dotless (store.place dir)) (lists : store.listed fs dir = .ok found)
    (member : p ∈ directoriesIn found) : HostFiles.Dotless (store.place p) ∧ p ≠ .root := by
  obtain ⟨⟨a, rfl⟩, entry⟩ :=
    (listed_eq_ok holds named lists).2 p .directory (mem_directoriesIn.mp member)
  exact ⟨holds.dotless _ entry, Path.child_ne_root dir a⟩

theorem named_step (holds : Holds store.root fs)
    (named : ∀ q ∈ dir :: todo, HostFiles.Dotless (store.place q))
    (lists : store.listed fs dir = .ok found) :
    ∀ q ∈ (directoriesIn found).reverse ++ todo, HostFiles.Dotless (store.place q) := by
  intro q member
  rcases List.mem_append.mp member with child | later
  · exact (dotless_of_listed holds (named dir List.mem_cons_self) lists
      (List.mem_reverse.mp child)).1
  · exact named q (List.mem_cons_of_mem _ later)

theorem search_within (holds : Holds store.root fs)
    (named : ∀ q ∈ todo, HostFiles.Dotless (store.place q)) :
    store.search (fs.within store.root) fuel todo = store.search fs fuel todo := by
  induction fuel generalizing todo with
  | zero => cases todo <;> simp only [search]
  | succ fuel ih =>
    cases todo with
    | nil => simp only [search]
    | cons dir todo =>
      rw [search_cons, search_cons, listed_within (named dir List.mem_cons_self)]
      cases lists : store.listed fs dir with
      | error fault => rfl
      | ok entries =>
        simp only [Except.bind]
        rw [ih (named_step holds named lists)]

theorem lower_of_search (holds : Holds store.root fs)
    (named : ∀ q ∈ todo, HostFiles.Dotless (store.place q)) {files dirs : List Path}
    (found : store.search fs fuel todo = .ok (files, dirs)) :
    ∀ p ∈ dirs, HostFiles.Dotless (store.place p) ∧ p ≠ .root := by
  induction fuel generalizing todo files dirs with
  | zero => cases todo <;> (simp only [search] at found; cases found; simp)
  | succ fuel ih =>
    cases todo with
    | nil =>
      simp only [search] at found
      cases found
      simp
    | cons dir todo =>
      rw [search_cons] at found
      cases lists : store.listed fs dir with
      | error fault =>
        rw [lists] at found
        cases found
      | ok entries =>
        rw [lists] at found
        simp only [Except.bind] at found
        cases later : store.search fs fuel ((directoriesIn entries).reverse ++ todo) with
        | error fault =>
          rw [later] at found
          cases found
        | ok rest =>
          rw [later] at found
          cases found
          intro p member
          rcases List.mem_append.mp member with here | rest'
          · exact dotless_of_listed holds (named dir List.mem_cons_self) lists here
          · exact ih (named_step holds named lists) later p rest'

/-! ## Steps enough for the search -/

def entriesBelow (store : MountedStore) (fs : HostFiles) (q : Path) : List (Spot × HostEntry) :=
  fs.entries.filter fun e => isBelow e.1 (store.place q)

theorem mem_entriesBelow {entry : Spot × HostEntry} :
    entry ∈ store.entriesBelow fs q ↔
      entry ∈ fs.entries ∧ store.place q <+: entry.1 ∧ entry.1 ≠ store.place q := by
  rw [entriesBelow, List.mem_filter, HostFiles.isBelow_iff]

def room (store : MountedStore) (fs : HostFiles) (todo : List Path) : Nat :=
  todo.length + (todo.flatMap (store.entriesBelow fs)).length

theorem eq_of_prefix_child {a b : Name} {x : Spot} (start : store.place (dir.child a) <+: x)
    (start' : store.place (dir.child b) <+: x) : dir.child a = dir.child b := by
  rcases List.prefix_or_prefix_of_prefix start start' with above | below
  · exact (Path.child_isUnder_child (place_prefix_iff.mp above)).symm
  · exact Path.child_isUnder_child (place_prefix_iff.mp below)

theorem lower_of_prefix_child {a : Name} {x : Spot} (start : store.place (dir.child a) <+: x) :
    store.place dir <+: x ∧ x ≠ store.place dir := by
  rw [place_child] at start
  refine ⟨(List.prefix_append ..).trans start, fun same => ?_⟩
  have longer := (same ▸ start).length_le
  rw [List.length_append, List.length_singleton] at longer
  omega

def entriesIn (store : MountedStore) (fs : HostFiles) (children : List Path) :
    List (Spot × HostEntry) :=
  children.map (fun q => (store.place q, .directory)) ++ children.flatMap (store.entriesBelow fs)

theorem nodup_entriesIn (once : fs.entries.Nodup) (unique : children.Nodup)
    (inside : ∀ q ∈ children, ∃ a, q = dir.child a) : (store.entriesIn fs children).Nodup := by
  have common {q r : Path} {x : Spot} (member : q ∈ children) (member' : r ∈ children)
      (start : store.place q <+: x) (start' : store.place r <+: x) : q = r := by
    obtain ⟨a, rfl⟩ := inside q member
    obtain ⟨b, rfl⟩ := inside r member'
    exact eq_of_prefix_child start start'
  refine List.nodup_append.mpr
    ⟨unique.map fun q r same => place_inj.mp (congrArg Prod.fst same), ?_, ?_⟩
  · refine List.nodup_flatMap.mpr ⟨fun q _ => once.filter _,
      unique.imp_of_mem fun member member' other entry there there' => other ?_⟩
    exact common member member' (mem_entriesBelow.mp there).2.1 (mem_entriesBelow.mp there').2.1
  · rintro entry here _ there rfl
    obtain ⟨q, member, rfl⟩ := List.mem_map.mp here
    obtain ⟨r, member', there⟩ := List.mem_flatMap.mp there
    obtain ⟨-, start, other⟩ := mem_entriesBelow.mp there
    exact other (congrArg store.place (common member member' (List.prefix_refl _) start))

theorem room_children (once : fs.entries.Nodup) (unique : children.Nodup)
    (inside : ∀ q ∈ children, (∃ a, q = dir.child a) ∧ (store.place q, .directory) ∈ fs.entries) :
    store.room fs children ≤ (store.entriesBelow fs dir).length := by
  have covered : store.entriesIn fs children ⊆ store.entriesBelow fs dir := by
    intro entry there
    rcases List.mem_append.mp there with here | below
    · obtain ⟨q, member, rfl⟩ := List.mem_map.mp here
      obtain ⟨⟨a, rfl⟩, listed⟩ := inside q member
      exact mem_entriesBelow.mpr ⟨listed, lower_of_prefix_child (List.prefix_refl _)⟩
    · obtain ⟨q, member, below⟩ := List.mem_flatMap.mp below
      obtain ⟨⟨a, rfl⟩, -⟩ := inside q member
      obtain ⟨listed, start, -⟩ := mem_entriesBelow.mp below
      exact mem_entriesBelow.mpr ⟨listed, lower_of_prefix_child start⟩
  have distinct : (store.entriesIn fs children).Nodup :=
    nodup_entriesIn once unique fun q member => (inside q member).1
  calc store.room fs children = (store.entriesIn fs children).length := by
        rw [room, entriesIn, List.length_append, List.length_map]
    _ ≤ (store.entriesBelow fs dir).length := (distinct.subperm covered).length_le

theorem search_enough (holds : Holds store.root fs)
    (named : ∀ q ∈ todo, HostFiles.Dotless (store.place q)) (enough : store.room fs todo ≤ fuel)
    (more : Nat) : store.search fs (fuel + more) todo = store.search fs fuel todo := by
  induction fuel generalizing todo with
  | zero =>
    cases todo with
    | nil => simp only [search]
    | cons dir todo =>
      rw [room, List.length_cons] at enough
      omega
  | succ fuel ih =>
    cases todo with
    | nil => simp only [search]
    | cons dir todo =>
      rw [Nat.add_right_comm, search_cons, search_cons]
      cases lists : store.listed fs dir with
      | error fault => rfl
      | ok entries =>
        simp only [Except.bind]
        obtain ⟨apart, listed⟩ := listed_eq_ok holds (named dir List.mem_cons_self) lists
        have less : store.room fs (directoriesIn entries).reverse ≤
            (store.entriesBelow fs dir).length :=
          room_children (List.Nodup.of_map _ holds.unique)
            (List.nodup_reverse.mpr (nodup_directoriesIn apart)) fun q member =>
              listed q .directory (mem_directoriesIn.mp (List.mem_reverse.mp member))
        rw [ih (named_step holds named lists)]
        rw [room] at less
        rw [room, List.length_cons, List.flatMap_cons, List.length_append] at enough
        rw [room, List.length_append, List.flatMap_append, List.length_append]
        omega

theorem survey_within (holds : Holds store.root fs) (named : HostFiles.Dotless store.root) :
    store.survey (fs.within store.root) = store.survey fs := by
  have start : ∀ q ∈ [Path.root], HostFiles.Dotless (store.place q) := by
    simpa using named
  have enough : store.room fs [.root] ≤ (fs.within store.root).entries.length + 1 := by
    have below : (store.entriesBelow fs .root).Sublist (fs.within store.root).entries :=
      List.monotone_filter_right _ fun entry below =>
        HostFiles.isNear_of_isBelow (by simpa using below)
    have := below.length_le
    rw [room, List.flatMap_singleton, List.length_singleton]
    omega
  obtain ⟨more, steps⟩ : ∃ more, fs.entries.length + 1 =
      (fs.within store.root).entries.length + 1 + more := by
    have fewer : (fs.within store.root).entries.length ≤ fs.entries.length :=
      List.length_filter_le ..
    exact ⟨fs.entries.length - (fs.within store.root).entries.length, by omega⟩
  rw [survey, survey, search_within holds start, steps, search_enough holds start enough]

theorem listFiles_within (holds : Holds store.root fs) (named : HostFiles.Dotless store.root) :
    store.listFiles (fs.within store.root) = store.listFiles fs := by
  rw [listFiles, listFiles, survey_within holds named]

/-! ## Pruning -/

theorem dropIfEmpty_keeps (named : HostFiles.Dotless (store.place dir)) (below : dir ≠ .root) :
    Keeps store.root fs (store.dropIfEmpty fs dir)
      (store.dropIfEmpty (fs.within store.root) dir) := by
  unfold dropIfEmpty
  rw [HostFiles.list_within named (root_prefix_place store dir)]
  cases fs.list (store.place dir) with
  | error fault => exact keeps_error fault
  | ok listed =>
    simp only [bind, Except.bind]
    split
    next => exact HostFiles.removeDirectory_keeps named (isBelow_place below)
    next => exact keeps_ok _

theorem dropAll_stays (named : ∀ p ∈ todo, HostFiles.Dotless (store.place p) ∧ p ≠ .root)
    (fs : HostFiles) :
    Stays store.root fs (prune.dropAll store todo fs)
      (prune.dropAll store todo (fs.within store.root)) := by
  induction todo generalizing fs with
  | nil => exact stays_refl _
  | cons dir todo ih =>
    obtain ⟨dotless, below⟩ := named dir List.mem_cons_self
    have later := ih fun p member => named p (List.mem_cons_of_mem _ member)
    rw [prune.dropAll, prune.dropAll]
    rcases dropIfEmpty_keeps dotless below with
      ⟨fault, fails, fails'⟩ | ⟨fs', dropped, dropped', confined⟩
    · rw [fails, fails']
      exact stays_refl _
    · rw [dropped, dropped']
      exact ⟨(later fs').within_eq, confined.trans (later fs').confined⟩

theorem prune_stays (holds : Holds store.root fs) (named : HostFiles.Dotless store.root) :
    Stays store.root fs (store.prune fs) (store.prune (fs.within store.root)) := by
  unfold prune
  rw [survey_within holds named, survey]
  cases found : store.search fs (fs.entries.length + 1) [.root] with
  | error fault => exact stays_refl _
  | ok lists =>
    obtain ⟨files, dirs⟩ := lists
    have lower := lower_of_search holds (by simpa using named) found
    exact dropAll_stays (fun p member => lower p (List.mem_mergeSort.mp member)) fs

end MountedStore

end DistFs
