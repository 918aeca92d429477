import DistFs.Proofs.PathSyntax
import DistFs.Proofs.Storage.Survey
/-!
# Pruning a directory of the host

The directories that the search found are looked at again, deepest first, and those are removed that
are empty by then. These are the directories with nothing in them, however deep, but directories
that a path can name. A store in memory drops them all at once.
-/

namespace DistFs

namespace MountedStore

variable {store : MountedStore} {fs fs' : HostFiles} {m : MemoryStore} {p q dir : Path}
  {x : Spot} {e : HostEntry} {name : String} {dirs : List Path}

/-! ## Directories of directories -/

/-- A directory below the root with nothing in it but directories that paths can name. -/
structure Hollow (store : MountedStore) (fs : HostFiles) (p : Path) : Prop where
  below : p ≠ .root
  directory : fs.entry? (store.place p) = some .directory
  inside : ∀ x e, fs.entry? x = some e → store.place p <+: x →
    e = .directory ∧ ∃ q, x = store.place q

theorem Hollow.child (hollow : store.Hollow fs p)
    (there : fs.entry? (store.place p ++ [name]) = some e) : ∃ a, store.Hollow fs (p.child a) := by
  obtain ⟨rfl, q, here⟩ := hollow.inside _ e there (List.prefix_append ..)
  obtain ⟨a, rfl⟩ := eq_child_of_place here.symm
  rw [here] at there
  refine ⟨a, Path.child_ne_root p a, there, fun x e there' under => ?_⟩
  exact hollow.inside x e there' ((place_prefix_iff.mpr (Path.isUnder_child p a)).trans under)

theorem Walkable.vacant (walkable : store.Walkable fs)
    (empty : ∀ name, fs.entry? (store.place dir ++ [name]) = none)
    (there : fs.entry? x = some e) (under : store.place dir <+: x) : x = store.place dir := by
  by_contra other
  obtain ⟨rest, rfl⟩ := under
  cases rest with
  | nil => exact other (List.append_nil _)
  | cons name rest =>
    have missing := empty name
    rw [List.append_cons] at there
    by_cases direct : rest = []
    · rw [direct, List.append_nil, missing] at there
      cases there
    · have directory := walkable.host.directory_above there (List.prefix_append ..) (by simpa)
      rw [missing] at directory
      cases directory

/-! ## One directory -/

structure Dropped (store : MountedStore) (fs : HostFiles) (dir : Path) (fs' : HostFiles) :
    Prop where
  walkable : store.Walkable fs'
  kept : fs'.entries.Sublist fs.entries
  hollow : store.Hollow fs dir
  entry? : ∀ x e, fs'.entry? x = some e ↔ fs.entry? x = some e ∧ x ≠ store.place dir

theorem Walkable.removeDirectory (walkable : store.Walkable fs) (below : dir ≠ .root)
    (directory : fs.entry? (store.place dir) = some .directory)
    (empty : ∀ name, fs.entry? (store.place dir ++ [name]) = none) :
    ∃ fs', fs.removeDirectory (store.place dir) = .ok fs' ∧ store.Dropped fs dir fs' := by
  have vacant (x : Spot) (e : HostEntry) (there : fs.entry? x = some e)
      (under : store.place dir <+: x) : x = store.place dir := walkable.vacant empty there under
  have left (x : Spot) (e : HostEntry) : HostFiles.entry? (fs.restrict (· ≠ store.place dir)) x =
      some e ↔ fs.entry? x = some e ∧ x ≠ store.place dir := by
    by_cases top : x = []
    · subst top
      simp [(place_ne_nil below).symm]
    · rw [HostFiles.entry?_restrict fs _ top]
      by_cases same : x = store.place dir <;> simp [same]
  have host : (fs.restrict (· ≠ store.place dir)).WellFormed := by
    refine walkable.host.remove fun x e there lower inside => ?_
    have here := vacant x e there (inside ▸ List.dropLast_prefix x)
    have shorter := congrArg List.length (inside.trans here.symm)
    rw [List.length_dropLast] at shorter
    have := List.length_pos_iff.mpr lower
    omega
  refine ⟨_, HostFiles.removeDirectory_eq walkable.host (walkable.reaches dir directory) directory
    vacant, ⟨host, (left _ _).mpr ⟨walkable.root, root_ne_place below⟩, fun p there =>
      walkable.reaches p ((left _ _).mp there).1⟩, List.filter_sublist, ?_, left⟩
  refine ⟨below, directory, fun x e there under => ?_⟩
  have here := vacant x e there under
  rw [here, directory] at there
  exact ⟨(Option.some.inj there).symm, dir, here⟩

theorem Walkable.dropIfEmpty (walkable : store.Walkable fs) (below : dir ≠ .root)
    (directory : fs.entry? (store.place dir) = some .directory) :
    ((∃ name e, fs.entry? (store.place dir ++ [name]) = some e) ∧
      store.dropIfEmpty fs dir = .ok fs) ∨
    ∃ fs', store.dropIfEmpty fs dir = .ok fs' ∧ store.Dropped fs dir fs' := by
  obtain ⟨raw, lists, -, member⟩ :=
    HostFiles.list_eq_ok walkable.host (walkable.reaches dir directory) directory
  unfold MountedStore.dropIfEmpty
  rw [lists]
  cases raw with
  | cons entry raw =>
    exact .inl ⟨⟨_, _, (member entry.1 entry.2).mp List.mem_cons_self⟩, rfl⟩
  | nil =>
    refine .inr (walkable.removeDirectory below directory fun name => ?_)
    by_contra there
    obtain ⟨e, there⟩ := Option.ne_none_iff_exists'.mp there
    cases (member name e).mpr there

theorem Dropped.hollow_iff (dropped : store.Dropped fs dir fs') :
    store.Hollow fs' p ↔ store.Hollow fs p ∧ p ≠ dir := by
  constructor
  · intro hollow
    obtain ⟨directory, other⟩ := (dropped.entry? _ _).mp hollow.directory
    refine ⟨⟨hollow.below, directory, fun x e there under => ?_⟩,
      fun same => other (congrArg _ same)⟩
    by_cases gone : x = store.place dir
    · rw [gone, dropped.hollow.directory] at there
      exact ⟨(Option.some.inj there).symm, dir, gone⟩
    · exact hollow.inside x e ((dropped.entry? x e).mpr ⟨there, gone⟩) under
  · rintro ⟨hollow, other⟩
    refine ⟨hollow.below, (dropped.entry? _ _).mpr
      ⟨hollow.directory, fun same => other (place_inj.mp same)⟩, fun x e there under => ?_⟩
    exact hollow.inside x e ((dropped.entry? x e).mp there).1 under

/-! ## All directories -/

/-- What the directories that are still to be looked at have to be for the rest to be pruned. -/
structure Pending (store : MountedStore) (fs : HostFiles) (dirs : List Path) : Prop where
  unique : dirs.Nodup
  deepest : dirs.Pairwise fun p q => q.depth ≤ p.depth
  listed : ∀ p ∈ dirs, p ≠ .root ∧ fs.entry? (store.place p) = some .directory
  settled : ∀ p, store.Hollow fs p → p ∈ dirs

theorem Pending.keep (pending : store.Pending fs (dir :: dirs))
    (there : fs.entry? (store.place dir ++ [name]) = some e) : store.Pending fs dirs := by
  obtain ⟨deepest, later⟩ := List.pairwise_cons.mp pending.deepest
  have solid : ¬ store.Hollow fs dir := by
    intro hollow
    obtain ⟨a, inner⟩ := hollow.child there
    have deeper : (dir.child a).depth = dir.depth + 1 := by simp [Path.depth]
    rcases List.mem_cons.mp (pending.settled _ inner) with same | member
    · rw [same] at deeper
      omega
    · have := deepest _ member
      omega
  refine ⟨(List.nodup_cons.mp pending.unique).2, later,
    fun p member => pending.listed p (List.mem_cons_of_mem _ member), fun p hollow => ?_⟩
  rcases List.mem_cons.mp (pending.settled p hollow) with rfl | member
  · exact absurd hollow solid
  · exact member

theorem Pending.drop (pending : store.Pending fs (dir :: dirs))
    (dropped : store.Dropped fs dir fs') :
    store.Pending fs' dirs := by
  obtain ⟨first, unique⟩ := List.nodup_cons.mp pending.unique
  refine ⟨unique, (List.pairwise_cons.mp pending.deepest).2, fun p member => ?_,
    fun p hollow => ?_⟩
  · obtain ⟨below, directory⟩ := pending.listed p (List.mem_cons_of_mem _ member)
    have other : p ≠ dir := fun same => first (same ▸ member)
    exact ⟨below, (dropped.entry? _ _).mpr
      ⟨directory, fun same => other (place_inj.mp same)⟩⟩
  · obtain ⟨hollow, other⟩ := dropped.hollow_iff.mp hollow
    exact (List.mem_cons.mp (pending.settled p hollow)).resolve_left other

structure Pruned (store : MountedStore) (fs fs' : HostFiles) : Prop where
  host : fs'.WellFormed
  kept : fs'.entries.Sublist fs.entries
  entry? : ∀ x e, fs'.entry? x = some e ↔
    fs.entry? x = some e ∧ ¬ ∃ p, store.Hollow fs p ∧ x = store.place p

theorem Walkable.dropAll (walkable : store.Walkable fs) (pending : store.Pending fs dirs) :
    ∃ fs', prune.dropAll store dirs fs = (.ok (), fs') ∧ store.Pruned fs fs' := by
  induction dirs generalizing fs with
  | nil =>
    have solid (p : Path) : ¬ store.Hollow fs p := fun hollow => by cases pending.settled p hollow
    exact ⟨fs, rfl, walkable.host, List.Sublist.refl _, by simp [solid]⟩
  | cons dir dirs ih =>
    obtain ⟨below, directory⟩ := pending.listed dir List.mem_cons_self
    rw [prune.dropAll]
    rcases walkable.dropIfEmpty below directory with ⟨⟨name, e, there⟩, kept⟩ | ⟨fs', step, dropped⟩
    · rw [kept]
      exact ih walkable (pending.keep there)
    · obtain ⟨fs'', done, pruned⟩ := ih dropped.walkable (pending.drop dropped)
      rw [step]
      refine ⟨fs'', done, pruned.host, pruned.kept.trans dropped.kept, fun x e => ?_⟩
      rw [pruned.entry?, dropped.entry?, and_assoc]
      refine and_congr_right fun _ => ?_
      simp only [dropped.hollow_iff]
      constructor
      · rintro ⟨other, later⟩ ⟨p, hollow, rfl⟩
        exact later ⟨p, ⟨hollow, fun same => other (congrArg _ same)⟩, rfl⟩
      · intro solid
        exact ⟨fun same => solid ⟨dir, dropped.hollow, same⟩,
          fun ⟨p, ⟨hollow, _⟩, here⟩ => solid ⟨p, hollow, here⟩⟩

theorem Walkable.prune (walkable : store.Walkable fs) :
    ∃ fs', store.prune fs = (.ok (), fs') ∧ store.Pruned fs fs' := by
  obtain ⟨files, dirs, found, -, -, unique, member, deepest⟩ := walkable.survey
  obtain ⟨fs', done, pruned⟩ := walkable.dropAll ⟨unique, deepest, fun p => (member p).mp,
    fun p hollow => (member p).mpr ⟨hollow.below, hollow.directory⟩⟩
  refine ⟨fs', ?_, pruned⟩
  rw [MountedStore.prune, found]
  exact done

/-! ## Any directory of the host -/

theorem exists_place_iff {texts : List String} : (∃ p, store.place p = store.root ++ texts) ↔
    ∀ s ∈ texts, s ≠ "" ∧ '/' ∉ s.toList ∧ ':' ∉ s.toList := by
  rw [← Path.exists_names]
  constructor
  · rintro ⟨p, same⟩
    exact ⟨p.names, List.append_cancel_left same⟩
  · rintro ⟨names, rfl⟩
    exact ⟨⟨names⟩, rfl⟩

/-- Whatever a directory of the host holds, and in whatever order it is listed: the files are listed
that a path leads to, in order and each once, and pruning removes the directories below the root
that have nothing in them but directories that paths lead to. All else stays. The host is only ever
asked to go to directories that paths lead to. -/
theorem walks_exact (host : fs.WellFormed) (root : fs.entry? store.root = some .directory)
    (direct : ∀ p, fs.entry? (store.place p) = some .directory →
      HostFiles.Direct (store.place p)) :
    (∀ texts, (∃ p, store.place p = store.root ++ texts) ↔
      ∀ s ∈ texts, s ≠ "" ∧ '/' ∉ s.toList ∧ ':' ∉ s.toList) ∧
    (∃ files, store.listFiles fs = .ok files ∧ files.Pairwise (· < ·) ∧
      ∀ p, p ∈ files ↔ ∃ d, fs.entry? (store.place p) = some (.file d)) ∧
    ∃ fs', store.prune fs = (.ok (), fs') ∧ fs'.entries.Sublist fs.entries ∧
      ∀ x e, fs'.entry? x = some e ↔
        fs.entry? x = some e ∧ ¬ ∃ p, store.Hollow fs p ∧ x = store.place p := by
  have walkable : store.Walkable fs := ⟨host, root, direct⟩
  obtain ⟨files, dirs, found, sorted, member, -⟩ := walkable.survey
  obtain ⟨fs', done, pruned⟩ := walkable.prune
  refine ⟨fun texts => exists_place_iff, ⟨files, ?_, sorted, member⟩,
    fs', done, pruned.kept, pruned.entry?⟩
  rw [listFiles, found]
  rfl

def mixed : HostFiles where
  entries := [(["a-b"], .file [7]), (["a"], .directory), (["a", "n:1"], .file []),
    (["a", "c"], .directory)]

theorem mixed_direct : ∀ e ∈ mixed.entries, HostFiles.Direct e.1 := by
  have plain : ∀ name ∈ ["a-b", "a", "n:1", "c"], HostFiles.IsPlain name := by
    simp only [List.forall_mem_cons, List.not_mem_nil, false_implies, implies_true, and_true]
    refine ⟨?_, ?_, ?_, ?_⟩ <;> exact ⟨by decide, by decide, by decide, by decide⟩
  have short : ∀ e ∈ mixed.entries,
      e.1 ⊆ ["a-b", "a", "n:1", "c"] ∧
      e.1.foldl (fun bytes name => bytes + name.utf8ByteSize + 1) 0 ≤ HostFiles.maxPathBytes := by
    decide
  intro e member
  obtain ⟨known, short⟩ := short e member
  exact ⟨fun name here => plain name (known here), short⟩

theorem mixed_walked :
    (∃ files, listFiles ⟨[]⟩ mixed = .ok files ∧ .neighbour ∈ files) ∧
    ∃ fs', prune ⟨[]⟩ mixed = (.ok (), fs') ∧ fs'.entry? ["a"] = some .directory ∧
      fs'.entry? ["a", "c"] = none := by
  have host : mixed.WellFormed := ⟨by decide, by decide, by decide⟩
  have listed {x : Spot} {e : HostEntry} (there : mixed.entry? x = some e) :
      x = [] ∨ (x, e) ∈ mixed.entries :=
    or_iff_not_imp_left.mpr fun below => (HostFiles.mem_entries host below).mpr there
  have direct (p : Path) (there : mixed.entry? (place ⟨[]⟩ p) = some .directory) :
      HostFiles.Direct (place ⟨[]⟩ p) := by
    rcases listed there with top | entry
    · rw [top]
      exact ⟨by simp, by decide⟩
    · exact mixed_direct _ entry
  obtain ⟨-, ⟨files, found, -, member⟩, fs', done, -, left⟩ := walks_exact host rfl direct
  refine ⟨⟨files, found, (member _).mpr ⟨[7], rfl⟩⟩, fs', done, (left _ _).mpr ⟨rfl, ?_⟩, ?_⟩
  · rintro ⟨p, hollow, here⟩
    obtain ⟨same, -⟩ := hollow.inside ["a", "n:1"] (.file []) rfl (here ▸ by decide)
    cases same
  · have hollow : Hollow ⟨[]⟩ mixed .inner := by
      refine ⟨by decide, rfl, fun x e there under => ?_⟩
      have inside : ∀ e ∈ mixed.entries, ["a", "c"] <+: e.1 → e = (["a", "c"], .directory) := by
        decide
      rcases listed there with top | entry
      · rw [top] at under
        cases List.prefix_nil.mp under
      · obtain ⟨rfl, rfl⟩ := Prod.mk.inj (inside _ entry under)
        exact ⟨rfl, .inner, rfl⟩
    by_contra there
    obtain ⟨e, there⟩ := Option.ne_none_iff_exists'.mp there
    exact ((left _ _).mp there).2 ⟨.inner, hollow, rfl⟩

/-! ## In step with memory -/

namespace Mirrors

theorem hollow_iff (mirrors : store.Mirrors fs m) : store.Hollow fs p ↔
    m.directories.contains p = true ∧ ¬ ∃ q, m.files.contains q = true ∧ q.isUnder p = true := by
  have directory (q : Path) : fs.entry? (store.place q) = some .directory ↔
      q = .root ∨ m.directories.contains q = true := by
    rw [mirrors.same, MemoryStore.entryAt_eq_directory, MemoryStore.isDirectory_iff]
  constructor
  · intro hollow
    refine ⟨((directory p).mp hollow.directory).resolve_left hollow.below, ?_⟩
    rintro ⟨q, file, under⟩
    obtain ⟨d, held⟩ := PathMap.contains_iff.mp file
    have there := (mirrors.same q).trans (mirrors.memory.entryAt_eq_file.mpr held)
    obtain ⟨same, -⟩ := hollow.inside _ _ there (place_prefix_iff.mpr under)
    cases same
  · rintro ⟨listed, clear⟩
    refine ⟨mirrors.memory.ne_root_of_listed listed, (directory p).mpr (.inr listed),
      fun x e there under => ?_⟩
    obtain ⟨q, -, rfl⟩ := mirrors.named x e there ((root_prefix_place store p).trans under)
    refine ⟨?_, q, rfl⟩
    cases e with
    | directory => rfl
    | file d =>
      have held := mirrors.memory.entryAt_eq_file.mp ((mirrors.same q).symm.trans there)
      exact absurd ⟨q, PathMap.contains_iff.mpr ⟨d, held⟩, place_prefix_iff.mp under⟩ clear

theorem prune (mirrors : store.Mirrors fs m) :
    (store.prune fs).1 = .ok () ∧ store.Mirrors (store.prune fs).2 m.prune := by
  obtain ⟨fs', done, pruned⟩ := mirrors.walkable.prune
  have here (q : Path) (e : HostEntry) :
      fs'.entry? (store.place q) = some e ↔ m.entryAt q = some e ∧ ¬ store.Hollow fs q := by
    rw [pruned.entry?, mirrors.same]
    simp [place_inj]
  rw [done]
  refine ⟨rfl, pruned.host, mirrors.memory.prune, mirrors.root, fun x e there => ?_, fun q => ?_⟩
  · exact mirrors.named x e ((pruned.entry? x e).mp there).1
  · refine Option.ext fun e => (here q e).trans ?_
    cases e with
    | file d =>
      rw [mirrors.memory.entryAt_eq_file, mirrors.memory.prune.entryAt_eq_file, mirrors.hollow_iff]
      refine and_iff_left_of_imp fun held ⟨listed, _⟩ => ?_
      rw [mirrors.memory.get?_of_directory (MemoryStore.isDirectory_iff.mpr (.inr listed))] at held
      cases held
    | directory =>
      rw [MemoryStore.entryAt_eq_directory, MemoryStore.entryAt_eq_directory,
        MemoryStore.isDirectory_iff, MemoryStore.isDirectory_iff, MemoryStore.contains_prune,
        mirrors.hollow_iff]
      have unlisted := mirrors.memory.unlisted
      by_cases top : q = .root
      · simp [top, unlisted]
      · rw [or_iff_right top, or_iff_right top]
        refine and_congr_right fun listed => ?_
        rw [not_and_not_right]
        exact forall_prop_of_true listed

end Mirrors

end MountedStore

end DistFs
