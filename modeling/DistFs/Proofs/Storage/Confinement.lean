import DistFs.Proofs.Storage.HostChanges
import DistFs.Proofs.Storage.Places
import DistFs.Proofs.Storage.Survey

namespace DistFs

namespace HostFiles

variable {fs fs' : HostFiles} {root x : Spot} {place names : List String} {here : Spot}
  {e : HostEntry} {keep : Spot → Bool} {name : String} {d : Bytes} {α ε : Type}

/-! ## In a directory and besides -/

def isNear (root x : Spot) : Bool := x.isPrefixOf root || root.isPrefixOf x

def within (fs : HostFiles) (root : Spot) : HostFiles := fs.restrict (isNear root)

def besides (fs : HostFiles) (root : Spot) : HostFiles := fs.restrict fun x => !isBelow x root

theorem isNear_iff : isNear root x = true ↔ x <+: root ∨ root <+: x := by
  simp [isNear]

theorem isNear_above (near : isNear root place = true) (start : x <+: place) :
    isNear root x = true := by
  rw [isNear_iff] at near ⊢
  rcases near with above | below
  · exact .inl (start.trans above)
  · exact List.prefix_or_prefix_of_prefix start below

theorem isNear_of_isBelow (below : isBelow x root = true) : isNear root x = true :=
  isNear_iff.mpr (.inr (isBelow_iff.mp below).1)

theorem entry?_within (fs : HostFiles) (near : isNear root x = true) :
    HostFiles.entry? (fs.within root) x = fs.entry? x := by
  by_cases top : x = []
  · rw [top, entry?_top, entry?_top]
  · rw [within, entry?_restrict fs _ top, if_pos near]

theorem restrict_restrict (fs : HostFiles) (keep keep' : Spot → Bool) :
    (fs.restrict keep).restrict keep' = (fs.restrict keep').restrict keep := by
  simp [restrict, List.filter_filter, Bool.and_comm]

theorem restrict_put (fs : HostFiles) (x : Spot) (e : HostEntry) (keep : Spot → Bool) :
    (fs.put x e).restrict keep =
      if keep x then (fs.restrict keep).put x e else fs.restrict keep := by
  have keys : (fun entry : Spot × HostEntry => keep entry.1) ∘
      (fun entry => if entry.1 = x then (x, e) else entry) = fun entry => keep entry.1 := by
    funext entry
    by_cases here : entry.1 = x <;> simp [here]
  cases kept : keep x with
  | true =>
    have listed : (fs.restrict keep).entries.any (·.1 = x) = fs.entries.any (·.1 = x) := by
      rw [restrict, List.any_filter]
      congr 1
      funext entry
      by_cases here : entry.1 = x <;> simp [here, kept]
    rw [if_pos rfl, put, put, listed]
    split
    · simp only [restrict, List.filter_map, keys]
    · simp [restrict, kept]
  | false =>
    rw [if_neg Bool.false_ne_true, put]
    split
    · simp only [restrict, List.filter_map, keys]
      congr 1
      refine (List.map_congr_left fun entry member => ?_).trans (List.map_id _)
      have other : entry.1 ≠ x := by
        rintro rfl
        have kept' := (List.mem_filter.mp member).2
        rw [kept] at kept'
        cases kept'
      rw [if_neg other, id]
    · simp [restrict, kept]

/-! ## Changes in a directory -/

inductive Confined (root : Spot) (fs : HostFiles) : HostFiles → Prop
  | refl : Confined root fs fs
  | put {fs' : HostFiles} {x : Spot} (e : HostEntry) : Confined root fs fs' →
      isBelow x root = true → Dotless x → Confined root fs (fs'.put x e)
  | drop {fs' : HostFiles} {keep : Spot → Bool} : Confined root fs fs' →
      (∀ x, isBelow x root = false → keep x = true) → Confined root fs (fs'.restrict keep)

theorem Confined.trans {fs'' : HostFiles} (first : Confined root fs fs')
    (second : Confined root fs' fs'') : Confined root fs fs'' := by
  induction second with
  | refl => exact first
  | put e _ below dotless before => exact before.put e below dotless
  | drop _ kept before => exact before.drop kept

theorem Confined.besides_eq (confined : Confined root fs fs') :
    fs'.besides root = fs.besides root := by
  induction confined with
  | refl => rfl
  | put e _ below _ before =>
    rw [besides, restrict_put, below, ← before]
    rfl
  | @drop fs' keep _ kept before =>
    rw [← before, besides, besides, restrict, restrict, restrict, List.filter_filter]
    congr 1
    refine List.filter_congr fun entry _ => ?_
    cases outside : isBelow entry.1 root with
    | true => rfl
    | false => rw [kept _ outside]; rfl

structure Holds (root : Spot) (fs : HostFiles) : Prop where
  unique : (fs.entries.map Prod.fst).Nodup
  dotless : ∀ e ∈ fs.entries, Dotless e.1
  stands : ∀ x, x <+: root → fs.entry? x = some .directory

theorem WellFormed.holds (wf : fs.WellFormed) (dotless : ∀ e ∈ fs.entries, Dotless e.1)
    (there : fs.entry? root = some .directory) : Holds root fs := by
  refine ⟨wf.unique, dotless, fun x start => ?_⟩
  rw [wf.entry?_of_directory there, if_pos start]

theorem isBelow_eq_false (start : x <+: root) : isBelow x root = false := by
  rw [← Bool.not_eq_true, isBelow_iff]
  rintro ⟨below, other⟩
  exact other (start.eq_of_length_le below.length_le)

theorem Holds.isBelow (holds : Holds root fs) (near : isNear root x = true)
    (other : fs.entry? x ≠ some .directory) : isBelow x root = true := by
  rcases isNear_iff.mp near with above | below
  · exact absurd (holds.stands x above) other
  · refine isBelow_iff.mpr ⟨below, ?_⟩
    rintro rfl
    exact other (holds.stands x below)

theorem Confined.holds (confined : Confined root fs fs') (holds : Holds root fs) :
    Holds root fs' := by
  induction confined with
  | refl => exact holds
  | @put fs' y e _ below dotless before =>
    refine ⟨nodup_keys_put before.unique y e, fun entry listed => ?_, fun x start => ?_⟩
    · rcases (mem_keys_put ..).mp (List.mem_map_of_mem listed) with same | old
      · exact same ▸ dotless
      · obtain ⟨entry', listed', same⟩ := List.mem_map.mp old
        exact same ▸ before.dotless entry' listed'
    · have lower : y ≠ [] := by
        rintro rfl
        obtain ⟨start, other⟩ := isBelow_iff.mp below
        exact other (List.prefix_nil.mp start).symm
      have other : x ≠ y := by
        rintro rfl
        rw [isBelow_eq_false start] at below
        cases below
      rw [entry?_put fs' lower, if_neg other, before.stands x start]
  | @drop fs' keep _ kept before =>
    refine ⟨before.unique.sublist (List.filter_sublist.map _), fun entry listed =>
      before.dotless entry (List.mem_filter.mp listed).1, fun x start => ?_⟩
    by_cases top : x = []
    · rw [top, entry?_top]
    · rw [entry?_restrict fs' keep top, if_pos (kept x (isBelow_eq_false start)),
        before.stands x start]

/-! ## Going to a place -/

theorem follow_congr (dotless : Dotless names)
    (same : ∀ x, x <+: here ++ names → HostFiles.entry? fs' x = fs.entry? x) :
    fs'.follow names here = fs.follow names here := by
  induction names generalizing here with
  | nil => rfl
  | cons name names ih =>
    obtain ⟨not_dot, not_dots⟩ := dotless name List.mem_cons_self
    have rest : fs'.follow names (here ++ [name]) = fs.follow names (here ++ [name]) :=
      ih (fun other member => dotless other (List.mem_cons_of_mem _ member)) (by simpa using same)
    rw [follow, follow, same here (List.prefix_append ..)]
    simp only [not_dot, not_dots, if_false, rest]

theorem resolve_within (fs : HostFiles) (dotless : Dotless place)
    (near : isNear root place = true) :
    (fs.within root).resolve place = fs.resolve place := by
  unfold resolve
  have same : (fs.within root).follow place [] = fs.follow place [] :=
    follow_congr dotless fun x start =>
      entry?_within fs (isNear_above near (by simpa using start))
  rw [same]

theorem stat_within (fs : HostFiles) (dotless : Dotless place) (near : isNear root place = true) :
    (fs.within root).stat place = fs.stat place := by
  unfold stat
  rw [resolve_within fs dotless near]
  cases found : fs.resolve place with
  | error fault => rfl
  | ok spot =>
    simp only [bind, Except.bind]
    rw [eq_of_resolve dotless found, entry?_within fs near]

theorem isDirectory_within (fs : HostFiles) (dotless : Dotless place)
    (near : isNear root place = true) :
    (fs.within root).isDirectory place = fs.isDirectory place := by
  rw [isDirectory, isDirectory, stat_within fs dotless near]

theorem stat_inv (found : fs.stat place = .ok (x, e)) :
    fs.resolve place = .ok x ∧ fs.entry? x = some e := by
  unfold stat at found
  cases resolved : fs.resolve place with
  | error fault =>
    rw [resolved] at found
    cases found
  | ok spot =>
    rw [resolved] at found
    simp only [bind, Except.bind] at found
    split at found
    next there =>
      cases found
      exact ⟨rfl, there⟩
    next => cases found

theorem stat_of_find {r : String} (found : fs.find here r = .ok (x, e)) :
    fs.stat (HostFiles.place here r) = .ok (x, e) := by
  by_cases nothing : r = ""
  · rw [find, if_pos nothing] at found
    cases found
  · rw [find, if_neg nothing] at found
    cases there : fs.stat (HostFiles.place here r) with
    | error fault =>
      rw [there] at found
      cases found
    | ok spot =>
      rw [there] at found
      simp only [bind, Except.bind, pure, Except.pure] at found
      split at found
      next =>
        split at found
        next => cases found
        next => exact found
      next => exact found

theorem eq_of_stat (dotless : Dotless place) (found : fs.stat place = .ok (x, e)) :
    x = place ∧ fs.entry? place = some e := by
  obtain ⟨resolved, there⟩ := stat_inv found
  obtain rfl := eq_of_resolve dotless resolved
  exact ⟨rfl, there⟩

/-! ## Calls -/

/-- A call fails, or changes what is in a directory, whether or not there is anything besides. -/
def Keeps (root : Spot) (fs : HostFiles) (result result' : Except ε HostFiles) : Prop :=
  (∃ fault, result = .error fault ∧ result' = .error fault) ∨
  ∃ fs', result = .ok fs' ∧ result' = .ok (fs'.within root) ∧ Confined root fs fs'

theorem keeps_error (fault : ε) : Keeps root fs (.error fault) (.error fault) :=
  .inl ⟨fault, rfl, rfl⟩

theorem keeps_ok (ε : Type) : Keeps root fs (.ok fs : Except ε HostFiles) (.ok (fs.within root)) :=
  .inr ⟨fs, rfl, rfl, .refl⟩

theorem keeps_put (ε : Type) (below : isBelow x root = true) (dotless : Dotless x)
    (e : HostEntry) : Keeps root fs (.ok (fs.put x e) : Except ε HostFiles)
      (.ok ((fs.within root).put x e)) := by
  refine .inr ⟨_, rfl, ?_, .put e .refl below dotless⟩
  rw [within, within, restrict_put, if_pos (isNear_of_isBelow below)]

theorem keeps_restrict (ε : Type) (keep : Spot → Bool)
    (kept : ∀ x, isBelow x root = false → keep x = true) :
    Keeps root fs (.ok (fs.restrict keep) : Except ε HostFiles)
      (.ok ((fs.within root).restrict keep)) :=
  .inr ⟨_, rfl, congrArg _ (restrict_restrict ..), .drop .refl kept⟩

structure Stays (root : Spot) (fs : HostFiles) (result result' : α × HostFiles) : Prop where
  within_eq : result' = (result.1, result.2.within root)
  confined : Confined root fs result.2

theorem stays_refl (answer : α) : Stays root fs (answer, fs) (answer, fs.within root) :=
  ⟨rfl, .refl⟩

theorem keeps_put_at (holds : Holds root fs) (dotless : Dotless place)
    (near : isNear root place = true) (blocked : Option HostEntry → Bool)
    (directory : blocked (some .directory) = true) (fault : HostFault) (e : HostEntry) :
    Keeps root fs
      (do
        let spot ← fs.resolve place
        if endsInDots place || blocked (fs.entry? spot) then throw fault
        return fs.put spot e)
      (do
        let spot ← (fs.within root).resolve place
        if endsInDots place || blocked (HostFiles.entry? (fs.within root) spot) then throw fault
        return (fs.within root).put spot e) := by
  rw [resolve_within fs dotless near]
  cases found : fs.resolve place with
  | error fault => exact keeps_error fault
  | ok spot =>
    obtain rfl := eq_of_resolve dotless found
    simp only [bind, Except.bind]
    rw [entry?_within fs near, endsInDots_eq_false dotless, Bool.false_or]
    split
    next => exact keeps_error _
    next free =>
      exact keeps_put _ (holds.isBelow near fun there => free (there ▸ directory)) dotless e

theorem makeDirectory_keeps (holds : Holds root fs) (dotless : Dotless place)
    (near : isNear root place = true) :
    Keeps root fs (fs.makeDirectory place) ((fs.within root).makeDirectory place) :=
  keeps_put_at holds dotless near Option.isSome rfl .exists .directory

theorem createFile_keeps (holds : Holds root fs) (dotless : Dotless place)
    (near : isNear root place = true) :
    Keeps root fs (fs.createFile place) ((fs.within root).createFile place) :=
  keeps_put_at holds dotless near Option.isSome rfl .exists (.file [])

theorem writeFile_keeps (holds : Holds root fs) (dotless : Dotless place)
    (near : isNear root place = true) (d : Bytes) :
    Keeps root fs (fs.writeFile place d) ((fs.within root).writeFile place d) :=
  keeps_put_at holds dotless near (fun e => e = some .directory) (decide_eq_true rfl)
    .isADirectory (.file d)

theorem makeDirectories_stays (holds : Holds root fs) (dotless : Dotless place)
    (near : isNear root place = true) :
    Stays root fs (fs.makeDirectories place) ((fs.within root).makeDirectories place) := by
  induction place using List.reverseRecOn with
  | nil =>
    rw [makeDirectories.eq_1 fs, makeDirectories.eq_1 (fs.within root)]
    exact stays_refl _
  | append_singleton place name ih =>
    have start := List.prefix_append place [name]
    obtain ⟨same, between⟩ := ih (dotless.of_prefix start) (isNear_above near start)
    have known (fs' : HostFiles) := isDirectory_within fs' dotless near
    rw [makeDirectories.eq_1 fs, makeDirectories.eq_1 (fs.within root), dif_neg (by simp),
      dif_neg (by simp), around_concat dotless, known]
    rcases makeDirectory_keeps holds dotless near with
      ⟨fault, fails, fails'⟩ | ⟨fs', made, made', confined⟩
    · rw [fails, fails']
      by_cases missing : fault = .notFound
      · -- Those above are made first, and then the second attempt stays in the directory too.
        subst missing
        simp only
        rw [same]
        cases upper : fs.makeDirectories place with
        | mk answer fs' =>
          rw [upper] at between
          cases answer with
          | error fault => exact ⟨rfl, between⟩
          | ok =>
            simp only
            rw [known]
            rcases makeDirectory_keeps (between.holds holds) dotless near with
              ⟨fault, fails, fails'⟩ | ⟨fs'', made, made', confined⟩
            · rw [fails, fails']
              exact ⟨rfl, between⟩
            · rw [made, made']
              exact ⟨rfl, between.trans confined⟩
      · cases fault <;> first | exact absurd rfl missing | exact stays_refl _
    · rw [made, made']
      exact ⟨rfl, confined⟩

theorem makeDirectories_then (holds : Holds root fs) (dotless : Dotless place)
    (near : isNear root place = true) (refused : α) {goOn : HostFiles → α × HostFiles}
    (rest : ∀ fs', Holds root fs' → Stays root fs' (goOn fs') (goOn (fs'.within root))) :
    Stays root fs
      (match fs.makeDirectories place with
        | (.error _, fs') => (refused, fs')
        | (.ok _, fs') => goOn fs')
      (match (fs.within root).makeDirectories place with
        | (.error _, fs') => (refused, fs')
        | (.ok _, fs') => goOn fs') := by
  obtain ⟨same, between⟩ := makeDirectories_stays holds dotless near
  rw [same]
  cases made : fs.makeDirectories place with
  | mk answer fs' =>
    rw [made] at between
    cases answer with
    | error fault => exact ⟨rfl, between⟩
    | ok =>
      obtain ⟨same', after⟩ := rest fs' (between.holds holds)
      exact ⟨same', between.trans after⟩

/-! ## Removing -/

theorem isBelow_of_ne (kept : isBelow x root = false) (below : isBelow place root = true) :
    x ≠ place := by
  rintro rfl
  rw [kept] at below
  cases below

theorem isBelow_trans {y : Spot} (inside : isBelow x y = true) (below : isBelow y root = true) :
    isBelow x root = true := by
  rw [isBelow_iff] at *
  refine ⟨below.1.trans inside.1, ?_⟩
  rintro rfl
  exact inside.2 (below.1.eq_of_length_le inside.1.length_le)

theorem removeFile_keeps (holds : Holds root fs) (dotless : Dotless place)
    (near : isNear root place = true) :
    Keeps root fs (fs.removeFile place) ((fs.within root).removeFile place) := by
  unfold removeFile
  rw [stat_within fs dotless near]
  cases found : fs.stat place with
  | error fault => exact keeps_error fault
  | ok at_ =>
    obtain ⟨spot, e⟩ := at_
    obtain ⟨rfl, there⟩ := eq_of_stat dotless found
    cases e with
    | directory => exact keeps_error _
    | file d =>
      have below := holds.isBelow near (by simp [there])
      exact keeps_restrict _ (· ≠ spot) fun x kept => by
        simpa using isBelow_of_ne kept below

theorem removeDirectory_keeps (dotless : Dotless place) (below : isBelow place root = true) :
    Keeps root fs (fs.removeDirectory place) ((fs.within root).removeDirectory place) := by
  unfold removeDirectory
  rw [stat_within fs dotless (isNear_of_isBelow below)]
  cases found : fs.stat place with
  | error fault => exact keeps_error fault
  | ok at_ =>
    obtain ⟨spot, e⟩ := at_
    obtain ⟨rfl, there⟩ := eq_of_stat dotless found
    cases e with
    | file d => exact keeps_error _
    | directory =>
      have last : spot.getLast? ≠ some "." := fun last =>
        (dotless _ (List.mem_of_getLast? last)).1 rfl
      have seen : (fs.within root).entries.any (fun e => isBelow e.1 spot) =
          fs.entries.any fun e => isBelow e.1 spot := by
        rw [within, restrict, List.any_filter]
        congr 1
        funext entry
        cases inside : isBelow entry.1 spot with
        | false => exact Bool.and_false _
        | true => rw [isNear_of_isBelow (isBelow_trans inside below), Bool.true_and]
      simp only [bind, Except.bind, last, if_false, seen]
      split
      next => exact keeps_error _
      next =>
        exact keeps_restrict _ (· ≠ spot) fun x kept => by
          simpa using isBelow_of_ne kept below

theorem removeTree_stays (fs : HostFiles) (dotless : Dotless place)
    (below : isBelow place root = true) :
    Stays root fs (fs.removeTree place) ((fs.within root).removeTree place) := by
  unfold removeTree
  rw [stat_within fs dotless (isNear_of_isBelow below)]
  cases found : fs.stat place with
  | error fault => exact stays_refl _
  | ok at_ =>
    obtain ⟨spot, e⟩ := at_
    obtain ⟨rfl, there⟩ := eq_of_stat dotless found
    cases e with
    | file d => exact stays_refl _
    | directory =>
      have emptied : Confined root fs (fs.restrict fun x => !isBelow x spot) :=
        .drop .refl fun x kept => by
          rw [Bool.not_eq_true', ← Bool.not_eq_true]
          intro inside
          rw [isBelow_trans inside below] at kept
          cases kept
      have same : (fs.within root).restrict (fun x => !isBelow x spot) =
          (fs.restrict fun x => !isBelow x spot).within root := restrict_restrict ..
      unfold restrict at emptied same
      simp only [same]
      rcases removeDirectory_keeps dotless below with
        ⟨fault, fails, fails'⟩ | ⟨fs', removed, removed', confined⟩
      · rw [fails, fails']
        cases fault <;> exact ⟨rfl, emptied⟩
      · rw [removed, removed']
        exact ⟨rfl, emptied.trans confined⟩

/-! ## Listing -/

theorem list_within (dotless : Dotless place) (below : root <+: place) :
    (fs.within root).list place = fs.list place := by
  unfold list
  rw [stat_within fs dotless (isNear_iff.mpr (.inr below))]
  cases found : fs.stat place with
  | error fault => rfl
  | ok at_ =>
    obtain ⟨spot, e⟩ := at_
    obtain ⟨rfl, there⟩ := eq_of_stat dotless found
    cases e with
    | file d => rfl
    | directory =>
      simp only [bind, Except.bind]
      rw [within, restrict, List.filterMap_filter]
      congr 2
      funext entry
      split
      next => rfl
      next far =>
        refine (Option.eq_none_iff_forall_ne_some.mpr fun found here => far ?_).symm
        rw [directlyIn_eq_some.mp here]
        exact isNear_iff.mpr (.inr (below.trans (List.prefix_append ..)))

end HostFiles

end DistFs
