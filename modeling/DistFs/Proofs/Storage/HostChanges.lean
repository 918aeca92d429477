import DistFs.Proofs.Storage.HostFiles

namespace DistFs

namespace HostFiles

variable {fs : HostFiles} {x : Spot} {e : HostEntry} {name : String} {place : List String}
  {d : Bytes}

/-! ## Making -/

theorem endsInDots_eq_false (dotless : Dotless place) : endsInDots place = false := by
  rw [endsInDots, Bool.or_eq_false_iff, decide_eq_false_iff_not, decide_eq_false_iff_not]
  exact ⟨fun there => (dotless _ (List.mem_of_getLast? there)).1 rfl,
    fun there => (dotless _ (List.mem_of_getLast? there)).2 rfl⟩

theorem around_concat (dotless : Dotless (place ++ [name])) : around (place ++ [name]) = place := by
  have whole (names : List String) (dotless : Dotless names) :
      (names.reverse.dropWhile (· = ".")).reverse = names := by
    induction names using List.reverseRecOn with
    | nil => rfl
    | append_singleton names last _ =>
      have here := (dotless last (by simp)).1
      simp [here]
  have start := dotless.of_prefix (List.prefix_append place [name])
  simp only [around, whole _ dotless, List.dropLast_concat, whole _ start]

theorem makeDirectory_fresh (wf : fs.WellFormed) (direct : Direct place)
    (fresh : fs.entry? place = none) (above : fs.entry? place.dropLast = some .directory) :
    fs.makeDirectory place = .ok (fs.put place .directory) := by
  rw [makeDirectory, (resolve_eq_ok wf direct).mpr ⟨rfl, above⟩]
  simp [bind, Except.bind, pure, Except.pure, endsInDots_eq_false direct.dotless, fresh]

theorem makeDirectory_present (wf : fs.WellFormed) (direct : Direct place)
    (there : fs.entry? place = some e) : fs.makeDirectory place = .error .exists := by
  rw [makeDirectory, (resolve_eq_ok wf direct).mpr ⟨rfl, wf.directory_dropLast there⟩]
  simp [bind, Except.bind, throw, throwThe, MonadExceptOf.throw, there]

theorem makeDirectory_concat {fs' : HostFiles} (wf : fs'.WellFormed)
    (direct : Direct (place ++ [name]))
    (entry : ∀ x, fs'.entry? x = if x <+: place then some .directory else fs.entry? x)
    (fresh : fs.entry? (place ++ [name]) = none) :
    fs'.makeDirectory (place ++ [name]) = .ok (fs'.put (place ++ [name]) .directory) ∧
    (fs'.put (place ++ [name]) .directory).WellFormed ∧
    ∀ x, HostFiles.entry? (fs'.put (place ++ [name]) .directory) x =
      if x <+: place ++ [name] then some .directory else fs.entry? x := by
  have longer : ¬ place ++ [name] <+: place := by
    intro short
    have := short.length_le
    rw [List.length_append, List.length_singleton] at this
    omega
  have above : fs'.entry? (place ++ [name]).dropLast = some .directory := by
    rw [List.dropLast_concat, entry, if_pos (List.prefix_refl _)]
  have fresh' : fs'.entry? (place ++ [name]) = none := by rw [entry, if_neg longer, fresh]
  refine ⟨makeDirectory_fresh wf direct fresh' above, wf.put (by simp) above fun _ => rfl,
    fun x => ?_⟩
  rw [entry?_put _ (by simp), entry]
  by_cases same : x = place ++ [name]
  · simp [same]
  · simp [same, List.prefix_concat_iff]

theorem makeDirectories_of_clear (wf : fs.WellFormed) (direct : Direct place)
    (clear : ∀ x, x <+: place → ∀ d, fs.entry? x ≠ some (.file d)) :
    ∃ fs', fs.makeDirectories place = (.ok (), fs') ∧ fs'.WellFormed ∧
      ∀ x, fs'.entry? x = if x <+: place then some .directory else fs.entry? x := by
  induction place using List.reverseRecOn with
  | nil =>
    refine ⟨fs, by rw [makeDirectories]; rfl, wf, fun x => ?_⟩
    split
    next top => rw [List.prefix_nil.mp top, entry?_top]
    next => rfl
  | append_singleton place name ih =>
    have start := List.prefix_append place [name]
    have direct' := direct.of_prefix start
    rw [makeDirectories, dif_neg (by simp)]
    cases there : fs.entry? (place ++ [name]) with
    | some e =>
      cases e with
      | file d => exact absurd there (clear _ (List.prefix_refl _) d)
      | directory =>
        rw [makeDirectory_present wf direct there]
        exact ⟨fs, by simp [(isDirectory_iff wf direct).mpr there], wf,
          wf.entry?_of_directory there⟩
    | none =>
      cases before : fs.entry? place with
      | some e =>
        cases e with
        | file d => exact absurd before (clear _ start d)
        | directory =>
          obtain ⟨done, wf', entry'⟩ :=
            makeDirectory_concat wf direct (wf.entry?_of_directory before) there
          exact ⟨_, by rw [done], wf', entry'⟩
      | none =>
        -- The first attempt fails, those above are made, and the second attempt succeeds.
        have missing : fs.makeDirectory (place ++ [name]) = .error .notFound := by
          rw [makeDirectory, resolve_eq_follow direct, follow_of_missing wf direct
            (fun x under _ => clear x under) (by rw [List.dropLast_concat, before])]
          rfl
        obtain ⟨fs', made', wf', entry⟩ := ih direct' fun x under => clear x (under.trans start)
        obtain ⟨done, wf'', entry'⟩ := makeDirectory_concat wf' direct entry there
        exact ⟨_, by simp only [missing, around_concat direct.dotless, made', done], wf'', entry'⟩

theorem makeDirectories_of_file (wf : fs.WellFormed) (direct : Direct place) (start : x <+: place)
    (file : fs.entry? x = some (.file d)) :
    ∃ fault, fs.makeDirectories place = (.error fault, fs) := by
  have below : place ≠ [] := by
    rintro rfl
    rw [List.prefix_nil.mp start, entry?_top] at file
    cases file
  have fails : ∃ fault, fault ≠ .notFound ∧ fs.makeDirectory place = .error fault := by
    by_cases same : x = place
    · exact ⟨.exists, by simp, makeDirectory_present wf direct (same ▸ file)⟩
    · refine ⟨.notADirectory, by simp, ?_⟩
      rw [makeDirectory, resolve_eq_follow direct, follow_of_file wf direct start same file]
      rfl
  have other : fs.isDirectory place = false := by
    rw [← Bool.not_eq_true, isDirectory_iff wf direct]
    intro there
    by_cases same : x = place
    · rw [← same, file] at there
      cases there
    · rw [wf.directory_above there start same] at file
      cases file
  obtain ⟨fault, apart, fails⟩ := fails
  refine ⟨fault, ?_⟩
  rw [makeDirectories, dif_neg below, fails]
  cases fault <;> simp_all

theorem createFile_fresh (wf : fs.WellFormed) (direct : Direct place)
    (fresh : fs.entry? place = none) (above : fs.entry? place.dropLast = some .directory) :
    fs.createFile place = .ok (fs.put place (.file [])) := by
  rw [createFile, (resolve_eq_ok wf direct).mpr ⟨rfl, above⟩]
  simp [bind, Except.bind, pure, Except.pure, endsInDots_eq_false direct.dotless, fresh]

theorem writeFile_eq (wf : fs.WellFormed) (direct : Direct place)
    (free : fs.entry? place ≠ some .directory)
    (above : fs.entry? place.dropLast = some .directory) (d : Bytes) :
    fs.writeFile place d = .ok (fs.put place (.file d)) := by
  rw [writeFile, (resolve_eq_ok wf direct).mpr ⟨rfl, above⟩]
  simp [bind, Except.bind, pure, Except.pure, endsInDots_eq_false direct.dotless, free]

/-! ## Removing -/

theorem removeFile_eq (wf : fs.WellFormed) (direct : Direct place)
    (there : fs.entry? place = some (.file d)) :
    fs.removeFile place = .ok (fs.restrict (· ≠ place)) := by
  rw [removeFile, (stat_eq_ok wf direct).mpr ⟨rfl, there⟩]
  rfl

theorem WellFormed.remove (wf : fs.WellFormed)
    (vacant : ∀ x e, fs.entry? x = some e → x ≠ [] → x.dropLast ≠ place) :
    (fs.restrict (· ≠ place)).WellFormed := by
  refine wf.restrict fun x e there _ below => ?_
  rw [decide_eq_true_eq]
  refine vacant x e there ?_
  rintro rfl
  exact below rfl

theorem isBelow_iff {spot top : Spot} : isBelow spot top = true ↔ top <+: spot ∧ spot ≠ top := by
  simp [isBelow]

theorem removeDirectory_eq (wf : fs.WellFormed) (direct : Direct place)
    (there : fs.entry? place = some .directory)
    (vacant : ∀ x e, fs.entry? x = some e → place <+: x → x = place) :
    fs.removeDirectory place = .ok (fs.restrict (· ≠ place)) := by
  have none : (fs.entries.any fun e => isBelow e.1 place) = false := by
    rw [List.any_eq_false]
    intro entry listed below
    obtain ⟨under, other⟩ := isBelow_iff.mp below
    exact other (vacant _ _ ((mem_entries wf (wf.named _ listed)).mp listed) under)
  have last : place.getLast? ≠ some "." := fun last =>
    (direct.plain _ (List.mem_of_getLast? last)).not_dot rfl
  rw [removeDirectory, (stat_eq_ok wf direct).mpr ⟨rfl, there⟩]
  simp only [bind, Except.bind, last, none]
  rfl

theorem removeTree_eq (wf : fs.WellFormed) (direct : Direct place) (below : place ≠ [])
    (there : fs.entry? place = some .directory) :
    fs.removeTree place = (.ok (), fs.restrict fun x => !place.isPrefixOf x) := by
  have emptied : (fs.restrict fun x => !isBelow x place).WellFormed := by
    refine wf.restrict fun x e _ kept _ => ?_
    rw [Bool.not_eq_true', ← Bool.not_eq_true, isBelow_iff] at kept ⊢
    rintro ⟨under, other⟩
    refine kept ⟨under.trans (List.dropLast_prefix x), ?_⟩
    rintro rfl
    exact other (List.IsPrefix.eq_of_length_le (List.dropLast_prefix _) under.length_le)
  have stays : HostFiles.entry? (fs.restrict fun x => !isBelow x place) place =
      some .directory := by
    have above : isBelow place place = false := by
      rw [← Bool.not_eq_true, isBelow_iff]
      exact fun h => h.2 rfl
    rw [entry?_restrict fs _ below, above, there]
    rfl
  have removed := removeDirectory_eq emptied direct stays fun x e here under => by
    by_contra other
    rw [entry?_restrict fs _ (fun top => below (List.prefix_nil.mp (top ▸ under))),
      isBelow_iff.mpr ⟨under, other⟩] at here
    cases here
  rw [removeTree, (stat_eq_ok wf direct).mpr ⟨rfl, there⟩]
  dsimp only
  rw [show (⟨fs.entries.filter fun e => !isBelow e.1 place⟩ : HostFiles) =
    fs.restrict fun x => !isBelow x place from rfl, removed]
  simp only [restrict, List.filter_filter]
  congr 4
  funext entry
  by_cases same : entry.1 = place <;> simp [isBelow, same]

theorem WellFormed.removeTree (wf : fs.WellFormed) (place : List String) :
    (fs.restrict fun x => !place.isPrefixOf x).WellFormed := by
  refine wf.restrict fun x e _ kept _ => ?_
  rw [Bool.not_eq_true', ← Bool.not_eq_true, List.isPrefixOf_iff_prefix] at kept ⊢
  exact fun under => kept (under.trans (List.dropLast_prefix x))

/-! ## Listing -/

theorem directlyIn_eq_some {spot : Spot} {entry : Spot × HostEntry} {found : String × HostEntry} :
    (if entry.1 ≠ [] ∧ entry.1.dropLast = spot then entry.1.getLast?.map (·, entry.2) else none) =
      some found ↔ entry = (spot ++ [found.1], found.2) := by
  obtain ⟨below, e⟩ := entry
  rcases List.eq_nil_or_concat below with rfl | ⟨names, name, rfl⟩
  · simp
  · by_cases same : names = spot <;> simp [same, Prod.ext_iff]

theorem list_of_stat {spot : Spot} (unique : (fs.entries.map Prod.fst).Nodup)
    (there : fs.stat place = .ok (spot, .directory)) :
    ∃ listed, fs.list place = .ok listed ∧ listed.Pairwise (·.1 ≠ ·.1) ∧
      ∀ name e, (name, e) ∈ listed ↔ (spot ++ [name], e) ∈ fs.entries := by
  have listed : fs.list place = .ok (fs.entries.filterMap fun entry =>
      if entry.1 ≠ [] ∧ entry.1.dropLast = spot then entry.1.getLast?.map (·, entry.2)
      else none) := by
    rw [list, there]
    rfl
  refine ⟨_, listed, ?_, fun name e => ?_⟩
  · rw [List.pairwise_filterMap]
    refine (List.pairwise_map.mp unique).imp fun apart found here found' here' same => ?_
    rw [directlyIn_eq_some.mp here, directlyIn_eq_some.mp here', same] at apart
    exact apart rfl
  · rw [List.mem_filterMap]
    constructor
    · rintro ⟨entry, member, here⟩
      exact directlyIn_eq_some.mp here ▸ member
    · exact fun member => ⟨_, member, directlyIn_eq_some.mpr rfl⟩

theorem list_eq_ok (wf : fs.WellFormed) (direct : Direct place)
    (there : fs.entry? place = some .directory) :
    ∃ listed, fs.list place = .ok listed ∧ listed.Pairwise (·.1 ≠ ·.1) ∧
      ∀ name e, (name, e) ∈ listed ↔ fs.entry? (place ++ [name]) = some e := by
  obtain ⟨listed, lists, apart, member⟩ :=
    list_of_stat wf.unique ((stat_eq_ok wf direct).mpr ⟨rfl, there⟩)
  exact ⟨listed, lists, apart, fun name e => (member name e).trans (mem_entries wf (by simp))⟩

end HostFiles

end DistFs
