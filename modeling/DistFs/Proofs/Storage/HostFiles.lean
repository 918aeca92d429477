import DistFs.HostFiles
import DistFs.Proofs.Keyed
import Mathlib.Data.List.Induction
import Mathlib.Data.List.Nodup

namespace DistFs

namespace HostFiles

variable {fs : HostFiles} {spot x : Spot} {e : HostEntry} {place : List String}
  {d : Bytes} {keep : Spot → Bool}

structure WellFormed (fs : HostFiles) : Prop where
  unique : (fs.entries.map Prod.fst).Nodup
  named : ∀ e ∈ fs.entries, e.1 ≠ []
  above : ∀ e ∈ fs.entries, fs.entry? e.1.dropLast = some .directory

@[simp] theorem entry?_top (fs : HostFiles) : fs.entry? [] = some .directory := rfl

theorem mem_entries (wf : fs.WellFormed) (below : spot ≠ []) :
    (spot, e) ∈ fs.entries ↔ fs.entry? spot = some e := by
  rw [HostFiles.entry?, if_neg below]
  constructor
  · intro listed
    cases found : fs.entries.find? (·.1 = spot) with
    | none => simpa using List.find?_eq_none.mp found _ listed
    | some other =>
      have here : other.1 = spot := by simpa using List.find?_some found
      have same := List.inj_on_of_nodup_map wf.unique (List.mem_of_find?_eq_some found) listed here
      rw [same, Option.map_some]
  · intro there
    obtain ⟨other, found, rfl⟩ := Option.map_eq_some_iff.mp there
    have here : other.1 = spot := by simpa using List.find?_some found
    exact here ▸ List.mem_of_find?_eq_some found

theorem mem_keys (wf : fs.WellFormed) (below : spot ≠ []) :
    spot ∈ fs.entries.map Prod.fst ↔ ∃ e, fs.entry? spot = some e := by
  simp only [List.mem_map, ← mem_entries wf below]
  constructor
  · rintro ⟨entry, listed, rfl⟩
    exact ⟨entry.2, listed⟩
  · rintro ⟨e, listed⟩
    exact ⟨(spot, e), listed, rfl⟩

theorem WellFormed.directory_dropLast (wf : fs.WellFormed) (there : fs.entry? spot = some e) :
    fs.entry? spot.dropLast = some .directory := by
  by_cases top : spot = []
  · simp [top]
  · exact wf.above _ ((mem_entries wf top).mpr there)

theorem WellFormed.directory_above (wf : fs.WellFormed) (there : fs.entry? spot = some e)
    (start : x <+: spot) (other : x ≠ spot) : fs.entry? x = some .directory := by
  induction spot using List.reverseRecOn generalizing e with
  | nil => exact absurd (List.prefix_nil.mp start) other
  | append_singleton spot name ih =>
    have there := wf.directory_dropLast there
    rw [List.dropLast_concat] at there
    rcases List.prefix_concat_iff.mp start with same | start
    · exact absurd same other
    · by_cases same : x = spot
      · exact same ▸ there
      · exact ih there start same

theorem WellFormed.entry?_of_directory (wf : fs.WellFormed)
    (there : fs.entry? spot = some .directory) (x : Spot) :
    fs.entry? x = if x <+: spot then some .directory else fs.entry? x := by
  split
  next under =>
    by_cases same : x = spot
    · exact same ▸ there
    · exact wf.directory_above there under same
  next => rfl

/-! ## Changes -/

theorem entry?_put (fs : HostFiles) (below : spot ≠ []) (e : HostEntry) (x : Spot) :
    HostFiles.entry? (fs.put spot e) x = if x = spot then some e else fs.entry? x := by
  by_cases top : x = []
  · subst top
    simp [Ne.symm below]
  · unfold put entry?
    rw [if_neg top, if_neg top]
    split
    next there =>
      obtain ⟨entry, listed, here⟩ := List.any_eq_true.mp there
      obtain ⟨first, found⟩ : ∃ first, fs.entries.find? (·.1 = spot) = some first := by
        rw [← Option.isSome_iff_exists, List.find?_isSome]
        exact ⟨entry, listed, here⟩
      rw [find?_replace_key, found]
      split <;> rfl
    next absent =>
      rw [List.find?_append]
      by_cases same : x = spot
      · have none : fs.entries.find? (·.1 = spot) = none := by
          rw [List.find?_eq_none]
          intro entry listed here
          exact absent (List.any_eq_true.mpr ⟨entry, listed, here⟩)
        simp [same, none]
      · simp [same, Ne.symm same]

theorem keys_put (fs : HostFiles) (spot : Spot) (e : HostEntry) :
    (fs.put spot e).entries.map Prod.fst =
      if fs.entries.any (·.1 = spot) then fs.entries.map Prod.fst
      else fs.entries.map Prod.fst ++ [spot] := by
  unfold put
  split
  · rw [List.map_map]
    refine List.map_congr_left fun entry _ => ?_
    by_cases same : entry.1 = spot <;> simp [same]
  · simp

theorem mem_keys_put (fs : HostFiles) (spot : Spot) (e : HostEntry) (x : Spot) :
    x ∈ (fs.put spot e).entries.map Prod.fst ↔ x = spot ∨ x ∈ fs.entries.map Prod.fst := by
  rw [keys_put]
  split
  next there =>
    obtain ⟨entry, listed, here⟩ := List.any_eq_true.mp there
    have here : entry.1 = spot := by simpa using here
    refine ⟨.inr, fun member => member.elim (fun same => ?_) id⟩
    exact List.mem_map.mpr ⟨entry, listed, here.trans same.symm⟩
  next => rw [List.mem_append, List.mem_singleton, or_comm]

theorem nodup_keys_put (unique : (fs.entries.map Prod.fst).Nodup) (spot : Spot) (e : HostEntry) :
    ((fs.put spot e).entries.map Prod.fst).Nodup := by
  rw [keys_put]
  split
  next => exact unique
  next absent =>
    have fresh : spot ∉ fs.entries.map Prod.fst := by simpa using absent
    exact List.nodup_append.mpr ⟨unique, List.nodup_singleton spot, fun x member y last =>
      List.mem_singleton.mp last ▸ fun same => fresh (same ▸ member)⟩

theorem WellFormed.put (wf : fs.WellFormed) (below : spot ≠ [])
    (above : fs.entry? spot.dropLast = some .directory)
    (kept : fs.entry? spot = some .directory → e = .directory) : (fs.put spot e).WellFormed := by
  refine ⟨nodup_keys_put wf.unique spot e, fun entry listed => ?_, fun entry listed => ?_⟩
  · rcases (mem_keys_put ..).mp (List.mem_map_of_mem listed) with same | old
    · exact same ▸ below
    · obtain ⟨entry', listed', same⟩ := List.mem_map.mp old
      exact same ▸ wf.named entry' listed'
  · rw [entry?_put fs below]
    split
    next here =>
      rcases (mem_keys_put ..).mp (List.mem_map_of_mem listed) with same | old
      · have shorter := congrArg List.length here
        rw [same, List.length_dropLast] at shorter
        have := List.length_pos_iff.mpr below
        omega
      · obtain ⟨entry', listed', same⟩ := List.mem_map.mp old
        rw [kept (here ▸ same ▸ wf.above entry' listed')]
    next =>
      rcases (mem_keys_put ..).mp (List.mem_map_of_mem listed) with same | old
      · exact same ▸ above
      · obtain ⟨entry', listed', same⟩ := List.mem_map.mp old
        exact same ▸ wf.above entry' listed'

def restrict (fs : HostFiles) (keep : Spot → Bool) : HostFiles :=
  ⟨fs.entries.filter fun e => keep e.1⟩

theorem entry?_restrict (fs : HostFiles) (keep : Spot → Bool) (below : x ≠ []) :
    HostFiles.entry? (fs.restrict keep) x = if keep x then fs.entry? x else none := by
  unfold entry? restrict
  rw [if_neg below, if_neg below, find?_filter_key]
  cases keep x <;> rfl

theorem WellFormed.restrict (wf : fs.WellFormed)
    (above : ∀ x e, fs.entry? x = some e → keep x = true → x.dropLast ≠ [] →
      keep x.dropLast = true) : (fs.restrict keep).WellFormed := by
  have old {entry : Spot × HostEntry} (listed : entry ∈ (fs.restrict keep).entries) :
      entry ∈ fs.entries ∧ keep entry.1 = true := List.mem_filter.mp listed
  refine ⟨wf.unique.sublist (List.filter_sublist.map _), fun entry listed =>
    wf.named entry (old listed).1, fun entry listed => ?_⟩
  obtain ⟨member, kept⟩ := old listed
  by_cases top : entry.1.dropLast = []
  · rw [top, entry?_top]
  · have there := (mem_entries wf (wf.named entry member)).mp member
    rw [entry?_restrict fs keep top, if_pos (above _ _ there kept top)]
    exact wf.above entry member

/-! ## Following a place -/

theorem follow_concat (fs : HostFiles) (names : List String) (name : String) (spot : Spot) :
    fs.follow (names ++ [name]) spot = (fs.follow names spot).bind (fs.follow [name]) := by
  induction names generalizing spot with
  | nil => rfl
  | cons first names ih =>
    simp only [List.cons_append, follow]
    cases fs.entry? spot with
    | none => rfl
    | some e =>
      cases e with
      | file d => rfl
      | directory =>
        dsimp only
        split
        · exact ih _
        · split
          · exact ih _
          · split
            · rfl
            · exact ih _

def Dotless (names : List String) : Prop := ∀ name ∈ names, name ≠ "." ∧ name ≠ ".."

instance (names : List String) : Decidable (Dotless names) :=
  inferInstanceAs (Decidable (∀ name ∈ names, name ≠ "." ∧ name ≠ ".."))

structure IsPlain (name : String) : Prop where
  not_dot : name ≠ "."
  not_dots : name ≠ ".."
  no_nul : name.toList.contains (Char.ofNat 0) = false
  short : name.utf8ByteSize ≤ maxNameBytes

/-- A place that says by itself where it leads, and is not too long for the host to go there. -/
structure Direct (place : List String) : Prop where
  plain : ∀ name ∈ place, IsPlain name
  short : place.foldl (fun bytes name => bytes + name.utf8ByteSize + 1) 0 ≤ maxPathBytes

theorem Direct.dotless (direct : Direct place) : Dotless place :=
  fun name member => ⟨(direct.plain name member).not_dot, (direct.plain name member).not_dots⟩

theorem Dotless.of_prefix (dotless : Dotless place) (start : x <+: place) : Dotless x :=
  fun name member => dotless name (start.subset member)

theorem Direct.of_prefix (direct : Direct place) (start : x <+: place) : Direct x := by
  have grows (names : List String) (bytes : Nat) :
      bytes ≤ names.foldl (fun bytes name => bytes + name.utf8ByteSize + 1) bytes := by
    induction names generalizing bytes with
    | nil => exact Nat.le_refl _
    | cons name names ih =>
      have := ih (bytes + name.utf8ByteSize + 1)
      rw [List.foldl_cons]
      omega
  obtain ⟨rest, rfl⟩ := start
  have short := direct.short
  rw [List.foldl_append] at short
  exact ⟨fun name member => direct.plain name (List.mem_append_left _ member),
    Nat.le_trans (grows rest _) short⟩

theorem resolve_eq_follow (direct : Direct place) (fs : HostFiles) :
    fs.resolve place = fs.follow place [] := by
  have clean : (place.any fun name => name.toList.contains (Char.ofNat 0)) = false := by
    rw [List.any_eq_false]
    intro name member
    rw [(direct.plain name member).no_nul]
    exact Bool.false_ne_true
  rw [resolve, clean, if_neg Bool.false_ne_true, if_neg (Nat.not_lt.mpr direct.short)]

theorem follow_of_directory (wf : fs.WellFormed) (direct : Direct place)
    (above : fs.entry? place.dropLast = some .directory) : fs.follow place [] = .ok place := by
  induction place using List.reverseRecOn with
  | nil => rfl
  | append_singleton place name ih =>
    rw [List.dropLast_concat] at above
    have plain := direct.plain name (by simp)
    rw [follow_concat, ih (direct.of_prefix (List.prefix_append ..)) (wf.directory_dropLast above)]
    simp [Except.bind, follow, above, plain.not_dot, plain.not_dots, Nat.not_lt.mpr plain.short]

theorem follow_of_file (wf : fs.WellFormed) (direct : Direct place) (start : x <+: place)
    (other : x ≠ place) (file : fs.entry? x = some (.file d)) :
    fs.follow place [] = .error .notADirectory := by
  induction place using List.reverseRecOn with
  | nil => exact absurd (List.prefix_nil.mp start) other
  | append_singleton place name ih =>
    have direct' := direct.of_prefix (List.prefix_append place [name])
    rw [follow_concat]
    rcases List.prefix_concat_iff.mp start with same | start
    · exact absurd same other
    · by_cases same : x = place
      · subst same
        rw [follow_of_directory wf direct' (wf.directory_dropLast file)]
        simp [Except.bind, follow, file]
      · rw [ih direct' start same]
        rfl

theorem follow_of_missing (wf : fs.WellFormed) (direct : Direct place)
    (clear : ∀ x, x <+: place → x ≠ place → ∀ d, fs.entry? x ≠ some (.file d))
    (missing : fs.entry? place.dropLast = none) : fs.follow place [] = .error .notFound := by
  induction place using List.reverseRecOn with
  | nil => simp at missing
  | append_singleton place name ih =>
    have direct' := direct.of_prefix (List.prefix_append place [name])
    have clear' (x : Spot) (start : x <+: place) (d : Bytes) : fs.entry? x ≠ some (.file d) := by
      refine clear x (start.trans (List.prefix_append ..)) (fun same => ?_) d
      have shorter := start.length_le
      rw [same, List.length_append, List.length_singleton] at shorter
      omega
    rw [List.dropLast_concat] at missing
    rw [follow_concat]
    cases before : fs.entry? place.dropLast with
    | none =>
      rw [ih direct' (fun x start _ => clear' x start) before]
      rfl
    | some e =>
      cases e with
      | file d => exact absurd before (clear' _ (List.dropLast_prefix place) d)
      | directory =>
        rw [follow_of_directory wf direct' before]
        simp [Except.bind, follow, missing]

theorem dropLast_ne (above : fs.entry? place.dropLast ≠ some .directory) :
    place.dropLast ≠ place := by
  intro same
  cases place with
  | nil => exact above rfl
  | cons name names =>
    have shorter := congrArg List.length same
    simp at shorter

theorem resolve_eq_ok (wf : fs.WellFormed) (direct : Direct place) :
    fs.resolve place = .ok spot ↔ spot = place ∧ fs.entry? place.dropLast = some .directory := by
  rw [resolve_eq_follow direct]
  by_cases above : fs.entry? place.dropLast = some .directory
  · rw [follow_of_directory wf direct above]
    simp [above, eq_comm]
  · have lost : ∃ fault, fs.follow place [] = .error fault := by
      by_cases file : ∃ x d, x <+: place ∧ x ≠ place ∧ fs.entry? x = some (.file d)
      · obtain ⟨x, d, start, other, file⟩ := file
        exact ⟨_, follow_of_file wf direct start other file⟩
      · refine ⟨_, follow_of_missing wf direct (fun x start other d there =>
          file ⟨x, d, start, other, there⟩) ?_⟩
        cases before : fs.entry? place.dropLast with
        | none => rfl
        | some e =>
          cases e with
          | directory => exact absurd before above
          | file d =>
            exact absurd ⟨_, d, List.dropLast_prefix place, dropLast_ne above, before⟩ file
    obtain ⟨fault, lost⟩ := lost
    simp [lost, above]

theorem stat_eq_ok (wf : fs.WellFormed) (direct : Direct place) :
    fs.stat place = .ok (spot, e) ↔ spot = place ∧ fs.entry? place = some e := by
  unfold stat
  cases resolved : fs.resolve place with
  | error fault =>
    have nothing : fs.entry? place ≠ some e := by
      intro there
      rw [(resolve_eq_ok wf direct).mpr ⟨rfl, wf.directory_dropLast there⟩] at resolved
      cases resolved
    simp [bind, Except.bind, nothing]
  | ok there =>
    obtain ⟨rfl, -⟩ := (resolve_eq_ok wf direct).mp resolved
    cases present : fs.entry? there with
    | none => simp [bind, Except.bind, present]
    | some e' => simp [bind, Except.bind, pure, Except.pure, present, eq_comm]

theorem stat_isOk (wf : fs.WellFormed) (direct : Direct place) :
    (fs.stat place).isOk = (fs.entry? place).isSome := by
  cases there : fs.entry? place with
  | some e =>
    rw [(stat_eq_ok wf direct).mpr ⟨rfl, there⟩, Except.isOk, Except.toBool, Option.isSome]
  | none =>
    cases found : fs.stat place with
    | error fault => rfl
    | ok found' =>
      rw [((stat_eq_ok wf direct).mp found).2] at there
      cases there

theorem isDirectory_iff (wf : fs.WellFormed) (direct : Direct place) :
    fs.isDirectory place = true ↔ fs.entry? place = some .directory := by
  unfold isDirectory
  constructor
  · intro found
    split at found
    next spot stat => exact ((stat_eq_ok wf direct).mp stat).2
    next => cases found
  · intro there
    rw [(stat_eq_ok wf direct).mpr ⟨rfl, there⟩]

end HostFiles

end DistFs
