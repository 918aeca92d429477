import DistFs.Storage.Mounted
import DistFs.Proofs.Storage.Entries
import DistFs.Proofs.Storage.HostChanges

namespace DistFs

open HostFiles (Direct)

/-! ## Places of paths -/

namespace MountedStore

variable {store : MountedStore} {fs : HostFiles} {m : MemoryStore} {p q : Path} {x : Spot}
  {e : HostEntry} {d : Bytes}

@[simp] theorem place_root (store : MountedStore) : store.place .root = store.root := by
  simp [place]

theorem place_child (store : MountedStore) (p : Path) (a : Name) :
    store.place (p.child a) = store.place p ++ [a.text] := by
  simp [place]

theorem place_prefix_iff : store.place q <+: store.place p ↔ p.isUnder q = true := by
  have inj : Function.Injective Name.text := fun _ _ same => Name.ext_text same
  rw [place, place, List.prefix_append_right_inj, List.prefix_map_iff_of_injective inj,
    Path.isUnder_iff]

theorem place_inj : store.place p = store.place q ↔ p = q := by
  refine ⟨fun same => ?_, congrArg _⟩
  have here : store.place p <+: store.place q := same ▸ List.prefix_refl (store.place p)
  have there : store.place q <+: store.place p := same ▸ List.prefix_refl (store.place q)
  exact Path.isUnder_antisymm (place_prefix_iff.mp there) (place_prefix_iff.mp here)

theorem root_ne_place (below : p ≠ .root) : store.root ≠ store.place p := by
  rw [← place_root, Ne, place_inj]
  exact below.symm

theorem place_ne_nil (below : p ≠ .root) : store.place p ≠ [] := by
  obtain ⟨parent, a, rfl⟩ := p.eq_root_or_child.resolve_left below
  simp [place_child]

theorem root_prefix_place (store : MountedStore) (p : Path) : store.root <+: store.place p :=
  List.prefix_append ..

theorem eq_place_of_prefix (below : store.root <+: x) (start : x <+: store.place p) :
    ∃ q, p.isUnder q = true ∧ x = store.place q := by
  obtain ⟨rest, rfl⟩ := below
  rw [place, List.prefix_append_right_inj, List.prefix_map_iff] at start
  obtain ⟨names, start, rfl⟩ := start
  exact ⟨⟨names⟩, Path.isUnder_iff.mpr start, rfl⟩

theorem eq_child_of_place {name : String} (same : store.place p = store.place q ++ [name]) :
    ∃ a, p = q.child a := by
  rcases p.eq_root_or_child with rfl | ⟨r, a, rfl⟩
  · have length := congrArg List.length same
    simp only [place, List.length_append, List.length_map, List.length_singleton,
      Path.names_root, List.length_nil] at length
    omega
  · rw [place_child] at same
    rw [place_inj.mp (List.append_inj' same rfl).1]
    exact ⟨a, rfl⟩

def Reaches (store : MountedStore) (p : Path) : Prop := Direct (store.place p)

theorem Reaches.of_isUnder (reaches : store.Reaches p) (under : p.isUnder q = true) :
    store.Reaches q := Direct.of_prefix reaches (place_prefix_iff.mpr under)

/-! ## The same files and directories -/

/-- At every path there is the same in the directory of the host as in memory, and there is nothing
else in the directory. -/
structure Mirrors (store : MountedStore) (fs : HostFiles) (m : MemoryStore) : Prop where
  host : fs.WellFormed
  memory : m.WellFormed
  root : store.Reaches .root
  named : ∀ x e, fs.entry? x = some e → store.root <+: x → ∃ p, store.Reaches p ∧ x = store.place p
  same : ∀ p, fs.entry? (store.place p) = m.entryAt p

namespace Mirrors

theorem congr {m' : MemoryStore} (mirrors : store.Mirrors fs m) (wf : m'.WellFormed)
    (same : ∀ q, m'.entryAt q = m.entryAt q) : store.Mirrors fs m' :=
  ⟨mirrors.host, wf, mirrors.root, mirrors.named, fun p => (mirrors.same p).trans (same p).symm⟩

theorem entry?_root (mirrors : store.Mirrors fs m) : fs.entry? store.root = some .directory := by
  rw [← place_root, mirrors.same, m.entryAt_root]

/-! ## Data -/

theorem file_eq (mirrors : store.Mirrors fs m) (reaches : store.Reaches p) :
    store.file fs p = (m.file p).map fun d => (store.place p, d) := by
  have stat (spot : Spot) (e : HostEntry) :
      fs.stat (store.place p) = .ok (spot, e) ↔ spot = store.place p ∧ m.entryAt p = some e := by
    rw [HostFiles.stat_eq_ok mirrors.host reaches, mirrors.same]
  unfold file MemoryStore.file
  cases there : m.files.get? p with
  | some d =>
    rw [(stat _ _).mpr ⟨rfl, mirrors.memory.entryAt_eq_file.mpr there⟩]
    rfl
  | none =>
    split
    next spot d found =>
      have file := mirrors.memory.entryAt_eq_file.mp ((stat _ _).mp found).2
      rw [there] at file
      cases file
    next => rfl

theorem size_eq (mirrors : store.Mirrors fs m) (reaches : store.Reaches p) :
    store.size fs p = m.size p := by
  rw [size, mirrors.file_eq reaches, MemoryStore.size]
  cases m.file p <;> rfl

theorem read_eq (mirrors : store.Mirrors fs m) (reaches : store.Reaches p)
    (offset length : UInt64) : store.read fs p offset length = m.read p offset length := by
  rw [read, mirrors.file_eq reaches, MemoryStore.read]
  cases m.file p <;> rfl

theorem overwrite (mirrors : store.Mirrors fs m) (reaches : store.Reaches p)
    (there : m.files.contains p = true) (d : Bytes) :
    store.Mirrors (fs.put (store.place p) (.file d)) (m.putFile p d) := by
  obtain ⟨old, file⟩ := PathMap.contains_iff.mp there
  have free := mirrors.memory.apart p there
  have entry : fs.entry? (store.place p) = some (.file old) := by
    rw [mirrors.same, mirrors.memory.entryAt_eq_file, file]
  have below : store.place p ≠ [] := by
    intro top
    rw [top, HostFiles.entry?_top] at entry
    cases entry
  refine ⟨mirrors.host.put below (mirrors.host.directory_dropLast entry) ?_,
    mirrors.memory.overwrite there d, mirrors.root, fun x e there start => ?_, fun q => ?_⟩
  · rw [entry]
    intro directory
    cases directory
  · rw [HostFiles.entry?_put fs below] at there
    split at there
    next here => exact ⟨p, reaches, here⟩
    next => exact mirrors.named x e there start
  · rw [HostFiles.entry?_put fs below, MemoryStore.entryAt_overwrite free, mirrors.same]
    simp only [place_inj]

/-- Writing nothing into a file in memory leaves it alone, unless it ends before the position. -/
theorem overwrite_nothing (mirrors : store.Mirrors fs m) (held : m.files.get? p = some d)
    (start : Nat) : store.Mirrors fs (m.putFile p (d.overwrite start [])) ↔ start ≤ d.length := by
  have contained := PathMap.contains_iff.mpr ⟨d, held⟩
  have free := mirrors.memory.apart p contained
  have there := mirrors.memory.entryAt_eq_file.mpr held
  constructor
  · intro after
    have same := after.same p
    rw [mirrors.same, there, MemoryStore.entryAt_overwrite free, if_pos rfl, Option.some_inj,
      HostEntry.file.injEq] at same
    have length := congrArg List.length same
    rw [MemoryStore.length_overwrite, List.length_nil] at length
    omega
  · intro within
    have kept : d.overwrite start [] = d := by
      simp [Bytes.overwrite, Nat.sub_eq_zero_of_le within]
    rw [kept]
    refine mirrors.congr (mirrors.memory.overwrite contained d) fun q => ?_
    rw [MemoryStore.entryAt_overwrite free]
    split
    next here => rw [here, there]
    next => rfl

/-- A write fails on both or is done on both. If it writes nothing, the host leaves alone a file
that ends before the position. -/
theorem write (mirrors : store.Mirrors fs m) (reaches : store.Reaches p) {offset : UInt64}
    {w : Bytes} (bound : offset.toNat + w.length < UInt64.size / 2) :
    (m.files.get? p = none ∧
      ∃ e, store.write fs p offset w = .error e ∧ m.write p offset w = .error e) ∨
    ∃ d fs' m', m.files.get? p = some d ∧ store.write fs p offset w = .ok fs' ∧
      m.write p offset w = .ok m' ∧
      (store.Mirrors fs' m' ↔ ¬ (w = [] ∧ d.length < offset.toNat)) := by
  cases held : m.files.get? p with
  | none =>
    have missing : m.file p = .error (.notFound p) := by rw [MemoryStore.file, held]
    refine .inl ⟨rfl, .notFound p, ?_, ?_⟩
    · rw [MountedStore.write, mirrors.file_eq reaches, missing]
      rfl
    · rw [MemoryStore.write, missing]
      rfl
  | some d =>
    have there := MemoryStore.file_eq_ok.mpr held
    have contained := PathMap.contains_iff.mpr ⟨d, held⟩
    have memory : m.write p offset w = .ok (m.putFile p (d.overwrite offset.toNat w)) := by
      rw [MemoryStore.write, there]
      simp only [Except.bind]
      rw [if_pos (by omega)]
    by_cases nothing : w = []
    · subst nothing
      refine .inr ⟨d, fs, _, rfl, ?_, memory, ?_⟩
      · rw [MountedStore.write, mirrors.file_eq reaches, there]
        simp only [Except.map, Except.bind, if_true]
        rw [if_neg (by simp at bound; omega)]
      · rw [mirrors.overwrite_nothing held]
        simp
    · refine .inr ⟨d, fs.put (store.place p) (.file (d.overwrite offset.toNat w)), _, rfl, ?_,
        memory, ?_⟩
      · rw [MountedStore.write, mirrors.file_eq reaches, there]
        simp only [Except.map, Except.bind, nothing, if_false]
        rw [if_neg (by omega)]
      · simp only [nothing, false_and, not_false_eq_true, iff_true]
        exact mirrors.overwrite reaches contained _

/-! ## Making files -/

theorem makeDirectories_closed {parent : Path} {a : Name} (mirrors : store.Mirrors fs m)
    (reaches : store.Reaches parent) (closed : m.makeParents (parent.child a) = none) :
    ∃ fault, fs.makeDirectories (store.place parent) = (.error fault, fs) := by
  rw [MemoryStore.makeParents_eq_none, MemoryStore.Open] at closed
  push Not at closed
  obtain ⟨q, above, there⟩ := closed
  obtain ⟨d, file⟩ := PathMap.contains_iff.mp (by simpa using there)
  refine HostFiles.makeDirectories_of_file mirrors.host reaches
    (place_prefix_iff.mpr (Path.mem_ancestors_child.mp above)) (d := d) ?_
  rw [mirrors.same, mirrors.memory.entryAt_eq_file, file]

theorem makeDirectories_open {parent : Path} {a : Name} (mirrors : store.Mirrors fs m)
    (reaches : store.Reaches parent) (opened : m.Open (parent.child a)) :
    ∃ fs', fs.makeDirectories (store.place parent) = (.ok (), fs') ∧ fs'.WellFormed ∧
      ∀ x, fs'.entry? x =
        if x <+: store.place parent then some .directory else fs.entry? x := by
  refine HostFiles.makeDirectories_of_clear mirrors.host reaches fun x start d there => ?_
  rcases List.prefix_or_prefix_of_prefix start (root_prefix_place store parent) with above | below
  · rw [mirrors.host.entry?_of_directory mirrors.entry?_root, if_pos above] at there
    cases there
  · obtain ⟨q, under, rfl⟩ := eq_place_of_prefix below start
    rw [mirrors.same, mirrors.memory.entryAt_eq_file] at there
    have absent := opened q (Path.mem_ancestors_child.mpr under)
    rw [PathMap.contains, there] at absent
    cases absent

theorem place {parent : Path} {a : Name} {m' : MemoryStore} {fs' : HostFiles}
    (mirrors : store.Mirrors fs m) (reaches : store.Reaches (parent.child a))
    (free : m.isDirectory (parent.child a) = false)
    (made : m.makeParents (parent.child a) = some m') (host : fs'.WellFormed)
    (entry : ∀ x, fs'.entry? x =
      if x <+: store.place parent then some .directory else fs.entry? x)
    (above : fs'.entry? (store.place (parent.child a)).dropLast = some .directory)
    (here : fs'.entry? (store.place (parent.child a)) = m.entryAt (parent.child a)) (d : Bytes) :
    store.Mirrors (fs'.put (store.place (parent.child a)) (.file d))
      (m'.putFile (parent.child a) d) := by
  have below : store.place (parent.child a) ≠ [] := by simp [place_child]
  refine ⟨host.put below above ?_, mirrors.memory.place free made d, mirrors.root,
    fun x e there start => ?_, fun q => ?_⟩
  · rw [here, MemoryStore.entryAt_eq_directory, free]
    intro directory
    cases directory
  · rw [HostFiles.entry?_put fs' below, entry] at there
    split at there
    next last => exact ⟨_, reaches, last⟩
    next =>
      split at there
      next inside =>
        obtain ⟨q, under, rfl⟩ := eq_place_of_prefix start inside
        exact ⟨q, (reaches.of_isUnder (Path.isUnder_child parent a)).of_isUnder under, rfl⟩
      next => exact mirrors.named x e there start
  · rw [HostFiles.entry?_put fs' below, entry, MemoryStore.entryAt_place free made, mirrors.same]
    simp only [place_inj, place_prefix_iff, Path.mem_ancestors_child]

theorem makeDirectories {parent : Path} {a : Name} (mirrors : store.Mirrors fs m)
    (reaches : store.Reaches (parent.child a)) (free : m.isDirectory (parent.child a) = false) :
    (m.makeParents (parent.child a) = none ∧
      ∃ fault, fs.makeDirectories (store.place parent) = (.error fault, fs)) ∨
    ∃ m' fs', m.makeParents (parent.child a) = some m' ∧
      fs.makeDirectories (store.place parent) = (.ok (), fs') ∧ fs'.WellFormed ∧
      fs'.entry? (store.place (parent.child a)) = m.entryAt (parent.child a) ∧
      fs'.entry? (store.place (parent.child a)).dropLast = some .directory ∧
      ∀ d, store.Mirrors (fs'.put (store.place (parent.child a)) (.file d))
        (m'.putFile (parent.child a) d) := by
  have parentReaches := reaches.of_isUnder (Path.isUnder_child parent a)
  cases made : m.makeParents (parent.child a) with
  | none => exact .inl ⟨rfl, mirrors.makeDirectories_closed parentReaches made⟩
  | some m' =>
    obtain ⟨fs', done, host, entry⟩ :=
      mirrors.makeDirectories_open parentReaches (MemoryStore.open_of_makeParents made)
    have above : fs'.entry? (store.place (parent.child a)).dropLast = some .directory := by
      rw [place_child, List.dropLast_concat, entry, if_pos (List.prefix_refl _)]
    have here : fs'.entry? (store.place (parent.child a)) = m.entryAt (parent.child a) := by
      have apart : ¬ parent.isUnder (parent.child a) = true := fun under =>
        (Path.mem_ancestors.mp (Path.mem_ancestors_child.mpr under)).2 rfl
      rw [entry, if_neg (fun start => apart (place_prefix_iff.mp start)), mirrors.same]
    exact .inr ⟨m', fs', rfl, done, host, here, above,
      mirrors.place reaches free made host entry above here⟩

theorem create (mirrors : store.Mirrors fs m) (reaches : store.Reaches p) (below : p ≠ .root) :
    (store.create fs p).1 = .ok (m.create p).1 ∧
    store.Mirrors (store.create fs p).2 (m.create p).2 := by
  obtain ⟨parent, a, rfl⟩ := p.eq_root_or_child.resolve_left below
  unfold MountedStore.create MemoryStore.create
  rw [Path.parent?_child, HostFiles.stat_isOk mirrors.host reaches, mirrors.same,
    ← MemoryStore.isSome_entryAt]
  dsimp only
  cases there : m.entryAt (parent.child a) with
  | some e => exact ⟨rfl, mirrors⟩
  | none =>
    rcases mirrors.makeDirectories reaches (MemoryStore.entryAt_eq_none.mp there).1 with
      ⟨closed, fault, fails⟩ | ⟨m', fs', made, done, host, here, above, after⟩
    · simp [closed, fails, mirrors]
    · have created := HostFiles.createFile_fresh host reaches (here.trans there) above
      simp [made, done, created, after]

theorem receive (mirrors : store.Mirrors fs m) (reaches : store.Reaches p) (below : p ≠ .root)
    (d : Bytes) : (store.receive fs p d).1 = .ok (m.receive p d).1 ∧
      store.Mirrors (store.receive fs p d).2 (m.receive p d).2 := by
  obtain ⟨parent, a, rfl⟩ := p.eq_root_or_child.resolve_left below
  have directory : fs.isDirectory (store.place (parent.child a)) =
      m.isDirectory (parent.child a) := by
    rw [Bool.eq_iff_iff, HostFiles.isDirectory_iff mirrors.host reaches, mirrors.same,
      MemoryStore.entryAt_eq_directory]
  unfold MountedStore.receive MemoryStore.receive
  rw [Path.parent?_child, directory]
  dsimp only
  split
  next => exact ⟨rfl, mirrors⟩
  next free =>
    rcases mirrors.makeDirectories reaches (eq_false_of_ne_true free) with
      ⟨closed, fault, fails⟩ | ⟨m', fs', made, done, host, here, above, after⟩
    · simp [closed, fails, mirrors]
    · have vacant : fs'.entry? (store.place (parent.child a)) ≠ some .directory := by
        rw [here]
        exact fun there => free (MemoryStore.entryAt_eq_directory.mp there)
      simp [made, done, HostFiles.writeFile_eq host reaches vacant above d, after]

/-! ## Removing -/

theorem restrict {keep : Spot → Bool} {m' : MemoryStore} (mirrors : store.Mirrors fs m)
    (host : (fs.restrict keep).WellFormed) (memory : m'.WellFormed)
    (root : keep store.root = true)
    (same : ∀ q, m'.entryAt q = if keep (store.place q) then m.entryAt q else none) :
    store.Mirrors (fs.restrict keep) m' := by
  refine ⟨host, memory, mirrors.root, fun x e there start => ?_, fun q => ?_⟩
  · by_cases top : x = []
    · subst top
      exact mirrors.named [] _ (HostFiles.entry?_top fs) start
    · rw [HostFiles.entry?_restrict fs keep top] at there
      split at there
      next => exact mirrors.named x e there start
      next => cases there
  · by_cases top : store.place q = []
    · have here : store.root = [] := List.prefix_nil.mp (top ▸ root_prefix_place store q)
      rw [same, top, ← here, root, if_pos rfl, ← mirrors.same, top, here]
      rfl
    · rw [HostFiles.entry?_restrict fs keep top, same, mirrors.same]

theorem removeFile (mirrors : store.Mirrors fs m) (reaches : store.Reaches p)
    (there : m.entryAt p = some (.file d)) : ∃ fs', fs.removeFile (store.place p) = .ok fs' ∧
      (m.delete p).1 = true ∧ store.Mirrors fs' (m.delete p).2 := by
  obtain ⟨done, after⟩ := mirrors.memory.delete_of_file there
  have here := (mirrors.same p).trans there
  have below : p ≠ .root := by
    rintro rfl
    rw [m.entryAt_root] at there
    cases there
  refine ⟨_, HostFiles.removeFile_eq mirrors.host reaches here, done, ?_⟩
  refine mirrors.restrict (mirrors.host.remove fun x e old _ inside => ?_)
    (mirrors.memory.delete p) (by simpa using root_ne_place below) fun q => ?_
  · have directory := mirrors.host.directory_dropLast old
    rw [inside, here] at directory
    cases directory
  · rw [after]
    by_cases same : q = p <;> simp [same, place_inj]

theorem removeTree (mirrors : store.Mirrors fs m) (reaches : store.Reaches p) (below : p ≠ .root)
    (there : m.entryAt p = some .directory) :
    ∃ fs', fs.removeTree (store.place p) = (.ok (), fs') ∧
      (m.delete p).1 = true ∧ store.Mirrors fs' (m.delete p).2 := by
  obtain ⟨done, after⟩ := mirrors.memory.delete_of_directory below there
  refine ⟨_, HostFiles.removeTree_eq mirrors.host reaches (place_ne_nil below)
    ((mirrors.same p).trans there), done, ?_⟩
  refine mirrors.restrict (mirrors.host.removeTree _) (mirrors.memory.delete p) ?_ fun q => ?_
  · rw [Bool.not_eq_true', ← Bool.not_eq_true, List.isPrefixOf_iff_prefix]
    exact fun start => root_ne_place below
      (start.eq_of_length_le (root_prefix_place store p).length_le).symm
  · have inside : (store.place p).isPrefixOf (store.place q) = q.isUnder p := by
      rw [Bool.eq_iff_iff, List.isPrefixOf_iff_prefix, place_prefix_iff]
    rw [after, inside]
    cases q.isUnder p <;> simp

theorem delete (mirrors : store.Mirrors fs m) (reaches : store.Reaches p) (below : p ≠ .root) :
    (store.delete fs p).1 = .ok (m.delete p).1 ∧
    store.Mirrors (store.delete fs p).2 (m.delete p).2 := by
  unfold MountedStore.delete
  rw [if_neg (by simpa using below)]
  cases there : m.entryAt p with
  | none =>
    rw [MemoryStore.delete_of_none there]
    have missing := HostFiles.stat_isOk mirrors.host reaches
    rw [mirrors.same, there] at missing
    cases found : fs.stat (store.place p) with
    | error fault => exact ⟨rfl, mirrors⟩
    | ok entry =>
      rw [found] at missing
      cases missing
  | some e =>
    rw [(HostFiles.stat_eq_ok mirrors.host reaches).mpr ⟨rfl, (mirrors.same p).trans there⟩]
    cases e with
    | file d =>
      obtain ⟨fs', removed, done, after⟩ := mirrors.removeFile reaches there
      simp only [removed, done]
      exact ⟨trivial, after⟩
    | directory =>
      obtain ⟨fs', removed, done, after⟩ := mirrors.removeTree reaches below there
      simp only [removed, done]
      exact ⟨trivial, after⟩

end Mirrors

end MountedStore

end DistFs
