import DistFs.HostFiles
import DistFs.Proofs.Storage.Shape

namespace DistFs

namespace MemoryStore

variable {m m' : MemoryStore} {p q : Path} {d : Bytes}

def entryAt (m : MemoryStore) (p : Path) : Option HostEntry :=
  if m.isDirectory p then some .directory else (m.files.get? p).map .file

theorem entryAt_eq_directory : m.entryAt p = some .directory ↔ m.isDirectory p = true := by
  unfold entryAt
  split
  next there => simp [there]
  next other => simp [other]

theorem WellFormed.get?_of_directory (wf : m.WellFormed) (there : m.isDirectory p = true) :
    m.files.get? p = none := by
  by_contra file
  obtain ⟨d, file⟩ := Option.ne_none_iff_exists'.mp file
  exact wf.not_directory_of_file (PathMap.contains_iff.mpr ⟨d, file⟩) there

theorem WellFormed.entryAt_eq_file (wf : m.WellFormed) :
    m.entryAt p = some (.file d) ↔ m.files.get? p = some d := by
  unfold entryAt
  split
  next there => simp [wf.get?_of_directory there]
  next => simp

theorem entryAt_eq_none : m.entryAt p = none ↔ m.isDirectory p = false ∧ m.files.get? p = none := by
  unfold entryAt
  split
  next there => simp [there]
  next other => simp [other]

theorem isSome_entryAt (m : MemoryStore) (p : Path) :
    (m.entryAt p).isSome = (m.isDirectory p || m.files.contains p) := by
  unfold entryAt
  split
  next there => simp [there]
  next other => simp [other, PathMap.contains]

theorem entryAt_root (m : MemoryStore) : m.entryAt .root = some .directory :=
  entryAt_eq_directory.mpr (isDirectory_iff.mpr (.inl rfl))

theorem WellFormed.entryAt_above (wf : m.WellFormed) {e : HostEntry} (there : m.entryAt p = some e)
    (above : q ∈ p.ancestors) : m.entryAt q = some .directory := by
  rw [entryAt_eq_directory]
  cases e with
  | file d =>
    exact wf.above_file p (PathMap.contains_iff.mpr ⟨d, wf.entryAt_eq_file.mp there⟩) q above
  | directory =>
    rcases isDirectory_iff.mp (entryAt_eq_directory.mp there) with rfl | listed
    · cases above
    · exact wf.above_directory p listed q above

theorem entryAt_place (free : m.isDirectory p = false) (made : m.makeParents p = some m')
    (d : Bytes) (q : Path) : (m'.putFile p d).entryAt q =
      if q = p then some (.file d) else
        if q ∈ p.ancestors then some .directory else m.entryAt q := by
  have directory : (m'.putFile p d).isDirectory q = true ↔
      m.isDirectory q = true ∨ q ∈ p.ancestors := isDirectory_makeParents made q
  have file : (m'.putFile p d).files.get? q = if q = p then some d else m.files.get? q := by
    simp [putFile, files_makeParents made]
  have apart : p ∉ p.ancestors := fun self => (Path.mem_ancestors.mp self).2 rfl
  rw [entryAt, file]
  by_cases same : q = p
  · subst same
    simp [directory, free, apart]
  · by_cases above : q ∈ p.ancestors <;> simp [directory, same, above, entryAt]

theorem entryAt_overwrite (free : m.isDirectory p = false) (d : Bytes) (q : Path) :
    (m.putFile p d).entryAt q = if q = p then some (.file d) else m.entryAt q := by
  have directory : (m.putFile p d).isDirectory q = m.isDirectory q := rfl
  rw [entryAt, directory, putFile, PathMap.get?_insert]
  by_cases same : q = p
  · simp [same, free]
  · simp [same, entryAt]

theorem delete_of_none (there : m.entryAt p = none) : m.delete p = (false, m) := by
  obtain ⟨free, absent⟩ := entryAt_eq_none.mp there
  have file : m.files.contains p = false := by rw [PathMap.contains, absent, Option.isSome]
  rw [isDirectory, Bool.or_eq_false_iff] at free
  simp [delete, free, file]

theorem WellFormed.delete_of_file (wf : m.WellFormed) (there : m.entryAt p = some (.file d)) :
    (m.delete p).1 = true ∧
    ∀ q, (m.delete p).2.entryAt q = if q = p then none else m.entryAt q := by
  have file := PathMap.contains_iff.mpr ⟨d, wf.entryAt_eq_file.mp there⟩
  have free := wf.apart p file
  have below : p.isRoot = false := (Bool.or_eq_false_iff.mp free).1
  have deleted : m.delete p = (true, { m with files := m.files.erase p }) := by
    simp [MemoryStore.delete, below, file]
  rw [deleted]
  refine ⟨rfl, fun q => ?_⟩
  have directory : ({ m with files := m.files.erase p } : MemoryStore).isDirectory q =
    m.isDirectory q := rfl
  rw [entryAt, directory, PathMap.get?_erase]
  by_cases same : q = p
  · simp [same, free]
  · simp [same, entryAt]

theorem WellFormed.delete_of_directory (wf : m.WellFormed) (below : p ≠ .root)
    (there : m.entryAt p = some .directory) :
    (m.delete p).1 = true ∧
    ∀ q, (m.delete p).2.entryAt q = if q.isUnder p then none else m.entryAt q := by
  have directory := entryAt_eq_directory.mp there
  have noFile : m.files.contains p = false := by
    rw [PathMap.contains, wf.get?_of_directory directory, Option.isSome]
  have deleted : m.delete p = (true,
      { files := m.files.filter fun q => !q.isUnder p
        directories := m.directories.filter fun q => !q.isUnder p }) := by
    have listed := (isDirectory_iff.mp directory).resolve_left below
    simp [MemoryStore.delete, below, noFile, listed]
  rw [deleted]
  refine ⟨rfl, fun q => ?_⟩
  by_cases under : q.isUnder p = true
  · have lower : q ≠ .root := by
      rintro rfl
      exact below (Path.isUnder_antisymm (Path.isUnder_root p) under)
    rw [if_pos under, entryAt_eq_none, ← Bool.not_eq_true, isDirectory_iff]
    simp [under, lower]
  · rw [if_neg under, entryAt, entryAt, isDirectory, PathMap.get?_filter, isDirectory,
      PathMap.contains, PathMap.get?_filter]
    simp [under, PathMap.contains]

theorem WellFormed.entryAt_delete (wf : m.WellFormed) (below : p ≠ .root) (q : Path) :
    (m.delete p).2.entryAt q = if q.isUnder p then none else m.entryAt q := by
  -- Only below a directory there can be anything.
  have bare (other : m.entryAt p ≠ some .directory) (under : q.isUnder p = true) (apart : q ≠ p) :
      m.entryAt q = none := by
    by_contra there
    obtain ⟨e, there⟩ := Option.ne_none_iff_exists'.mp there
    exact other (wf.entryAt_above there (Path.mem_ancestors.mpr ⟨under, apart.symm⟩))
  cases there : m.entryAt p with
  | none =>
    rw [delete_of_none there]
    split
    next under =>
      by_cases same : q = p
      · rw [same, there]
      · exact bare (by simp [there]) under same
    next => rfl
  | some e =>
    cases e with
    | directory => exact (wf.delete_of_directory below there).2 q
    | file d =>
      rw [(wf.delete_of_file there).2 q]
      by_cases same : q = p
      · simp [same, Path.isUnder_refl]
      · rw [if_neg same]
        split
        next under => exact bare (by simp [there]) under same
        next => rfl

theorem create_refused (refused : (m.create p).1 = false) : (m.create p).2 = m := by
  unfold create at refused ⊢
  split
  · rfl
  next free =>
    rw [if_neg free] at refused
    cases made : m.makeParents p with
    | none => rfl
    | some m' =>
      rw [made] at refused
      cases refused

theorem receive_refused (refused : (m.receive p d).1 = false) : (m.receive p d).2 = m := by
  unfold receive at refused ⊢
  split
  · rfl
  next free =>
    rw [if_neg free] at refused
    cases made : m.makeParents p with
    | none => rfl
    | some m' =>
      rw [made] at refused
      cases refused

theorem delete_refused (refused : (m.delete p).1 = false) : (m.delete p).2 = m := by
  by_cases root : p.isRoot = true
  · rw [delete, if_pos root]
  by_cases file : m.files.contains p = true
  · rw [delete, if_neg root, if_pos file] at refused
    cases refused
  by_cases listed : m.directories.contains p = true
  · rw [delete, if_neg root, if_neg file, if_pos listed] at refused
    cases refused
  · rw [delete, if_neg root, if_neg file, if_neg listed]

theorem create_made (made : (m.create p).1 = true) :
    m.entryAt p = none ∧
    (∀ q ∈ p.ancestors, m.entryAt q = none ∨ m.entryAt q = some .directory) ∧
    ∀ q, (m.create p).2.entryAt q =
      if q = p then some (.file []) else
        if q ∈ p.ancestors then some .directory else m.entryAt q := by
  unfold create at made ⊢
  split at made
  · cases made
  next free =>
    rw [Bool.not_eq_true, Bool.or_eq_false_iff] at free
    split at made
    · cases made
    next m' parents =>
      rw [if_neg (by simp [free])]
      refine ⟨entryAt_eq_none.mpr ⟨free.1, ?_⟩, fun q above => ?_, entryAt_place free.1 parents []⟩
      · simpa [PathMap.contains] using free.2
      · have noFile := open_of_makeParents parents q above
        cases directory : m.isDirectory q with
        | true => exact .inr (entryAt_eq_directory.mpr directory)
        | false =>
          refine .inl (entryAt_eq_none.mpr ⟨directory, ?_⟩)
          simpa [PathMap.contains] using noFile

end MemoryStore

end DistFs
