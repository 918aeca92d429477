import DistFs.Proofs.Storage.Memory

namespace DistFs

namespace MemoryStore

variable {s s' : MemoryStore} {p q : Path} {d : Bytes}

structure WellFormed (s : MemoryStore) : Prop where
  above_file : ∀ p, s.files.contains p = true → ∀ q ∈ p.ancestors, s.isDirectory q = true
  above_directory : ∀ p, s.directories.contains p = true → ∀ q ∈ p.ancestors, s.isDirectory q = true
  apart : ∀ p, s.files.contains p = true → s.isDirectory p = false
  unlisted : s.directories.contains .root = false

inductive Built : MemoryStore → Prop
  | empty : Built {}
  | put {s s' : MemoryStore} {p : Path} {d : Bytes} (built : Built s) (done : s.put p d = .ok s') :
      Built s'
  | write {s s' : MemoryStore} {p : Path} {offset : UInt64} {w : Bytes} (built : Built s)
      (done : s.write p offset w = .ok s') : Built s'
  | create {s : MemoryStore} (built : Built s) (p : Path) : Built (s.create p).2
  | delete {s : MemoryStore} (built : Built s) (p : Path) : Built (s.delete p).2
  | receive {s : MemoryStore} (built : Built s) (p : Path) (d : Bytes) : Built (s.receive p d).2
  | prune {s : MemoryStore} (built : Built s) : Built s.prune

theorem isDirectory_iff : s.isDirectory p = true ↔ p = .root ∨ s.directories.contains p = true := by
  simp [isDirectory]

/-! ## Room for a file -/

def Open (s : MemoryStore) (p : Path) : Prop := ∀ q ∈ p.ancestors, s.files.contains q = false

theorem makeParents_eq_none : s.makeParents p = none ↔ ¬ s.Open p := by
  unfold makeParents Open
  split <;> simp_all

theorem contains_makeParents (made : s.makeParents p = some s') (q : Path) :
    s'.directories.contains q = true ↔
      s.directories.contains q = true ∨ q ∈ p.ancestors ∧ q ≠ .root := by
  have listed (l : List Path) (m : PathMap Unit) :
      (l.foldl (·.insert · ()) m).contains q = true ↔ m.contains q = true ∨ q ∈ l := by
    induction l generalizing m with
    | nil => simp
    | cons r l ih =>
      rw [List.foldl_cons, ih, PathMap.contains_insert, List.mem_cons]
      tauto
  unfold makeParents at made
  split at made
  · cases made
  · cases made
    simp [listed, ← Path.isRoot_iff]

theorem isDirectory_makeParents (made : s.makeParents p = some s') (q : Path) :
    s'.isDirectory q = true ↔ s.isDirectory q = true ∨ q ∈ p.ancestors := by
  rw [isDirectory_iff, isDirectory_iff, contains_makeParents made]
  tauto

theorem open_of_makeParents (made : s.makeParents p = some s') : s.Open p := by
  by_contra closed
  rw [makeParents_eq_none.mpr closed] at made
  cases made

theorem contains_prune (s : MemoryStore) (q : Path) :
    s.prune.directories.contains q = true ↔
      s.directories.contains q = true ∧ ∃ p, s.files.contains p = true ∧ p.isUnder q = true := by
  simp only [MemoryStore.prune, PathMap.contains_filter, List.any_eq_true,
    PathMap.mem_keys_iff_contains]
  exact and_comm

/-! ## What every operation keeps -/

namespace WellFormed

theorem empty : WellFormed {} := ⟨nofun, nofun, nofun, rfl⟩

theorem place (wf : s.WellFormed) (free : s.isDirectory p = false)
    (made : s.makeParents p = some s') (d : Bytes) : (s'.putFile p d).WellFormed := by
  have files (q : Path) : (s'.putFile p d).files.contains q = true ↔
      q = p ∨ s.files.contains q = true := by
    simp [putFile, files_makeParents made]
  have directories (q : Path) : (s'.putFile p d).isDirectory q = true ↔
      s.isDirectory q = true ∨ q ∈ p.ancestors := isDirectory_makeParents made q
  refine ⟨fun q file r above => ?_, fun q listed r above => ?_, fun q file => ?_, ?_⟩
  · rw [directories]
    rcases (files q).mp file with rfl | old
    · exact .inr above
    · exact .inl (wf.above_file q old r above)
  · rw [directories]
    rcases (contains_makeParents made q).mp listed with old | ⟨new, -⟩
    · exact .inl (wf.above_directory q old r above)
    · exact .inr (Path.mem_ancestors_trans above new)
  · rw [← Bool.not_eq_true, directories]
    rintro (directory | above)
    · rcases (files q).mp file with rfl | old
      · rw [free] at directory
        cases directory
      · rw [wf.apart q old] at directory
        cases directory
    · rcases (files q).mp file with rfl | old
      · exact (Path.mem_ancestors.mp above).2 rfl
      · rw [open_of_makeParents made q above] at old
        cases old
  · rw [← Bool.not_eq_true]
    intro listed
    rcases (contains_makeParents made .root).mp listed with old | ⟨-, other⟩
    · rw [wf.unlisted] at old
      cases old
    · exact other rfl

theorem restrict (wf : s.WellFormed)
    (files : ∀ q, s'.files.contains q = true → s.files.contains q = true)
    (directories : ∀ q, s'.directories.contains q = true → s.directories.contains q = true)
    (above : ∀ p, s'.files.contains p = true ∨ s'.directories.contains p = true →
      ∀ q ∈ p.ancestors, s.directories.contains q = true → s'.directories.contains q = true) :
    s'.WellFormed := by
  have stay {p q : Path} (kept : s'.files.contains p = true ∨ s'.directories.contains p = true)
      (member : q ∈ p.ancestors) (directory : s.isDirectory q = true) :
      s'.isDirectory q = true := by
    rw [isDirectory_iff] at directory ⊢
    exact directory.imp_right (above p kept q member)
  refine ⟨fun p file q member => ?_, fun p directory q member => ?_, fun p file => ?_, ?_⟩
  · exact stay (.inl file) member (wf.above_file p (files p file) q member)
  · exact stay (.inr directory) member (wf.above_directory p (directories p directory) q member)
  · have apart := wf.apart p (files p file)
    rw [← Bool.not_eq_true, isDirectory_iff] at apart ⊢
    exact fun directory => apart (directory.imp_right (directories p))
  · rw [← Bool.not_eq_true]
    exact fun listed => Bool.false_ne_true (wf.unlisted.symm.trans (directories .root listed))

theorem put (wf : s.WellFormed) (done : s.put p d = .ok s') : s'.WellFormed := by
  unfold MemoryStore.put at done
  split at done
  · cases done
  next free =>
    split at done
    · cases done
    next made =>
      cases done
      exact wf.place (eq_false_of_ne_true free) made d

theorem overwrite (wf : s.WellFormed) (there : s.files.contains p = true) (d : Bytes) :
    (s.putFile p d).WellFormed := by
  refine wf.restrict (fun q file => ?_) (fun _ => id) (fun _ _ _ _ => id)
  rcases (PathMap.contains_insert ..).mp file with rfl | old
  · exact there
  · exact old

theorem write {offset : UInt64} {w : Bytes} (wf : s.WellFormed)
    (done : s.write p offset w = .ok s') : s'.WellFormed := by
  obtain ⟨d, there, -, rfl⟩ := write_eq_ok done
  exact wf.overwrite (PathMap.contains_iff.mpr ⟨d, there⟩) _

theorem create (wf : s.WellFormed) (p : Path) : (s.create p).2.WellFormed := by
  unfold MemoryStore.create
  split
  · exact wf
  next free =>
    split
    · exact wf
    next made =>
      rw [Bool.not_eq_true, Bool.or_eq_false_iff] at free
      exact wf.place free.1 made []

theorem receive (wf : s.WellFormed) (p : Path) (d : Bytes) : (s.receive p d).2.WellFormed := by
  unfold MemoryStore.receive
  split
  · exact wf
  next free =>
    split
    · exact wf
    next made => exact wf.place (eq_false_of_ne_true free) made d

theorem erase (wf : s.WellFormed) (p : Path) :
    WellFormed { s with files := s.files.erase p } :=
  wf.restrict (fun _ file => ((PathMap.contains_erase ..).mp file).2) (fun _ => id)
    (fun _ _ _ _ => id)

theorem delete (wf : s.WellFormed) (p : Path) : (s.delete p).2.WellFormed := by
  unfold MemoryStore.delete
  split
  · exact wf
  · split
    · exact wf.erase p
    · split
      · refine wf.restrict (fun q file => ((PathMap.contains_filter ..).mp file).2)
          (fun q directory => ((PathMap.contains_filter ..).mp directory).2)
          fun q kept r above directory => (PathMap.contains_filter ..).mpr ⟨?_, directory⟩
        have outside : (!q.isUnder p) = true :=
          kept.elim (fun file => ((PathMap.contains_filter ..).mp file).1)
            fun directory => ((PathMap.contains_filter ..).mp directory).1
        rw [Bool.not_eq_true', ← Bool.not_eq_true] at outside ⊢
        exact fun under => outside (Path.isUnder_trans (Path.mem_ancestors.mp above).1 under)
      · exact wf

theorem prune (wf : s.WellFormed) : s.prune.WellFormed := by
  refine wf.restrict (fun _ => id) (fun q directory => ((contains_prune s q).mp directory).1)
    fun p kept q above directory => (contains_prune s q).mpr ⟨directory, ?_⟩
  have under := (Path.mem_ancestors.mp above).1
  rcases kept with file | directory
  · exact ⟨p, file, under⟩
  · obtain ⟨-, r, file, below⟩ := (contains_prune s p).mp directory
    exact ⟨r, file, Path.isUnder_trans below under⟩

/-! ## What is above and below -/

theorem ne_root_of_listed (wf : s.WellFormed) (listed : s.directories.contains p = true) :
    p ≠ .root := by
  rintro rfl
  exact Bool.false_ne_true (wf.unlisted.symm.trans listed)

theorem not_directory_of_file (wf : s.WellFormed) (file : s.files.contains p = true) :
    ¬ s.isDirectory p = true := by
  rw [wf.apart p file]
  exact Bool.false_ne_true

theorem directory_above (wf : s.WellFormed)
    (there : s.files.contains p = true ∨ s.directories.contains p = true)
    (above : q ∈ p.ancestors) : s.isDirectory q = true := by
  rcases there with file | directory
  · exact wf.above_file p file q above
  · exact wf.above_directory p directory q above

theorem listed_above (wf : s.WellFormed)
    (there : s.files.contains p = true ∨ s.directories.contains p = true)
    (above : q ∈ p.ancestors) (below : q ≠ .root) : s.directories.contains q = true :=
  (isDirectory_iff.mp (wf.directory_above there above)).resolve_left below

theorem eq_of_under_file (wf : s.WellFormed)
    (there : s.files.contains p = true ∨ s.directories.contains p = true)
    (file : s.files.contains q = true) (under : p.isUnder q = true) : p = q := by
  by_contra other
  have above : q ∈ p.ancestors := Path.mem_ancestors.mpr ⟨under, Ne.symm other⟩
  exact wf.not_directory_of_file file (wf.directory_above there above)

theorem contains_prune_iff_listed (wf : s.WellFormed) (q : Path) :
    s.prune.directories.contains q = true ↔
      s.directories.contains q = true ∧ ∃ p, s.files.contains p = true ∧ q ∈ p.ancestors := by
  rw [contains_prune]
  refine and_congr_right fun listed => exists_congr fun p => and_congr_right fun file => ?_
  refine ⟨fun under => Path.mem_ancestors.mpr ⟨under, fun same => ?_⟩,
    fun above => (Path.mem_ancestors.mp above).1⟩
  exact wf.not_directory_of_file file (isDirectory_iff.mpr (.inr (same ▸ listed)))

theorem contains_prune_iff (wf : s.WellFormed) (q : Path) :
    s.prune.directories.contains q = true ↔
      q ≠ .root ∧ ∃ p, s.files.contains p = true ∧ q ∈ p.ancestors := by
  rw [wf.contains_prune_iff_listed]
  refine and_congr_left fun ⟨p, file, above⟩ => ?_
  exact ⟨wf.ne_root_of_listed, wf.listed_above (.inl file) above⟩

end WellFormed

theorem Built.wellFormed (built : Built s) : s.WellFormed := by
  induction built with
  | empty => exact .empty
  | put _ done wf => exact wf.put done
  | write _ done wf => exact wf.write done
  | create _ p wf => exact wf.create p
  | delete _ p wf => exact wf.delete p
  | receive _ p d wf => exact wf.receive p d
  | prune _ wf => exact wf.prune

end MemoryStore

end DistFs
