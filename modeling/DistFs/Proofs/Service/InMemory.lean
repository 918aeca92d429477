import DistFs.Proofs.Service.Backends
import DistFs.Proofs.Storage.Ranges

namespace DistFs

inductive MemoryCall where
  | put (p : Path) (d : Bytes)
  | storage (call : StorageCall)

namespace Servers

variable {s s' : Servers} {name : String} {m m' : MemoryStore} {p : Path} {d w : Bytes}
  {offset : UInt64}

def performMemory (s : Servers) (name : String) : MemoryCall → Except Error Reply × Servers
  | .put p d => ((s.putOn name p d).1.map fun _ => .unit, (s.putOn name p d).2)
  | .storage call => s.perform name call

def afterMemory (s : Servers) (name : String) (calls : List MemoryCall) : Servers :=
  calls.foldl (fun s call => (s.performMemory name call).2) s

inductive Refusal : Except Error Reply → Prop
  | error (e : Error) : Refusal (.error e)
  | no : Refusal (.ok (.flag false))

/-! ## One call -/

structure Answered (s : Servers) (name : String) (m : MemoryStore)
    (answer : Except Error Reply × Servers) (m' : MemoryStore) : Prop where
  renewed : Renewed s answer.2 name m'
  built : m.Built → m'.Built
  refused : Refusal answer.1 → m' = m

theorem Answered.idle (runs : s.Runs name m) (result : Except Error Reply) :
    Answered s name m (result, s) m :=
  ⟨.refl runs, id, fun _ => rfl⟩

theorem Answered.kept (runs : s.Runs name m) {result : Bool × MemoryStore}
    (built : m.Built → result.2.Built) (refused : result.1 = false → result.2 = m) :
    Answered s name m (flagged (s.keepMemory name { backend := .memory m } result)) result.2 := by
  refine ⟨runs.set result.2, built, fun refusal => refused ?_⟩
  obtain ⟨done, m'⟩ := result
  cases done with
  | false => rfl
  | true => cases refusal

theorem Runs.put (runs : s.Runs name m) (p : Path) (d : Bytes) :
    ∃ m', Answered s name m (s.performMemory name (.put p d)) m' := by
  unfold performMemory putOn
  rw [show s.find? name = _ from runs]
  dsimp only
  cases done : m.put p d with
  | error e => exact ⟨m, .idle runs _⟩
  | ok m' => exact ⟨m', runs.set m', fun built => built.put done, nofun⟩

theorem Runs.dataOf (runs : s.Runs name m) : s.dataOf name = .ok { backend := .memory m } := by
  rw [Servers.dataOf, show s.find? name = _ from runs]
  rfl

theorem Runs.read (runs : s.Runs name m) (p : Path) (offset length : UInt64) :
    s.perform name (.read p offset length) = ((m.read p offset length).map .data, s) := by
  simp [perform, serveData, readOn, runs.dataOf, Bind.bind, Except.bind]

theorem Runs.write_ok (runs : s.Runs name m) (done : m.write p offset w = .ok m') :
    s.perform name (.write p offset w) = (.ok .unit, s.set name { backend := .memory m' }) := by
  simp [perform, serveData, writeOn, runs.dataOf, done, Bind.bind, Except.bind, pure, Except.pure]

theorem Runs.write_error {e : Error} (runs : s.Runs name m)
    (failed : m.write p offset w = .error e) :
    s.perform name (.write p offset w) = (.error e, s) := by
  simp [perform, serveData, writeOn, runs.dataOf, failed, Bind.bind, Except.bind]

theorem Runs.write (runs : s.Runs name m) (p : Path) (offset : UInt64) (w : Bytes) :
    ∃ m', Answered s name m (s.perform name (.write p offset w)) m' := by
  cases done : m.write p offset w with
  | error e =>
    rw [runs.write_error done]
    exact ⟨m, .idle runs _⟩
  | ok m' =>
    rw [runs.write_ok done]
    exact ⟨m', runs.set m', fun built => built.write done, nofun⟩

theorem Runs.create (runs : s.Runs name m) (p : Path) :
    Answered s name m (s.perform name (.create p)) (m.create p).2 := by
  have answer : s.createOn name p =
      s.keepMemory name { backend := .memory m } (m.create p) := by
    simp [createOn, command, show s.find? name = _ from runs]
  rw [perform, answer]
  exact .kept runs (fun built => built.create p) MemoryStore.create_refused

theorem Runs.delete (runs : s.Runs name m) (p : Path) :
    Answered s name m (s.perform name (.delete p)) (m.delete p).2 := by
  have answer : s.deleteOn name p =
      s.keepMemory name { backend := .memory m } (m.delete p) := by
    simp [Servers.deleteOn, command, show s.find? name = _ from runs]
  rw [perform, answer]
  exact .kept runs (fun built => built.delete p) MemoryStore.delete_refused

/-- Whatever the source of a copy answers, nothing changes but by what it has for the path. -/
theorem Runs.copy (runs : s.Runs name m) (p : Path) (source : Request → Except Error Reply) :
    ∃ m', Answered s name m (s.perform name (.copy p source)) m' := by
  simp only [perform, copyOn_eq, command, show s.find? name = _ from runs, refusesCopy,
    Bool.false_eq_true, if_false]
  cases fetched p source with
  | error e => exact ⟨m, .idle runs _⟩
  | ok d =>
    have answer : s.receiveOn name p d =
        s.keepMemory name { backend := .memory m } (m.receive p d) := by
      simp [receiveOn, show s.find? name = _ from runs]
    dsimp only
    rw [answer]
    exact ⟨_, .kept runs (fun built => built.receive p d) MemoryStore.receive_refused⟩

theorem Runs.prune (runs : s.Runs name m) :
    (s.perform name .prune).1 = .ok .unit ∧ Answered s name m (s.perform name .prune) m.prune := by
  obtain ⟨s', answer, renewed⟩ := runs.pruneOn
  rw [perform, answer]
  exact ⟨rfl, renewed, fun built => built.prune, fun refusal => by cases refusal⟩

theorem Runs.answered (runs : s.Runs name m) (call : MemoryCall) :
    ∃ m', Answered s name m (s.performMemory name call) m' := by
  cases call with
  | put p d => exact runs.put p d
  | storage call =>
    cases call with
    | size p => exact ⟨m, .idle runs _⟩
    | read p offset length => exact ⟨m, .idle runs _⟩
    | write p offset w => exact runs.write p offset w
    | create p => exact ⟨_, runs.create p⟩
    | delete p => exact ⟨_, runs.delete p⟩
    | copy p source => exact runs.copy p source
    | listFiles => exact ⟨m, .idle runs _⟩
    | prune => exact ⟨_, runs.prune.2⟩

/-! ## Any calls -/

theorem Runs.afterMemory (runs : s.Runs name m) (built : m.Built) (calls : List MemoryCall) :
    ∃ m', (s.afterMemory name calls).Runs name m' ∧ m'.Built := by
  induction calls generalizing s m with
  | nil => exact ⟨m, runs, built⟩
  | cons call calls ih =>
    obtain ⟨m', answered⟩ := runs.answered call
    exact ih answered.renewed.runs (answered.built built)

/-- What a server has in memory is a file system after any calls. No call that is refused changes
it, and pruning leaves all files and just the directories above them. -/
theorem memory_wellFormed_after (runs : s.Runs name {}) (calls : List MemoryCall) :
    let s' := s.afterMemory name calls
    ∃ m, s'.Runs name m ∧
      (∀ p, ¬ (m.files.contains p = true ∧ m.directories.contains p = true)) ∧
      m.files.contains .root = false ∧ m.directories.contains .root = false ∧
      (∀ p, m.files.contains p = true ∨ m.directories.contains p = true →
        ∀ q ∈ p.ancestors, q ≠ .root → m.directories.contains q = true) ∧
      (∀ p q, m.files.contains p = true ∨ m.directories.contains p = true →
        m.files.contains q = true → p.isUnder q = true → p = q) ∧
      (∀ call, ∃ m', Renewed s' (s'.performMemory name call).2 name m' ∧
        (Refusal (s'.performMemory name call).1 → m' = m)) ∧
      ∃ m', (s'.perform name .prune).1 = .ok .unit ∧
        Renewed s' (s'.perform name .prune).2 name m' ∧ m'.files = m.files ∧
        ∀ q, m'.directories.contains q = true ↔
          m.directories.contains q = true ∧ ∃ p, m.files.contains p = true ∧ q ∈ p.ancestors := by
  intro s'
  obtain ⟨m, runs', built⟩ := runs.afterMemory .empty calls
  have wf := built.wellFormed
  refine ⟨m, runs', fun p both => ?_, ?_, wf.unlisted, fun p there q => wf.listed_above there,
    fun p q => wf.eq_of_under_file, fun call => ?_, ?_⟩
  · exact wf.not_directory_of_file both.1 (MemoryStore.isDirectory_iff.mpr (.inr both.2))
  · rw [← Bool.not_eq_true]
    exact fun file => wf.not_directory_of_file file (MemoryStore.isDirectory_iff.mpr (.inl rfl))
  · obtain ⟨m', answered⟩ := runs'.answered call
    exact ⟨m', answered.renewed, answered.refused⟩
  · obtain ⟨answer, answered⟩ := runs'.prune
    exact ⟨m.prune, answer, answered.renewed, rfl, wf.contains_prune_iff_listed⟩

theorem emptied_directory_pruned :
    let s' := emptyInMemory.afterMemory "a" [.storage (.create .inner), .storage (.delete .inner)]
    ∃ m m', s'.Runs "a" m ∧ (s'.perform "a" .prune).2.Runs "a" m' ∧
      m.directories.contains .sole = true ∧ m'.directories.contains .sole = false := by
  intro s'
  have start : emptyInMemory.Runs "a" {} := rfl
  obtain ⟨m, runs, -, -, -, -, -, -, m', -, pruned, -, directories⟩ :=
    memory_wellFormed_after start [.storage (.create .inner), .storage (.delete .inner)]
  have held : s'.memory? "a" = some m := runs.memory?
  have kept : (s'.memory? "a").any (fun m => m.directories.contains .sole) = true := by
    decide +kernel
  have bare : (s'.memory? "a").any (fun m => m.files.keys = []) = true := by decide +kernel
  rw [held] at kept bare
  refine ⟨m, m', runs, pruned.runs, kept, ?_⟩
  rw [← Bool.not_eq_true, directories]
  rintro ⟨-, p, there, -⟩
  have listed := PathMap.mem_keys_iff_contains.mpr there
  rw [of_decide_eq_true bare] at listed
  cases listed

/-! ## Ranges of bytes -/

/-- A file is written wherever the end of what is written can be given as an offset, and read
wherever there are as many bytes as asked for. Whatever else is asked for is out of bounds, and
changes nothing. -/
theorem ranges_served (runs : s.Runs name m) (there : m.files.get? p = some d)
    (short : d.length < UInt64.size) :
    (∀ (offset : UInt64) (w : Bytes), offset.toNat + w.length < UInt64.size →
      ∃ s' m' d', s.perform name (.write p offset w) = (.ok .unit, s') ∧ Renewed s s' name m' ∧
        m'.directories = m.directories ∧
        (∀ q, m'.files.get? q = if q = p then some d' else m.files.get? q) ∧
        d'.length = max d.length (offset.toNat + w.length) ∧
        (∀ i, d'[i]? =
          if offset.toNat ≤ i ∧ i < offset.toNat + w.length then w[i - offset.toNat]?
          else if i < d.length then d[i]? else if i < offset.toNat then some 0 else none) ∧
        w.size.toNat = w.length ∧
        s'.perform name (.read p offset w.size) = (.ok (.data w), s')) ∧
    (∀ (offset : UInt64) (w : Bytes), UInt64.size ≤ offset.toNat + w.length →
      s.perform name (.write p offset w) = (.error (.outOfBounds p offset w.size d.size), s)) ∧
    (∀ offset length : UInt64, offset.toNat + length.toNat ≤ d.length →
      ∃ r : Bytes, s.perform name (.read p offset length) = (.ok (.data r), s) ∧
        r.length = length.toNat ∧ ∀ i < length.toNat, r[i]? = d[offset.toNat + i]?) ∧
    (∀ offset length : UInt64, d.length < offset.toNat + length.toNat →
      s.perform name (.read p offset length) =
        (.error (.outOfBounds p offset length d.size), s)) ∧
    d.size.toNat = d.length ∧ ∀ w : Bytes, w.length < UInt64.size → w.size.toNat = w.length := by
  refine ⟨fun offset w fits => ?_, fun offset w past => ?_, fun offset length within => ?_,
    fun offset length beyond => ?_, Bytes.toNat_size short, fun w => Bytes.toNat_size⟩
  · have done := MemoryStore.write_of_held there offset w
    rw [if_pos fits] at done
    have renewed := runs.set (m.putFile p (d.overwrite offset.toNat w))
    have contents (q : Path) : (m.putFile p (d.overwrite offset.toNat w)).files.get? q =
        if q = p then some (d.overwrite offset.toNat w) else m.files.get? q :=
      PathMap.get?_insert ..
    refine ⟨_, _, _, runs.write_ok done, renewed, rfl, contents,
      MemoryStore.length_overwrite .., Bytes.getElem?_overwrite _ _ _,
      Bytes.toNat_size (by omega), ?_⟩
    rw [renewed.runs.read, MemoryStore.read_of_held ((contents p).trans (if_pos rfl)),
      Bytes.slice_overwrite fits]
    rfl
  · have failed := MemoryStore.write_of_held there offset w
    rw [if_neg (Nat.not_lt.mpr past)] at failed
    exact runs.write_error failed
  · refine ⟨(d.drop offset.toNat).take length.toNat, ?_, ?_, fun i => Bytes.getElem?_slice⟩
    · rw [runs.read, MemoryStore.read_of_held there, Bytes.slice_within short within]
      rfl
    · rw [List.length_take, List.length_drop]
      omega
  · rw [runs.read, MemoryStore.read_of_held there, Bytes.slice_beyond beyond]
    rfl

def threeBytes : Servers :=
  { servers := [("a", { backend := .memory (MemoryStore.putFile {} .sole [1, 2, 3]) })] }

theorem threeBytes_served :
    (∃ s', threeBytes.perform "a" (.write .sole 5 [7]) = (.ok .unit, s') ∧
      s'.content "a" .sole = some [1, 2, 3, 0, 0, 7] ∧
      s'.perform "a" (.read .sole 5 1) = (.ok (.data [7]), s')) ∧
    threeBytes.perform "a" (.write .sole 0xffffffffffffffff [7]) =
      (.error (.outOfBounds .sole 0xffffffffffffffff 1 3), threeBytes) ∧
    threeBytes.perform "a" (.read .sole 0xffffffffffffffff 2) =
      (.error (.outOfBounds .sole 0xffffffffffffffff 2 3), threeBytes) := by
  have runs : threeBytes.Runs "a" (MemoryStore.putFile {} .sole [1, 2, 3]) := rfl
  obtain ⟨written, past, -, beyond, -, -⟩ := ranges_served runs (p := .sole) rfl (by decide)
  refine ⟨?_, past _ [7] (by decide), beyond _ 2 (by decide)⟩
  obtain ⟨s', -, -, done, -, -, -, -, -, -, again⟩ := written 5 [7] (by decide)
  obtain rfl := congrArg Prod.snd done
  have known : (threeBytes.perform "a" (.write .sole 5 [7])).2.content "a" .sole =
      some [1, 2, 3, 0, 0, 7] := by decide +kernel
  exact ⟨_, done, known, again⟩

end Servers

end DistFs
