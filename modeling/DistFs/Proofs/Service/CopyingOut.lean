import DistFs.Proofs.Service.InMemory
import DistFs.Proofs.Service.Requests
import DistFs.Proofs.Wire.Calls
import DistFs.Session

namespace DistFs

namespace Command

variable {size offset : UInt64} {h : Handle} {p : Path} {d : Bytes} {s : Servers}
  {asked : UInt64 × UInt64}

/-! ## What is asked for -/

def ranges (size offset : UInt64) : List (UInt64 × UInt64) :=
  if _h : offset < size then
    (offset, min chunkSize (size - offset)) ::
      ranges size (offset + min chunkSize (size - offset))
  else []
termination_by size.toNat - offset.toNat
decreasing_by
  have := step_toNat _h
  omega

def readEach (h : Handle) (p : Path) :
    List (UInt64 × UInt64) → Servers → Except Error (List Bytes) × Servers
  | [], s => (.ok [], s)
  | (offset, length) :: rest, s =>
    match s.read h p offset length with
    | (.error e, s) => (.error e, s)
    | (.ok chunk, s) =>
      match readEach h p rest s with
      | (.error e, s) => (.error e, s)
      | (.ok chunks, s) => (.ok (chunk :: chunks), s)

theorem readFrom_eq_readEach (h : Handle) (p : Path) (size offset : UInt64) (s : Servers) :
    readFrom h p size offset s = readEach h p (ranges size offset) s := by
  induction offset using ranges.induct size generalizing s with
  | case1 offset more ih =>
    rw [readFrom, ranges, dif_pos more, dif_pos more, readEach]
    dsimp only
    cases s.read h p offset (min chunkSize (size - offset)) with
    | mk answer s =>
      cases answer with
      | error e => rfl
      | ok chunk =>
        dsimp only
        exact ih s ▸ rfl
  | case2 offset done =>
    rw [readFrom, ranges, dif_neg done, dif_neg done, readEach]

structure InFile (size : UInt64) (asked : UInt64 × UInt64) : Prop where
  full : 0 < asked.2.toNat
  short : asked.2.toNat ≤ 65536
  exactly : (asked.1 + asked.2).toNat = asked.1.toNat + asked.2.toNat
  within : asked.1.toNat + asked.2.toNat ≤ size.toNat

theorem inFile_ranges (member : asked ∈ ranges size offset) : InFile size asked := by
  induction offset using ranges.induct size with
  | case1 offset more ih =>
    rw [ranges, dif_pos more] at member
    rcases List.mem_cons.mp member with rfl | later
    · obtain ⟨exactly, full, within⟩ := step_toNat more
      exact ⟨full, by rw [chunk_toNat more]; omega, exactly, within⟩
    · exact ih later
  | case2 offset done =>
    rw [ranges, dif_neg done] at member
    cases member

def piece (d : Bytes) (asked : UInt64 × UInt64) : Bytes :=
  (d.drop asked.1.toNat).take asked.2.toNat

theorem flatMap_piece (whole : size.toNat = d.length) (offset : UInt64) :
    (ranges size offset).flatMap (piece d) = d.drop offset.toNat := by
  induction offset using ranges.induct size with
  | case1 offset more ih =>
    obtain ⟨exactly, -, -⟩ := step_toNat more
    rw [ranges, dif_pos more, List.flatMap_cons, ih, exactly, ← List.drop_drop]
    exact List.take_append_drop ..
  | case2 offset done =>
    have past : d.length ≤ offset.toNat := by
      rw [← whole]
      exact UInt64.not_lt.mp done
    rw [ranges, dif_neg done, List.drop_eq_nil_of_le past]
    rfl

theorem length_ranges (size offset : UInt64) :
    (ranges size offset).length = (size.toNat - offset.toNat + 65535) / 65536 := by
  induction offset using ranges.induct size with
  | case1 offset more ih =>
    have before : offset.toNat < size.toNat := UInt64.lt_iff_toNat_lt.mp more
    rw [ranges, dif_pos more, List.length_cons, ih, (step_toNat more).1, chunk_toNat more]
    omega
  | case2 offset done =>
    have past : size.toNat ≤ offset.toNat := UInt64.not_lt.mp done
    rw [ranges, dif_neg done, List.length_nil]
    omega

end Command

namespace Servers

variable {s s' : Servers} {h : Handle} {p : Path} {d : Bytes} {name : String}

/-! ## Where the file is -/

def Finds (s : Servers) (h : Handle) (name : String) : Prop :=
  h = .direct name ∨ ∃ endpoint, h = .remote endpoint ∧ s.network.Serves .storage endpoint name

def Supplies (s : Servers) (h : Handle) (p : Path) (d : Bytes) : Prop :=
  ∃ name server m, s.Finds h name ∧ s.dataOf name = .ok server ∧ server.backend = .memory m ∧
    m.files.get? p = some d

theorem Finds.size (finds : s.Finds h name) (p : Path) :
    Agree (s.size h p) (s.size (.direct name) p) := by
  rcases finds with rfl | ⟨endpoint, rfl, serves⟩
  · exact .refl _
  · exact size_reach serves p

theorem Finds.read (finds : s.Finds h name) (p : Path) (offset length : UInt64) :
    Agree (s.read h p offset length) (s.read (.direct name) p offset length) := by
  rcases finds with rfl | ⟨endpoint, rfl, serves⟩
  · exact .refl _
  · exact read_reach serves p offset length

theorem Supplies.alike (supplies : s.Supplies h p d) (alike : s'.Alike s) : s'.Supplies h p d := by
  obtain ⟨name, server, m, finds, answers, store, held⟩ := supplies
  refine ⟨name, server, m, ?_, (alike.dataOf name).trans answers, store, held⟩
  exact finds.imp_right fun ⟨endpoint, remote, k, leads⟩ =>
    ⟨endpoint, remote, k, leads.congr alike.bindings⟩

theorem Supplies.size (supplies : s.Supplies h p d) :
    ∃ s', s.size h p = (.ok d.size, s') ∧ s'.Alike s := by
  obtain ⟨name, ⟨backend, commands, dataWorks⟩, m, finds, answers, store, held⟩ := supplies
  cases store
  have direct : s.size (.direct name) p = (.ok d.size, s) := by
    rw [Servers.size, askStorage, serve_storage]
    simp [serveData, sizeOn, answers, Bind.bind, Except.bind, MemoryStore.size,
      MemoryStore.file_eq_ok.mpr held, Except.map]
  obtain ⟨answer, after⟩ := finds.size p
  rw [direct] at answer after
  exact ⟨(s.size h p).2, Prod.ext answer rfl, after⟩

theorem Supplies.read (supplies : s.Supplies h p d) (offset length : UInt64) :
    ∃ s', s.read h p offset length = (d.slice p offset length, s') ∧ s'.Alike s := by
  obtain ⟨name, ⟨backend, commands, dataWorks⟩, m, finds, answers, store, held⟩ := supplies
  cases store
  have direct : s.read (.direct name) p offset length = (d.slice p offset length, s) := by
    rw [Servers.read, askStorage, serve_storage]
    simp only [serveData, readOn, answers, Bind.bind, Except.bind, MemoryStore.read_of_held held]
    cases d.slice p offset length <;> rfl
  obtain ⟨answer, after⟩ := finds.read p offset length
  rw [direct] at answer after
  exact ⟨(s.read h p offset length).2, Prod.ext answer rfl, after⟩

end Servers

namespace Command

variable {c c' : Cluster} {h : Handle} {p : Path} {d : Bytes} {s : Servers} {n : NodeId}
  {asked : List (UInt64 × UInt64)}

/-! ## Copying -/

theorem read_piece (supplies : s.Supplies h p d) (short : d.length < UInt64.size)
    {range : UInt64 × UInt64} (inFile : InFile d.size range) :
    ∃ s', s.read h p range.1 range.2 = (.ok (piece d range), s') ∧ s'.Alike s := by
  obtain ⟨s', answer, alike⟩ := supplies.read range.1 range.2
  have within := inFile.within
  rw [Bytes.toNat_size short] at within
  rw [Bytes.slice_within short within] at answer
  exact ⟨s', answer, alike⟩

theorem readEach_eq_ok (supplies : s.Supplies h p d) (short : d.length < UInt64.size)
    (inFile : ∀ range ∈ asked, InFile d.size range) :
    ∃ s', readEach h p asked s = (.ok (asked.map (piece d)), s') ∧ s'.Alike s := by
  induction asked generalizing s with
  | nil => exact ⟨s, rfl, .refl s⟩
  | cons range asked ih =>
    obtain ⟨here, later⟩ := List.forall_mem_cons.mp inFile
    obtain ⟨s', answer, alike⟩ := read_piece supplies short here
    obtain ⟨s'', answers, alike'⟩ := ih (supplies.alike alike) later
    refine ⟨s'', ?_, alike'.trans alike⟩
    rw [readEach, answer]
    simp only [answers]
    rfl

theorem readFile_eq_ok (handed : c.storageOf p = (.ok h, c')) (supplies : c'.servers.Supplies h p d)
    (short : d.length < UInt64.size) :
    ∃ servers, readFile c p = (.ok (d.size, d), { c' with servers }) := by
  obtain ⟨s, sized, alike⟩ := supplies.size
  obtain ⟨s', chunks, -⟩ := readEach_eq_ok (supplies.alike alike) short
    fun range (member : range ∈ ranges d.size 0) => inFile_ranges member
  have whole : ((ranges d.size 0).map (piece d)).flatten = d :=
    flatMap_piece (Bytes.toNat_size short) 0
  refine ⟨s', ?_⟩
  rw [readFile, handed]
  simp only [sized, readFrom_eq_readEach, chunks, Except.map, whole]

/-- The reader's lock is on the node at the path, which a turn of the copies leaves where it is. -/
theorem complete_show (wf : c.tree.WellFormed) (found : c.tree.find? p = some n)
    (locked : 0 < (c.catalog.locks.get n).shared) (handed : (c.storageOf p).1 = .ok h)
    (supplies : c.servers.Supplies h p d) (short : d.length < UInt64.size) :
    (∃ c', readFile c p = (.ok (d.size, d), c')) ∧
    ∃ c', complete (.show p) p .shared c = (.ok (.bytes d), c') := by
  have after : c.storageOf p = (.ok h, (c.storageOf p).2) := Prod.ext handed rfl
  have found' := (Cluster.find?_storageOf wf p p).trans found
  have kept : (c.storageOf p).2.servers = c.servers ∧
      (c.storageOf p).2.catalog.locks = c.catalog.locks := by
    rcases Cluster.storageOf_cases c p with same | ⟨k, turn, result⟩
    · rw [same]
      exact ⟨rfl, rfl⟩
    · rw [result]
      exact ⟨rfl, rfl⟩
  obtain ⟨servers, locks⟩ := kept
  obtain ⟨servers', read⟩ := readFile_eq_ok after (servers ▸ supplies) short
  let last : Cluster := { (c.storageOf p).2 with servers := servers' }
  have locked' : 0 < (last.catalog.locks.get n).shared := locks ▸ locked
  obtain ⟨locks', unlocked, -⟩ := Catalog.unlock_reader (c := last.catalog) found' locked'
  have given : last.unlock p .shared =
      (.ok (), last.setCatalog { last.catalog with locks := locks' }) := by
    rw [Cluster.unlock, unlocked]
  refine ⟨⟨last, read⟩, last.setCatalog { last.catalog with locks := locks' }, ?_⟩
  have worked : work (.show p) c = (.ok (.output (.bytes d)), last) := by
    rw [work, read]
    rfl
  rw [complete_of_work worked given]
  rfl

end Command

namespace Session

open Command (InFile ranges readFrom readEach readFile piece)

variable {r : Session} {h : Handle} {p : Path} {d : Bytes} {n : NodeId}

/-- A file that a server has in memory is copied out exactly, however long it is, under a reader's
lock. What is asked for in turn is in the file, and the last of it ends where the file does;
whatever else happens to the servers meanwhile, each answer is what the file has there as long as
the file stays the same. No file is longer than its size can say. -/
theorem shown_exactly (ticket : Ticket) (wf : r.cluster.tree.WellFormed)
    (found : r.cluster.tree.find? p = some n)
    (locked : 0 < (r.cluster.catalog.locks.get n).shared)
    (handed : (r.cluster.storageOf p).1 = .ok h) (supplies : r.cluster.servers.Supplies h p d)
    (short : d.length < UInt64.size) :
    let asked := ranges d.size 0
    (∀ s, readFrom h p d.size 0 s = readEach h p asked s) ∧
    (∀ range ∈ asked, InFile d.size range) ∧ asked.length = (d.length + 65535) / 65536 ∧
    asked.flatMap (piece d) = d ∧
    (∀ s : Servers, s.Supplies h p d → ∀ range ∈ asked, ∃ s',
      s.read h p range.1 range.2 = (.ok (piece d range), s') ∧ s'.Supplies h p d) ∧
    d.size.toNat = d.length ∧ (∃ c, readFile r.cluster p = (.ok (d.size, d), c)) ∧
    ∃ r', r.proceed (.run (.show p)) p .shared ticket n = (some (.printed (.bytes d)), r') := by
  intro asked
  have size := Bytes.toNat_size short
  obtain ⟨read, c, done⟩ := Command.complete_show wf found locked handed supplies short
  refine ⟨Command.readFrom_eq_readEach h p d.size 0, fun range => Command.inFile_ranges,
    ?_, Command.flatMap_piece size 0, fun s there range member => ?_, size, read,
    { r with cluster := c }, ?_⟩
  · rw [Command.length_ranges, size]
    rfl
  · obtain ⟨s', answer, alike⟩ :=
      Command.read_piece there short (Command.inFile_ranges member)
    exact ⟨s', answer, there.alike alike⟩
  · rw [proceed, done]

def opened : Service :=
  (Service.start {} {}).run [.register (.own "s") [.sole], .lock .sole .shared 0]

def twoChunks : Bytes := List.replicate 131072 7

def reading : Session where
  cluster :=
    { naming := opened.cluster.naming
      servers := { servers := [("s", { backend := .memory (.putFile {} .sole twoChunks) })] } }

theorem reading_shown : ∃ r',
    reading.proceed (.run (.show .sole)) .sole .shared 0 1 =
        (some (.printed (.bytes twoChunks)), r') ∧
    (ranges twoChunks.size 0).length = 2 := by
  have requested : Service.Requested {} False opened :=
    Service.Reached.run (.start {}) (by decide +kernel)
  have length : twoChunks.length = 131072 := List.length_replicate
  have supplies : reading.cluster.servers.Supplies (.direct "s") .sole twoChunks :=
    ⟨"s", _, _, .inl rfl, rfl, rfl, by simp [MemoryStore.putFile]⟩
  obtain ⟨-, -, number, -, -, -, -, r', shown⟩ :=
    shown_exactly (r := reading) (n := 1) 0 requested.inOrder.sound.tree (by decide +kernel)
      (by decide +kernel) (by decide +kernel) supplies (by rw [length]; decide)
  refine ⟨r', shown, ?_⟩
  rw [number, length]

end Session

end DistFs
