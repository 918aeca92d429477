import DistFs.Proofs.Service.Backends
import DistFs.Proofs.Storage.Staying

namespace DistFs

open HostFiles (Confined)

namespace StorageCall

def path? : StorageCall → Option Path
  | size p => some p
  | read p _ _ => some p
  | write p _ _ => some p
  | create p => some p
  | delete p => some p
  | copy p _ => some p
  | listFiles => none
  | prune => none

def Dotless (call : StorageCall) : Prop := ∀ p, call.path? = some p → p.Dotless

end StorageCall

namespace Servers

variable {s : Servers} {name : String} {store : MountedStore} {server : Server} {α : Type}
  {p : Path} {call : StorageCall} {calls : List StorageCall}

def within (s : Servers) (root : Spot) : Servers := { s with host := s.host.within root }

@[simp] theorem host_within (s : Servers) (root : Spot) :
    (s.within root).host = s.host.within root := rfl

@[simp] theorem find?_within (s : Servers) (root : Spot) (name : String) :
    (s.within root).find? name = s.find? name := rfl

@[simp] theorem dataOf_within (s : Servers) (root : Spot) (name : String) :
    (s.within root).dataOf name = s.dataOf name := rfl

def Mounts (s : Servers) (name : String) (store : MountedStore) : Prop :=
  ∃ server, s.find? name = some server ∧ server.backend = .mounted store

structure Stays (root : Spot) (s : Servers) (result result' : α × Servers) : Prop where
  within_eq : result' = (result.1, result.2.within root)
  servers : result.2.servers = s.servers
  confined : Confined root s.host result.2.host

theorem Stays.refl (root : Spot) (s : Servers) (answer : α) :
    Stays root s (answer, s) (answer, s.within root) := ⟨rfl, rfl, .refl⟩

theorem Stays.keep {root : Spot} {result result' : α × HostFiles} {β : Type}
    (stays : HostFiles.Stays root s.host result result') (answer : α → β) :
    Stays root s (answer result.1, { s with host := result.2 })
      (answer result'.1, { s.within root with host := result'.2 }) := by
  rw [stays.within_eq]
  exact ⟨rfl, rfl, stays.confined⟩

theorem Stays.flagged {root : Spot} {result result' : Except Error Bool × Servers}
    (stays : Stays root s result result') :
    Stays root s (Servers.flagged result) (Servers.flagged result') := by
  rw [stays.within_eq]
  exact ⟨rfl, stays.servers, stays.confined⟩

theorem command_stays {root : Spot} {run run' : Server → Except Error Bool × Servers}
    (stays : ∀ server, s.find? name = some server → Stays root s (run server) (run' server)) :
    Stays root s (s.command name run) ((s.within root).command name run') := by
  unfold command
  rw [find?_within]
  cases found : s.find? name with
  | none => exact .refl ..
  | some server =>
    simp only
    cases server.commands with
    | failing => exact .refl ..
    | refusing => exact .refl ..
    | working => exact stays server found

theorem Mounts.backend_eq (mounts : s.Mounts name store) (found : s.find? name = some server) :
    server.backend = .mounted store := by
  obtain ⟨server', found', backend⟩ := mounts
  obtain rfl := Option.some.inj (found.symm.trans found')
  exact backend

/-! ## One call -/

theorem Mounts.dataOf_bind (mounts : s.Mounts name store) (root : Spot)
    {ask ask' : Server → Except Error α}
    (same : ∀ server, server.backend = .mounted store → ask' server = ask server) :
    ((s.within root).dataOf name).bind ask' = (s.dataOf name).bind ask := by
  rw [dataOf_within]
  cases found : s.dataOf name with
  | error e => rfl
  | ok server => exact same server (mounts.backend_eq (dataOf_eq_ok found))

theorem sizeOn_within (mounts : s.Mounts name store)
    (named : HostFiles.Dotless (store.place p)) :
    (s.within store.root).sizeOn name p = s.sizeOn name p := by
  refine mounts.dataOf_bind _ fun server backend => ?_
  simp only [backend]
  exact MountedStore.size_within named s.host

theorem readOn_within (mounts : s.Mounts name store)
    (named : HostFiles.Dotless (store.place p)) (offset length : UInt64) :
    (s.within store.root).readOn name p offset length = s.readOn name p offset length := by
  refine mounts.dataOf_bind _ fun server backend => ?_
  simp only [backend]
  exact MountedStore.read_within named s.host offset length

theorem listFiles_within (mounts : s.Mounts name store) (holds : HostFiles.Holds store.root s.host)
    (named : HostFiles.Dotless store.root) :
    (s.within store.root).listFiles name = s.listFiles name := by
  refine mounts.dataOf_bind _ fun server backend => ?_
  simp only [backend]
  exact MountedStore.listFiles_within holds named

theorem write_stays (mounts : s.Mounts name store) (holds : HostFiles.Holds store.root s.host)
    (named : HostFiles.Dotless (store.place p)) (offset : UInt64) (w : Bytes) :
    Stays store.root s (s.perform name (.write p offset w))
      ((s.within store.root).perform name (.write p offset w)) := by
  unfold perform serveData writeOn
  rw [dataOf_within]
  cases found : s.dataOf name with
  | error e => exact .refl ..
  | ok server =>
    simp only [bind, Except.bind, mounts.backend_eq (dataOf_eq_ok found)]
    rw [host_within]
    rcases MountedStore.write_keeps holds named offset w with
      ⟨e, fails, fails'⟩ | ⟨fs, written, written', confined⟩
    · rw [fails, fails']
      exact .refl ..
    · rw [written, written']
      exact ⟨rfl, rfl, confined⟩

theorem create_stays (mounts : s.Mounts name store) (holds : HostFiles.Holds store.root s.host)
    (named : HostFiles.Dotless (store.place p)) :
    Stays store.root s (s.createOn name p) ((s.within store.root).createOn name p) := by
  refine command_stays fun server found => ?_
  simp only [mounts.backend_eq found]
  exact .keep (MountedStore.create_stays holds named) id

theorem delete_stays (mounts : s.Mounts name store) (holds : HostFiles.Holds store.root s.host)
    (named : HostFiles.Dotless (store.place p)) :
    Stays store.root s (s.deleteOn name p) ((s.within store.root).deleteOn name p) := by
  refine command_stays fun server found => ?_
  simp only [mounts.backend_eq found]
  exact .keep (MountedStore.delete_stays holds named) id

theorem copy_stays (mounts : s.Mounts name store) (holds : HostFiles.Holds store.root s.host)
    (named : HostFiles.Dotless (store.place p)) (source : Request → Except Error Reply) :
    Stays store.root s (s.copyOn name p fun request s => (source request, s))
      ((s.within store.root).copyOn name p fun request s => (source request, s)) := by
  rw [copyOn_eq, copyOn_eq]
  refine command_stays fun server found => ?_
  split
  next => exact .refl ..
  next =>
    cases fetched p source with
    | error e => exact .refl ..
    | ok d =>
      dsimp only [receiveOn]
      rw [find?_within, found]
      simp only [mounts.backend_eq found]
      exact .keep (MountedStore.receive_stays holds named d) id

theorem prune_stays (mounts : s.Mounts name store) (holds : HostFiles.Holds store.root s.host)
    (named : HostFiles.Dotless store.root) :
    Stays store.root s (s.perform name .prune) ((s.within store.root).perform name .prune) := by
  obtain ⟨server, found, backend⟩ := mounts
  unfold perform pruneOn
  rw [find?_within, found]
  simp only [backend]
  exact .keep (MountedStore.prune_stays holds named) (Except.map fun _ => Reply.unit)

theorem perform_stays (mounts : s.Mounts name store) (holds : HostFiles.Holds store.root s.host)
    (named : HostFiles.Dotless store.root) (dotless : call.Dotless) :
    Stays store.root s (s.perform name call) ((s.within store.root).perform name call) := by
  have place (p : Path) (there : call.path? = some p) : HostFiles.Dotless (store.place p) :=
    MountedStore.dotless_place_iff.mpr ⟨named, dotless p there⟩
  cases call with
  | size p =>
    have same := sizeOn_within mounts (place p rfl)
    simp only [perform, serveData, same]
    exact .refl ..
  | read p offset length =>
    have same := readOn_within mounts (place p rfl) offset length
    simp only [perform, serveData, same]
    exact .refl ..
  | write p offset w => exact write_stays mounts holds (place p rfl) offset w
  | create p => exact (create_stays mounts holds (place p rfl)).flagged
  | delete p => exact (delete_stays mounts holds (place p rfl)).flagged
  | copy p source => exact (copy_stays mounts holds (place p rfl) source).flagged
  | listFiles =>
    have same := listFiles_within mounts holds named
    simp only [perform, same]
    exact .refl ..
  | prune => exact prune_stays mounts holds named

/-! ## Any calls -/

theorem Mounts.congr {t : Servers} (mounts : s.Mounts name store)
    (same : t.servers = s.servers) : t.Mounts name store := by
  obtain ⟨server, found, backend⟩ := mounts
  exact ⟨server, by rw [find?, same]; exact found, backend⟩

theorem run_stays (mounts : s.Mounts name store) (holds : HostFiles.Holds store.root s.host)
    (named : HostFiles.Dotless store.root) (dotless : ∀ call ∈ calls, call.Dotless) :
    Stays store.root s (s.answers name calls, s.after name calls)
      ((s.within store.root).answers name calls, (s.within store.root).after name calls) := by
  induction calls generalizing s with
  | nil => exact .refl ..
  | cons call calls ih =>
    have first := perform_stays mounts holds named (dotless call List.mem_cons_self)
    have rest := ih (mounts.congr first.servers) (first.confined.holds holds) fun call member =>
      dotless call (List.mem_cons_of_mem _ member)
    refine ⟨?_, rest.servers.trans first.servers, first.confined.trans rest.confined⟩
    have same := rest.within_eq
    rw [Prod.mk.injEq] at same ⊢
    rw [answers, answers, first.within_eq, same.1]
    refine ⟨rfl, ?_⟩
    rw [after, List.foldl_cons, first.within_eq]
    exact same.2

/-- Paths under a directory that is named without dots. The text of a path leads to what its names
say exactly if there are no dots among them, two such paths lead to different entries, and the host
goes nowhere else. Calls on a server under such paths are answered by what is in its directory and
leave everything else as it was. -/
theorem paths_stay_in_root {here : Spot} {r : String}
    (mounted : HostFiles.place here r = store.root) (named : HostFiles.Dotless store.root) :
    (∀ p : Path, HostFiles.place here (p.hostText r) = store.place p ∧
      (HostFiles.lexical (HostFiles.place here (p.hostText r)) =
        store.root ++ p.names.map (·.text) ↔ p.Dotless)) ∧
    (∀ p q : Path, p.Dotless → q.Dotless →
      HostFiles.lexical (HostFiles.place here (p.hostText r)) =
        HostFiles.lexical (HostFiles.place here (q.hostText r)) → p = q) ∧
    (∀ (fs : HostFiles) (p : Path) (x : Spot),
      fs.resolve (HostFiles.place here (p.hostText r)) = .ok x →
        x = HostFiles.lexical (HostFiles.place here (p.hostText r))) ∧
    ∀ (s : Servers) (name : String) (calls : List StorageCall), s.Mounts name store →
      HostFiles.Holds store.root s.host → (∀ call ∈ calls, call.Dotless) →
      (s.within store.root).answers name calls = s.answers name calls ∧
      (s.within store.root).after name calls = (s.after name calls).within store.root ∧
      (s.after name calls).host.besides store.root = s.host.besides store.root := by
  have text (p : Path) := Path.lexical_hostText (mounted ▸ named) p
  have place (p : Path) : HostFiles.place here (p.hostText r) = store.place p := by
    rw [Path.place_hostText, mounted, MountedStore.place]
  refine ⟨fun p => ⟨place p, mounted ▸ text p⟩, fun p q dotless dotless' same => ?_,
    fun fs p x => HostFiles.eq_lexical_of_resolve, fun s name calls mounts holds dotless => ?_⟩
  · rw [(text p).mpr dotless, (text q).mpr dotless', mounted] at same
    exact MountedStore.place_inj.mp same
  · have stays := run_stays mounts holds named dotless
    have same := stays.within_eq
    rw [Prod.mk.injEq] at same
    exact ⟨same.1, same.2, stays.confined.besides_eq⟩

def neighbours : Servers where
  servers := [("a", { backend := .mounted ⟨["h"]⟩ })]
  host := ⟨[(["h"], .directory), (["g"], .directory), (["g", "x"], .file [104])]⟩

def upward : Path :=
  ⟨[⟨"..", by decide, by decide, by decide⟩, ⟨"g", by decide, by decide, by decide⟩,
    ⟨"x", by decide, by decide, by decide⟩]⟩

theorem neighbours_lose_file :
    MountedStore.mount neighbours.host [] "/h" = .ok ⟨["h"]⟩ ∧
    (neighbours.after "a" quietRun).host.besides ["h"] = neighbours.host.besides ["h"] ∧
    Path.parse "/../g/x" = .ok upward ∧
    HostFiles.lexical (HostFiles.place [] (upward.hostText "/h")) ≠ ["h", "..", "g", "x"] ∧
    (neighbours.perform "a" (.delete upward)).1 = .ok (.flag true) ∧
    (neighbours.perform "a" (.delete upward)).2.host.besides ["h"] ≠
      neighbours.host.besides ["h"] := by
  have mounted : MountedStore.mount neighbours.host [] "/h" = .ok ⟨["h"]⟩ := by rfl
  have wf : neighbours.host.WellFormed :=
    ⟨by decide, by simp [neighbours], by simp [neighbours, HostFiles.entry?]⟩
  have plain : ∀ e ∈ neighbours.host.entries, HostFiles.Dotless e.1 := by decide
  obtain ⟨holds, named⟩ := MountedStore.holds_of_mount wf plain mounted
  have here : HostFiles.place [] "/h" = (⟨["h"]⟩ : MountedStore).root := by rfl
  have quiet : ∀ call ∈ quietRun, call.Dotless := by
    have sole : Path.sole.Dotless := by decide
    simpa [quietRun, StorageCall.Dotless, StorageCall.path?] using sole
  obtain ⟨text, -, -, run⟩ := paths_stay_in_root here named
  have dotted : ¬ upward.Dotless := by decide
  refine ⟨mounted, (run neighbours "a" quietRun ⟨_, rfl, rfl⟩ holds quiet).2.2, by rfl,
    fun same => dotted ((text upward).2.mp same), by rfl, fun same => ?_⟩
  have fewer := congrArg (fun fs : HostFiles => fs.entries.length) same
  revert fewer
  decide

end Servers

end DistFs
