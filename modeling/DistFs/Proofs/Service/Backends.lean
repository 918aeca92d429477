import DistFs.Proofs.Service.Joining
import DistFs.Proofs.Storage.Pruning

namespace DistFs

/-- A call on a storage server. Of the source of a copy only the answers count. -/
inductive StorageCall where
  | size (p : Path)
  | read (p : Path) (offset length : UInt64)
  | write (p : Path) (offset : UInt64) (data : Bytes)
  | create (p : Path)
  | delete (p : Path)
  | copy (p : Path) (source : Request → Except Error Reply)
  | listFiles
  | prune

namespace Servers

def fetched (p : Path) (source : Request → Except Error Reply) : Except Error Bytes :=
  match source (.size p) with
  | .ok (.size n) =>
    match source (.read p 0 n) with
    | .ok (.data d) => .ok d
    | .ok reply => .error (Network.unexpected (.read p 0 n) reply)
    | .error e => .error e
  | .ok reply => .error (Network.unexpected (.size p) reply)
  | .error e => .error e

theorem copyOn_eq (s : Servers) (name : String) (p : Path)
    (source : Request → Except Error Reply) :
    (s.copyOn name p fun request s => (source request, s)) = s.command name fun server =>
      if refusesCopy server p then (.ok false, s)
      else match fetched p source with
        | .ok d => s.receiveOn name p d
        | .error e => (.error e, s) := by
  refine congrArg (s.command name) (funext fun server => ?_)
  simp only [fetched]
  split
  · rfl
  cases source (.size p) with
  | error e => rfl
  | ok reply =>
    cases reply with
    | size n =>
      dsimp only
      cases source (.read p 0 n) with
      | error e => rfl
      | ok reply => cases reply <;> rfl
    | _ => rfl

def perform (s : Servers) (name : String) : StorageCall → Except Error Reply × Servers
  | .size p => s.serveData name (.size p)
  | .read p offset length => s.serveData name (.read p offset length)
  | .write p offset data => s.serveData name (.write p offset data)
  | .create p => flagged (s.createOn name p)
  | .delete p => flagged (s.deleteOn name p)
  | .copy p source => flagged (s.copyOn name p fun request s => (source request, s))
  | .listFiles => ((s.listFiles name).map .paths, s)
  | .prune => ((s.pruneOn name).1.map fun _ => .unit, (s.pruneOn name).2)

def answers (s : Servers) (name : String) : List StorageCall → List (Except Error Reply)
  | [] => []
  | call :: calls => (s.perform name call).1 :: (s.perform name call).2.answers name calls

def after (s : Servers) (name : String) (calls : List StorageCall) : Servers :=
  calls.foldl (fun s call => (s.perform name call).2) s

end Servers

namespace StorageCall

/-- Calls are made on what is below the root and within reach of the host, which takes only the
first half of the positions in a file. -/
def Allowed (store : MountedStore) : StorageCall → Prop
  | size p => p ≠ .root ∧ store.Reaches p
  | read p _ _ => p ≠ .root ∧ store.Reaches p
  | write p offset data =>
    p ≠ .root ∧ store.Reaches p ∧ offset.toNat + data.length < UInt64.size / 2
  | create p => p ≠ .root ∧ store.Reaches p
  | delete p => p ≠ .root ∧ store.Reaches p
  | copy p _ => p ≠ .root ∧ store.Reaches p
  | listFiles => True
  | prune => True

/-- Nothing is written, and that at a position past the end of the file. -/
def OpensGap (t : Servers) (name : String) : StorageCall → Prop
  | write p offset data => data = [] ∧ ∃ d, t.content name p = some d ∧ d.length < offset.toNat
  | _ => False

end StorageCall

structure Twins (store : MountedStore) (name : String) (s t : Servers) : Prop where
  mounts : s.find? name = some { backend := .mounted store }
  mirrors : ∃ m, t.Runs name m ∧ store.Mirrors s.host m

namespace Twins

variable {store : MountedStore} {name : String} {s t : Servers} {m : MemoryStore} {p : Path}
  {call : StorageCall} {calls : List StorageCall} {host : HostFiles}

theorem move (twins : Twins store name s t) (runs : t.Runs name m) (m' : MemoryStore) :
    Twins store name { s with host } (t.set name { backend := .memory m' }) ↔
      store.Mirrors host m' := by
  have runs' := (runs.set m').runs
  constructor
  · rintro ⟨-, m'', other, mirrors⟩
    have same := runs'.symm.trans other
    simp only [Option.some_inj, Server.mk.injEq, Backend.memory.injEq, and_true] at same
    exact same ▸ mirrors
  · exact fun mirrors => ⟨twins.mounts, m', runs', mirrors⟩

theorem size (twins : Twins store name s t) (reaches : store.Reaches p) :
    s.sizeOn name p = t.sizeOn name p := by
  obtain ⟨m, runs, mirrors⟩ := twins.mirrors
  simp [Servers.sizeOn, Servers.dataOf, twins.mounts, show t.find? name = _ from runs, Bind.bind,
    Except.bind, mirrors.size_eq reaches]

theorem read (twins : Twins store name s t) (reaches : store.Reaches p) (offset length : UInt64) :
    s.readOn name p offset length = t.readOn name p offset length := by
  obtain ⟨m, runs, mirrors⟩ := twins.mirrors
  simp [Servers.readOn, Servers.dataOf, twins.mounts, show t.find? name = _ from runs, Bind.bind,
    Except.bind, mirrors.read_eq reaches]

theorem write (twins : Twins store name s t) (reaches : store.Reaches p) {offset : UInt64}
    {data : Bytes} (bound : offset.toNat + data.length < UInt64.size / 2) :
    (s.perform name (.write p offset data)).1 = (t.perform name (.write p offset data)).1 ∧
    (Twins store name (s.perform name (.write p offset data)).2
      (t.perform name (.write p offset data)).2 ↔
      ¬ StorageCall.OpensGap t name (.write p offset data)) := by
  obtain ⟨m, runs, mirrors⟩ := twins.mirrors
  have held : t.content name p = m.files.get? p := runs.content p
  rcases mirrors.write reaches bound with
    ⟨absent, e, failed, failed'⟩ | ⟨d, host, m', there, done, done', after⟩
  · have onHost : s.writeOn name p offset data = .error e := by
      simp [Servers.writeOn, Servers.dataOf, twins.mounts, Bind.bind, Except.bind, failed]
    have inMemory : t.writeOn name p offset data = .error e := by
      simp [Servers.writeOn, Servers.dataOf, show t.find? name = _ from runs, Bind.bind,
        Except.bind, failed']
    simp [Servers.perform, Servers.serveData, onHost, inMemory, StorageCall.OpensGap, held,
      absent, twins]
  · have onHost : s.writeOn name p offset data = .ok { s with host } := by
      simp [Servers.writeOn, Servers.dataOf, twins.mounts, Bind.bind, Except.bind, pure,
        Except.pure, done]
    have inMemory : t.writeOn name p offset data =
        .ok (t.set name { backend := .memory m' }) := by
      simp [Servers.writeOn, Servers.dataOf, show t.find? name = _ from runs, Bind.bind,
        Except.bind, pure, Except.pure, done']
    simp [Servers.perform, Servers.serveData, onHost, inMemory, StorageCall.OpensGap, held,
      there, twins.move runs, after]

theorem create (twins : Twins store name s t) (below : p ≠ .root) (reaches : store.Reaches p) :
    (s.createOn name p).1 = (t.createOn name p).1 ∧
    Twins store name (s.createOn name p).2 (t.createOn name p).2 := by
  obtain ⟨m, runs, mirrors⟩ := twins.mirrors
  obtain ⟨same, after⟩ := mirrors.create reaches below
  simp [Servers.createOn, Servers.command, Servers.keepHost, Servers.keepMemory, twins.mounts,
    show t.find? name = _ from runs, same, twins.move runs, after]

theorem delete (twins : Twins store name s t) (below : p ≠ .root) (reaches : store.Reaches p) :
    (s.deleteOn name p).1 = (t.deleteOn name p).1 ∧
    Twins store name (s.deleteOn name p).2 (t.deleteOn name p).2 := by
  obtain ⟨m, runs, mirrors⟩ := twins.mirrors
  obtain ⟨same, after⟩ := mirrors.delete reaches below
  simp [Servers.deleteOn, Servers.command, Servers.keepHost, Servers.keepMemory, twins.mounts,
    show t.find? name = _ from runs, same, twins.move runs, after]

theorem receive (twins : Twins store name s t) (below : p ≠ .root) (reaches : store.Reaches p)
    (d : Bytes) : (s.receiveOn name p d).1 = (t.receiveOn name p d).1 ∧
      Twins store name (s.receiveOn name p d).2 (t.receiveOn name p d).2 := by
  obtain ⟨m, runs, mirrors⟩ := twins.mirrors
  obtain ⟨same, after⟩ := mirrors.receive reaches below d
  simp [Servers.receiveOn, Servers.keepHost, Servers.keepMemory, twins.mounts,
    show t.find? name = _ from runs, same, twins.move runs, after]

theorem copy (twins : Twins store name s t) (below : p ≠ .root) (reaches : store.Reaches p)
    (source : Request → Except Error Reply) :
    (s.copyOn name p fun request s => (source request, s)).1 =
      (t.copyOn name p fun request s => (source request, s)).1 ∧
    Twins store name (s.copyOn name p fun request s => (source request, s)).2
      (t.copyOn name p fun request s => (source request, s)).2 := by
  obtain ⟨m, runs, -⟩ := twins.mirrors
  have notRoot : p.isRoot = false := by rw [← Bool.not_eq_true, Path.isRoot_iff]; exact below
  simp only [Servers.copyOn_eq, Servers.command, twins.mounts, show t.find? name = _ from runs,
    Servers.refusesCopy, notRoot, Bool.false_eq_true, if_false]
  cases Servers.fetched p source with
  | error e => exact ⟨rfl, twins⟩
  | ok d => exact twins.receive below reaches d

theorem listFiles (twins : Twins store name s t) : s.listFiles name = t.listFiles name := by
  obtain ⟨m, runs, mirrors⟩ := twins.mirrors
  rw [runs.listFiles]
  simp [Servers.listFiles, Servers.dataOf, twins.mounts, Bind.bind, Except.bind, mirrors.listFiles]

theorem prune (twins : Twins store name s t) :
    (s.pruneOn name).1 = (t.pruneOn name).1 ∧
    Twins store name (s.pruneOn name).2 (t.pruneOn name).2 := by
  obtain ⟨m, runs, mirrors⟩ := twins.mirrors
  obtain ⟨same, after⟩ := mirrors.prune
  simp [Servers.pruneOn, twins.mounts, show t.find? name = _ from runs, same, twins.move runs,
    after]

theorem perform (twins : Twins store name s t) (allowed : call.Allowed store) :
    (s.perform name call).1 = (t.perform name call).1 ∧
    (Twins store name (s.perform name call).2 (t.perform name call).2 ↔
      ¬ call.OpensGap t name) := by
  have kept {left right : Except Error Bool × Servers}
      (h : left.1 = right.1 ∧ Twins store name left.2 right.2) :
      (Servers.flagged left).1 = (Servers.flagged right).1 ∧
      (Twins store name (Servers.flagged left).2 (Servers.flagged right).2 ↔ ¬ False) :=
    ⟨congrArg (Except.map Reply.flag) h.1, iff_of_true h.2 id⟩
  cases call with
  | size p =>
    refine ⟨?_, iff_of_true twins id⟩
    exact congrArg (Except.map Reply.size) (twins.size allowed.2)
  | read p offset length =>
    refine ⟨?_, iff_of_true twins id⟩
    exact congrArg (Except.map Reply.data) (twins.read allowed.2 offset length)
  | write p offset data => exact twins.write allowed.2.1 allowed.2.2
  | create p => exact kept (twins.create allowed.1 allowed.2)
  | delete p => exact kept (twins.delete allowed.1 allowed.2)
  | copy p source => exact kept (twins.copy allowed.1 allowed.2 source)
  | listFiles =>
    refine ⟨?_, iff_of_true twins id⟩
    exact congrArg (Except.map Reply.paths) twins.listFiles
  | prune =>
    obtain ⟨same, after⟩ := twins.prune
    exact ⟨congrArg (Except.map fun _ => Reply.unit) same, iff_of_true after id⟩

end Twins

namespace Servers

variable {store : MountedStore} {name : String} {s t : Servers} {calls : List StorageCall}

def AlikeAfter (store : MountedStore) (name : String) (s t : Servers) (calls : List StorageCall) :
    Prop :=
  s.answers name calls = t.answers name calls ∧
    Twins store name (s.after name calls) (t.after name calls)

/-- The two kinds of storage answer any calls alike and hold the same after each of them, exactly if
none of the calls opens a gap. -/
theorem backends_agree (twins : Twins store name s t)
    (allowed : ∀ call ∈ calls, call.Allowed store) :
    (∀ n ≤ calls.length, AlikeAfter store name s t (calls.take n)) ↔
    ∀ n (h : n < calls.length), ¬ calls[n].OpensGap (t.after name (calls.take n)) name := by
  induction calls generalizing s t with
  | nil =>
    refine iff_of_true (fun n _ => ?_) fun n h => absurd h (Nat.not_lt_zero n)
    rw [List.take_nil]
    exact ⟨rfl, twins⟩
  | cons call calls ih =>
    obtain ⟨same, holds⟩ := twins.perform (allowed call List.mem_cons_self)
    have rest (call' : StorageCall) (later : call' ∈ calls) : call'.Allowed store :=
      allowed call' (List.mem_cons_of_mem _ later)
    constructor
    · intro agree
      have first : Twins store name (s.perform name call).2 (t.perform name call).2 :=
        (agree 1 (by simp)).2
      intro n h
      cases n with
      | zero => exact holds.mp first
      | succ n =>
        refine (ih first rest).mp (fun k short => ?_) n (Nat.lt_of_succ_lt_succ h)
        obtain ⟨answers, after⟩ := agree (k + 1) (Nat.succ_le_succ short)
        exact ⟨(List.cons.inj answers).2, after⟩
    · intro closed
      have first := holds.mpr (closed 0 (Nat.zero_lt_succ _))
      have later := (ih first rest).mpr fun n h => closed (n + 1) (Nat.succ_lt_succ h)
      intro n short
      cases n with
      | zero => exact ⟨rfl, twins⟩
      | succ n =>
        obtain ⟨answers, after⟩ := later n (Nat.le_of_succ_le_succ short)
        exact ⟨congrArg₂ List.cons same answers, after⟩

def emptyMounted : Servers := { servers := [("a", { backend := .mounted ⟨[]⟩ })] }

def emptyInMemory : Servers := { servers := [("a", { backend := .memory {} })] }

theorem empty_twins : Twins ⟨[]⟩ "a" emptyMounted emptyInMemory := by
  refine ⟨rfl, {}, rfl, ⟨List.nodup_nil, by simp [emptyMounted], by simp [emptyMounted]⟩, .empty,
    ⟨by simp, by decide⟩, fun x e there _ => ?_, fun p => ?_⟩
  · by_cases top : x = []
    · exact ⟨.root, ⟨by simp, by decide⟩, by rw [top, MountedStore.place_root]⟩
    · simp [HostFiles.entry?, emptyMounted, top] at there
  · rcases p.eq_root_or_child with rfl | ⟨q, a, rfl⟩
    · rw [MountedStore.place_root, MemoryStore.entryAt_root]
      rfl
    · have there : MemoryStore.entryAt {} (q.child a) = none := by
        rw [MemoryStore.entryAt_eq_none, ← Bool.not_eq_true, MemoryStore.isDirectory_iff]
        exact ⟨fun h => by simp [Path.child_ne_root, PathMap.contains] at h, rfl⟩
      rw [there]
      simp [HostFiles.entry?, MountedStore.place_child, emptyMounted]

def quietRun : List StorageCall := [.create .sole, .write .sole 0 [7], .write .sole 1 []]

theorem gap_parts_backends :
    Twins ⟨[]⟩ "a" emptyMounted emptyInMemory ∧
    (∀ call ∈ quietRun ++ [StorageCall.write .sole 5 []], call.Allowed ⟨[]⟩) ∧
    (∀ n ≤ 3, AlikeAfter ⟨[]⟩ "a" emptyMounted emptyInMemory (quietRun.take n)) ∧
    ¬ ∀ n ≤ 4, AlikeAfter ⟨[]⟩ "a" emptyMounted emptyInMemory
      ((quietRun ++ [StorageCall.write .sole 5 []]).take n) := by
  have plain : HostFiles.IsPlain "a" := ⟨by decide, by decide, by decide, by decide⟩
  have reaches : MountedStore.Reaches ⟨[]⟩ .sole :=
    ⟨by simpa [MountedStore.place, Path.sole, Path.child, Path.root] using plain, by decide⟩
  have below : Path.sole ≠ .root := Path.child_ne_root .root _
  have allowed : ∀ call ∈ quietRun ++ [StorageCall.write .sole 5 []], call.Allowed ⟨[]⟩ := by
    simp [quietRun, StorageCall.Allowed, below, reaches, UInt64.size]
  refine ⟨empty_twins, allowed, ?_, fun agree => ?_⟩
  · refine (backends_agree empty_twins fun call member =>
      allowed call (List.mem_append_left _ member)).mpr fun n h gap => ?_
    obtain rfl | rfl | rfl : n = 0 ∨ n = 1 ∨ n = 2 := by
      have short : n < 3 := h
      omega
    · exact gap
    · cases gap.1
    · obtain ⟨-, d, held, short⟩ := gap
      obtain rfl : [7] = d := Option.some.inj held
      exact absurd short (by decide)
  · exact (backends_agree empty_twins allowed).mp agree 3 (by decide) ⟨rfl, [7], rfl, by decide⟩

end Servers

end DistFs
