import DistFs.Proofs.Storage.Contents
/-!
# Servers that differ in the network

What the servers do depends on what they hold, and not on the calls that went over the network:
where they hold the same, the same request is answered the same way and leaves the same behind.
-/

namespace DistFs

namespace Servers

structure Alike (s t : Servers) : Prop where
  servers : s.servers = t.servers
  host : s.host = t.host
  bindings : s.network.bindings = t.network.bindings

structure Agree {α : Type} (left right : α × Servers) : Prop where
  answer : left.1 = right.1
  after : left.2.Alike right.2

variable {α : Type} {s t u : Servers} {name source : String} {p : Path}

theorem Alike.refl (s : Servers) : s.Alike s := ⟨rfl, rfl, rfl⟩

theorem Alike.symm (h : s.Alike t) : t.Alike s := ⟨h.servers.symm, h.host.symm, h.bindings.symm⟩

theorem Alike.trans (h : s.Alike t) (h' : t.Alike u) : s.Alike u :=
  ⟨h.servers.trans h'.servers, h.host.trans h'.host, h.bindings.trans h'.bindings⟩

theorem Alike.find? (h : s.Alike t) (name : String) : s.find? name = t.find? name := by
  rw [Servers.find?, h.servers, Servers.find?]

theorem Alike.content (h : s.Alike t) (name : String) (p : Path) :
    s.content name p = t.content name p := by
  rw [Servers.content, memory?, h.find?, Servers.content, memory?]

theorem Alike.set (h : s.Alike t) (name : String) (server : Server) :
    (s.set name server).Alike (t.set name server) :=
  ⟨by rw [Servers.set, h.servers, Servers.set], h.host, h.bindings⟩

theorem Agree.refl (result : α × Servers) : Agree result result := ⟨rfl, .refl _⟩

theorem Agree.symm {left right : α × Servers} (h : Agree left right) : Agree right left :=
  ⟨h.answer.symm, h.after.symm⟩

theorem Agree.trans {left right other : α × Servers} (h : Agree left right)
    (h' : Agree right other) : Agree left other :=
  ⟨h.answer.trans h'.answer, h.after.trans h'.after⟩

theorem Agree.same {left right : α × Servers} (h : Agree left right) :
    ∃ a s t, left = (a, s) ∧ right = (a, t) ∧ s.Alike t :=
  ⟨left.1, left.2, right.2, rfl, Prod.ext h.answer.symm rfl, h.after⟩

theorem Alike.command (h : s.Alike t) {run run' : Server → Except Error Bool × Servers}
    (runs : ∀ server, Agree (run server) (run' server)) :
    Agree (s.command name run) (t.command name run') := by
  unfold Servers.command
  rw [h.find? name]
  cases t.find? name with
  | none => exact ⟨rfl, h⟩
  | some server =>
    cases mode : server.commands with
    | failing => simpa only [mode] using ⟨rfl, h⟩
    | refusing => simpa only [mode] using ⟨rfl, h⟩
    | working => simpa only [mode] using runs server

theorem Alike.keepMemory (h : s.Alike t) (server : Server) (result : Bool × MemoryStore) :
    Agree (s.keepMemory name server result) (t.keepMemory name server result) :=
  ⟨rfl, h.set name _⟩

theorem Alike.keepHost (h : s.Alike t) (result : Except Error Bool × HostFiles) :
    Agree (s.keepHost result) (t.keepHost result) :=
  ⟨rfl, h.servers, rfl, h.bindings⟩

theorem Alike.onBackend (h : s.Alike t) (server : Server)
    (inMemory : MemoryStore → Bool × MemoryStore)
    (onHost : MountedStore → HostFiles → Except Error Bool × HostFiles) :
    Agree
      (match server.backend with
        | .memory store => s.keepMemory name server (inMemory store)
        | .mounted store => s.keepHost (onHost store s.host))
      (match server.backend with
        | .memory store => t.keepMemory name server (inMemory store)
        | .mounted store => t.keepHost (onHost store t.host)) := by
  cases server.backend with
  | memory store => exact h.keepMemory server (inMemory store)
  | mounted store =>
    simp only [h.host]
    exact h.keepHost (onHost store t.host)

theorem Alike.createOn (h : s.Alike t) : Agree (s.createOn name p) (t.createOn name p) :=
  h.command fun server => h.onBackend server (·.create p) fun store host => store.create host p

theorem Alike.deleteOn (h : s.Alike t) : Agree (s.deleteOn name p) (t.deleteOn name p) :=
  h.command fun server => h.onBackend server (·.delete p) fun store host => store.delete host p

theorem Alike.receiveOn (h : s.Alike t) (d : Bytes) :
    Agree (s.receiveOn name p d) (t.receiveOn name p d) := by
  unfold Servers.receiveOn
  rw [h.find? name]
  cases t.find? name with
  | none => exact ⟨rfl, h⟩
  | some server => exact h.onBackend server (·.receive p d) fun store host => store.receive host p d

theorem Alike.dataOf (h : s.Alike t) (name : String) : s.dataOf name = t.dataOf name := by
  rw [Servers.dataOf, h.find?, Servers.dataOf]

theorem Alike.serveData (h : s.Alike t) (name : String) (request : Request) :
    Agree (s.serveData name request) (t.serveData name request) := by
  cases request with
  | size p => exact ⟨by simp only [Servers.serveData, sizeOn, h.dataOf, h.host], h⟩
  | read p offset length => exact ⟨by simp only [Servers.serveData, readOn, h.dataOf, h.host], h⟩
  | write p offset w =>
    simp only [Servers.serveData, writeOn, h.dataOf, h.host]
    cases t.dataOf name with
    | error e => exact ⟨rfl, h⟩
    | ok server =>
      obtain ⟨backend, commands, dataWorks⟩ := server
      cases backend with
      | memory store =>
        simp only [Bind.bind, Except.bind]
        cases store.write p offset w with
        | error e => exact ⟨rfl, h⟩
        | ok store => exact ⟨rfl, h.set name _⟩
      | mounted store =>
        simp only [Bind.bind, Except.bind]
        cases store.write t.host p offset w with
        | error e => exact ⟨rfl, h⟩
        | ok host => exact ⟨rfl, h.servers, rfl, h.bindings⟩
  | _ => exact ⟨rfl, h⟩

theorem Alike.copyOn (h : s.Alike t) {ask : Request → Servers → Except Error Reply × Servers}
    (asks : ∀ request s', request.isData = true → s'.Alike t →
      Agree (ask request s') (t.serveData source request)) :
    Agree (s.copyOn name p ask) (t.copyOn name p fun request s => s.serveData source request) := by
  refine h.command fun server => ?_
  split
  next => exact ⟨rfl, h⟩
  next =>
    obtain ⟨answer, after⟩ := asks (.size p) s rfl h
    simp only [Servers.serveData] at answer after ⊢
    cases asked : ask (.size p) s with
    | mk size s₁ =>
      rw [asked] at answer after
      obtain rfl : size = _ := answer
      cases t.sizeOn source p with
      | error e => exact ⟨rfl, after⟩
      | ok n =>
        obtain ⟨answer, after'⟩ := asks (.read p 0 n) s₁ rfl after
        simp only [Servers.serveData] at answer after'
        simp only [Except.map]
        cases asked : ask (.read p 0 n) s₁ with
        | mk data s₂ =>
          rw [asked] at answer after'
          obtain rfl : data = _ := answer
          cases t.readOn source p 0 n with
          | error e => exact ⟨rfl, after'⟩
          | ok d => exact after'.receiveOn d

end Servers

end DistFs
