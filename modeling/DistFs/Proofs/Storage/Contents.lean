import DistFs.Joining
import DistFs.Proofs.Storage.Memory

namespace DistFs

def Container.own (server : String) : Container := ⟨.direct server, .direct server⟩

namespace Servers

variable {s s' : Servers} {name other : String} {server old : Server} {store : MemoryStore}
  {p q : Path} {d : Bytes}

def content (s : Servers) (name : String) (p : Path) : Option Bytes :=
  (s.memory? name).bind (·.files.get? p)

/-- The servers keep their files in memory, and the sizes of the files can be written. -/
def InMemory (s : Servers) : Prop :=
  ∀ name server, s.find? name = some server → ∃ store, server.backend = .memory store ∧
    ∀ p d, store.files.get? p = some d → d.length < UInt64.size

theorem find?_set (there : s.find? name = some old) (server : Server) (other : String) :
    (s.set name server).find? other = if other = name then some server else s.find? other := by
  unfold find? set at *
  obtain ⟨e, found, -⟩ := Option.map_eq_some_iff.mp there
  rw [find?_replace_key, found]
  split <;> rfl

theorem content_of_found (found : s.find? name = some server)
    (memory : server.backend = .memory store) (p : Path) :
    s.content name p = store.files.get? p := by
  obtain ⟨backend, commands, dataWorks⟩ := server
  obtain rfl : backend = .memory store := memory
  simp [content, memory?, found]

theorem content_set (there : s.find? name = some old) (server : Server)
    (memory : server.backend = .memory store) (other : String) (p : Path) :
    (s.set name server).content other p =
      if other = name then store.files.get? p else s.content other p := by
  have found := find?_set there server other
  by_cases same : other = name
  · rw [if_pos same] at found
    rw [if_pos same, content_of_found found memory]
  · rw [if_neg same] at found
    rw [if_neg same, content, memory?, found]
    rfl

theorem InMemory.set (h : s.InMemory) (there : s.find? name = some old)
    (memory : server.backend = .memory store)
    (short : ∀ p d, store.files.get? p = some d → d.length < UInt64.size) :
    (s.set name server).InMemory := by
  intro other server' found
  rw [find?_set there] at found
  split at found
  · cases found
    exact ⟨store, memory, short⟩
  · exact h other server' found

/-! ## Commands -/

/-- A command is not carried out, or a server carries it out on what it keeps in memory. -/
inductive Commanded (s : Servers) (name : String) (change : MemoryStore → Bool × MemoryStore) :
    Except Error Bool × Servers → Prop
  | skipped {result : Except Error Bool} (refused : result ≠ .ok true) :
      Commanded s name change (result, s)
  | carried {server : Server} {store : MemoryStore} (found : s.find? name = some server)
      (memory : server.backend = .memory store)
      (short : ∀ p d, store.files.get? p = some d → d.length < UInt64.size) :
      Commanded s name change (s.keepMemory name server (change store))

variable {change : MemoryStore → Bool × MemoryStore} {result : Except Error Bool × Servers}

theorem commanded (h : s.InMemory) (name : String) {run : Server → Except Error Bool × Servers}
    (runs : ∀ server store, server.backend = .memory store →
      run server = s.keepMemory name server (change store)) :
    s.Commanded name change (s.command name run) := by
  unfold command
  cases found : s.find? name with
  | none => exact .skipped (by simp)
  | some server =>
      obtain ⟨store, memory, short⟩ := h name server found
      cases mode : server.commands with
      | failing =>
          simp only [mode]
          exact .skipped (by simp)
      | refusing =>
          simp only [mode]
          exact .skipped (by simp)
      | working =>
          simp only [mode, runs server store memory]
          exact .carried found memory short

theorem Commanded.contents (h : s.Commanded name change result) (memory : s.InMemory)
    (short : ∀ store : MemoryStore, (∀ p d, store.files.get? p = some d → d.length < UInt64.size) →
      ∀ p d, (change store).2.files.get? p = some d → d.length < UInt64.size) :
    result.2.InMemory ∧ ((result.1 ≠ .ok true ∧ result.2 = s) ∨ ∃ store : MemoryStore,
      (∀ q, s.content name q = store.files.get? q) ∧ result.1 = .ok (change store).1 ∧
      ∀ other q, result.2.content other q =
        if other = name then (change store).2.files.get? q else s.content other q) := by
  cases h with
  | skipped refused => exact ⟨memory, .inl ⟨refused, rfl⟩⟩
  | @carried server store found here bounded =>
      exact ⟨memory.set found rfl (short store bounded), .inr ⟨store, content_of_found found here,
        rfl, content_set found _ rfl⟩⟩

theorem Commanded.stores (h : s.Commanded name change result) (memory : s.InMemory)
    (short : d.length < UInt64.size)
    (stores : ∀ (store : MemoryStore) (q : Path), (change store).2.files.get? q =
      if (change store).1 = true ∧ q = p then some d else store.files.get? q) :
    result.2.InMemory ∧ ∀ other q, result.2.content other q =
      if result.1 = .ok true ∧ other = name ∧ q = p then some d else s.content other q := by
  obtain ⟨memory, contents⟩ := h.contents memory fun store bounded q e there => by
    rw [stores] at there
    split at there
    · cases there
      exact short
    · exact bounded q e there
  refine ⟨memory, fun other q => ?_⟩
  cases contents with
  | inl same => simp [same.1, same.2]
  | inr changed =>
      obtain ⟨store, before, result, after⟩ := changed
      rw [after, result, stores]
      by_cases here : other = name
      · subst here
        simp [before]
      · simp [here]

theorem createOn_contents (h : s.InMemory) (name : String) (p : Path) :
    (s.createOn name p).2.InMemory ∧ ∀ other q, (s.createOn name p).2.content other q =
      if (s.createOn name p).1 = .ok true ∧ other = name ∧ q = p then some []
      else s.content other q := by
  have commanded : s.Commanded name (·.create p) (s.createOn name p) :=
    commanded h name fun server store memory => by simp only [memory]
  exact commanded.stores h (by simp) fun store q => MemoryStore.get?_create store p q

theorem receiveOn_contents (h : s.InMemory) (name : String) (p : Path)
    (short : d.length < UInt64.size) :
    (s.receiveOn name p d).2.InMemory ∧ ∀ other q, (s.receiveOn name p d).2.content other q =
      if (s.receiveOn name p d).1 = .ok true ∧ other = name ∧ q = p then some d
      else s.content other q := by
  have commanded : s.Commanded name (·.receive p d) (s.receiveOn name p d) := by
    unfold receiveOn
    cases found : s.find? name with
    | none => exact .skipped (by simp)
    | some server =>
        obtain ⟨store, memory, bounded⟩ := h name server found
        simp only [memory]
        exact .carried found memory bounded
  exact commanded.stores h short fun store q => MemoryStore.get?_receive store p q d

theorem deleteOn_contents (h : s.InMemory) (name : String) (p : Path) :
    (s.deleteOn name p).2.InMemory ∧ ∀ other q,
      (other ≠ name ∨ q.isUnder p = false ∨ q ≠ p ∧ s.content name p ≠ none) →
      (s.deleteOn name p).2.content other q = s.content other q := by
  have commanded : s.Commanded name (·.delete p) (s.deleteOn name p) :=
    commanded h name fun server store memory => by simp only [memory]
  obtain ⟨memory, contents⟩ := commanded.contents h fun store short q d there =>
    short q d (MemoryStore.get?_delete_some there)
  refine ⟨memory, fun other q apart => ?_⟩
  cases contents with
  | inl same => rw [same.2]
  | inr changed =>
      obtain ⟨store, before, -, after⟩ := changed
      rw [after]
      split
      next here =>
        subst here
        rw [before]
        cases apart with
        | inl elsewhere => exact absurd rfl elsewhere
        | inr apart =>
            cases apart with
            | inl apart => exact MemoryStore.get?_delete_apart store apart
            | inr file =>
                obtain ⟨d, there⟩ := Option.ne_none_iff_exists'.mp file.2
                exact MemoryStore.get?_delete_file ((before p).symm.trans there) file.1
      next => rfl

/-! ## Copying -/

theorem dataOf_eq_ok (done : s.dataOf name = .ok server) : s.find? name = some server := by
  unfold dataOf at done
  cases found : s.find? name with
  | none => simp [found] at done
  | some there =>
      rw [found] at done
      simp only at done
      split at done
      · rw [Except.ok.inj done]
      · cases done

theorem serveData_file (h : s.InMemory) (name : String) (p : Path) :
    (∃ e, s.serveData name (.size p) = (.error e, s)) ∨ ∃ d, s.content name p = some d ∧
      d.length < UInt64.size ∧ s.serveData name (.size p) = (.ok (.size d.size), s) ∧
      s.serveData name (.read p 0 d.size) = (.ok (.data d), s) := by
  simp only [serveData, sizeOn, readOn]
  cases reached : s.dataOf name with
  | error e => exact .inl ⟨e, rfl⟩
  | ok server =>
      have found := dataOf_eq_ok reached
      obtain ⟨store, memory, short⟩ := h name server found
      simp only [memory, Bind.bind, Except.bind]
      cases there : store.files.get? p with
      | none =>
        exact .inl ⟨.notFound p, by simp [MemoryStore.size, MemoryStore.file, there, Except.map]⟩
      | some d =>
          obtain ⟨size, read⟩ := MemoryStore.read_size there (short p d there)
          refine .inr ⟨d, ?_, short p d there, ?_, ?_⟩
          · rw [content_of_found found memory, there]
          · rw [size]
            rfl
          · rw [read]
            rfl

theorem copyOn_contents (h : s.InMemory) (name source : String) (p : Path) :
    (s.copyOn name p fun request s => s.serveData source request).2.InMemory ∧
      ∃ d, ((s.copyOn name p fun request s => s.serveData source request).1 = .ok true →
          s.content source p = some d) ∧
        ∀ other q, (s.copyOn name p fun request s => s.serveData source request).2.content other q =
          if (s.copyOn name p fun request s => s.serveData source request).1 = .ok true ∧
            other = name ∧ q = p then some d else s.content other q := by
  have outcome : (∃ result, result ≠ .ok true ∧
      (s.copyOn name p fun request s => s.serveData source request) = (result, s)) ∨
      ∃ d, s.content source p = some d ∧ d.length < UInt64.size ∧
        (s.copyOn name p fun request s => s.serveData source request) = s.receiveOn name p d := by
    unfold copyOn command
    cases found : s.find? name with
    | none => exact .inl ⟨_, by simp, rfl⟩
    | some server =>
        simp only
        cases server.commands with
        | failing => exact .inl ⟨_, by simp, rfl⟩
        | refusing => exact .inl ⟨_, by simp, rfl⟩
        | working =>
            simp only
            split
            · exact .inl ⟨_, by simp, rfl⟩
            · cases serveData_file h source p with
              | inl absent =>
                  obtain ⟨e, failed⟩ := absent
                  exact .inl ⟨.error e, by simp, by rw [failed]⟩
              | inr there =>
                  obtain ⟨d, here, short, size, read⟩ := there
                  exact .inr ⟨d, here, short, by simp only [size, read]⟩
  cases outcome with
  | inl failed =>
      obtain ⟨result, refused, outcome⟩ := failed
      rw [outcome]
      exact ⟨h, [], by simp [refused], by simp [refused]⟩
  | inr done =>
      obtain ⟨d, here, short, outcome⟩ := done
      obtain ⟨memory, contents⟩ := receiveOn_contents h name p short
      rw [outcome]
      exact ⟨memory, d, fun _ => here, contents⟩

/-! ## Writing -/

theorem writeOn_contents (h : s.InMemory) {offset : UInt64} {w : Bytes}
    (written : s.writeOn name p offset w = .ok s') :
    s'.InMemory ∧ (∃ d, s'.content name p = some d) ∧
      ∀ other q, (other ≠ name ∨ q ≠ p) → s'.content other q = s.content other q := by
  unfold writeOn at written
  cases reached : s.dataOf name with
  | error e => simp [reached, Bind.bind, Except.bind] at written
  | ok server =>
      have found := dataOf_eq_ok reached
      obtain ⟨store, memory, short⟩ := h name server found
      simp only [reached, memory, Bind.bind, Except.bind] at written
      cases changed : store.write p offset w with
      | error e => simp [changed] at written
      | ok store' =>
          obtain ⟨d, there, bound, rfl⟩ := MemoryStore.write_eq_ok changed
          simp only [changed, pure, Except.pure, Except.ok.injEq] at written
          subst written
          have after := content_set found { server with
            backend := .memory (store.putFile p (d.overwrite offset.toNat w)) } rfl
          refine ⟨h.set found rfl ?_, ⟨d.overwrite offset.toNat w, ?_⟩, fun other q apart => ?_⟩
          · intro q e here
            simp only [MemoryStore.putFile, PathMap.get?_insert] at here
            split at here
            · cases here
              rw [MemoryStore.length_overwrite]
              exact Nat.max_lt.mpr ⟨short p d there, bound⟩
            · exact short q e here
          · rw [after, if_pos rfl]
            simp [MemoryStore.putFile]
          · rw [after]
            split
            next same =>
              subst same
              have different : q ≠ p := by simpa using apart
              simp [MemoryStore.putFile, different, content_of_found found memory]
            next => rfl

theorem setMode_contents (h : s.InMemory) (name : String) (commands : Option CommandMode)
    (data : Option Bool) :
    (s.setMode name commands data).InMemory ∧
      ∀ other q, (s.setMode name commands data).content other q = s.content other q := by
  unfold setMode
  cases found : s.find? name with
  | none => exact ⟨h, fun _ _ => rfl⟩
  | some server =>
      obtain ⟨store, memory, short⟩ := h name server found
      refine ⟨h.set found memory short, fun other q => ?_⟩
      have after := content_set found { server with
        commands := commands.getD server.commands
        dataWorks := data.getD server.dataWorks } memory other q
      simp only
      rw [after]
      split
      next same => rw [same, content_of_found found memory]
      next => rfl

/-! ## Calls on the servers themselves -/

theorem serve_storage (fuel : Nat) (name : String) (request : Request) (s : Servers) :
    serve fuel (.storage (.direct name)) request s = s.serveData name request := by
  rw [serve]

theorem create_direct (s : Servers) (name : String) (p : Path) :
    s.create (.direct name) p = s.createOn name p := by
  unfold create askCommand reach
  simp only [serve]
  cases s.createOn name p with
  | mk result s' => cases result <;> rfl

theorem create_direct_contents (h : s.InMemory) (name : String) (p : Path) :
    (s.create (.direct name) p).2.InMemory ∧
      ∀ other q, (s.create (.direct name) p).2.content other q =
      if (s.create (.direct name) p).1 = .ok true ∧ other = name ∧ q = p then some []
      else s.content other q := by
  rw [create_direct]
  exact createOn_contents h name p

theorem delete_direct (s : Servers) (name : String) (p : Path) :
    s.delete (.direct name) p = s.deleteOn name p := by
  unfold delete askCommand reach
  simp only [serve]
  cases s.deleteOn name p with
  | mk result s' => cases result <;> rfl

theorem copy_direct (s : Servers) (name source : String) (p : Path) :
    s.copy (.direct name) p (.direct source) =
      s.copyOn name p fun request s => s.serveData source request := by
  have ask : serve s.reach (.storage (.direct source)) =
      fun request s => s.serveData source request := by
    funext request s'
    exact serve_storage s.reach source request s'
  rw [copy, ask]

theorem copy_direct_contents (h : s.InMemory) (name source : String) (p : Path) :
    (s.copy (.direct name) p (.direct source)).2.InMemory ∧
      ∃ d, ((s.copy (.direct name) p (.direct source)).1 = .ok true → s.content source p = some d) ∧
        ∀ other q, (s.copy (.direct name) p (.direct source)).2.content other q =
          if (s.copy (.direct name) p (.direct source)).1 = .ok true ∧ other = name ∧ q = p
          then some d else s.content other q := by
  rw [copy_direct]
  exact copyOn_contents h name source p

theorem write_direct_contents (h : s.InMemory) (name : String) (p : Path) (offset : UInt64)
    (w : Bytes) :
    (s.write (.direct name) p offset w).2.InMemory ∧
      (s.content name p ≠ none → (s.write (.direct name) p offset w).2.content name p ≠ none) ∧
      ∀ other q, (other ≠ name ∨ q ≠ p) →
        (s.write (.direct name) p offset w).2.content other q = s.content other q := by
  unfold write askStorage
  rw [serve_storage, serveData]
  cases written : s.writeOn name p offset w with
  | error e => exact ⟨h, id, fun _ _ _ => rfl⟩
  | ok s' =>
      obtain ⟨memory, ⟨d, there⟩, elsewhere⟩ := writeOn_contents h written
      exact ⟨memory, fun _ gone => Option.some_ne_none d (there.symm.trans gone), elsewhere⟩

variable {containers : List Container}

theorem deleteFrom_contents (h : s.InMemory) (p : Path)
    (owned : ∀ c ∈ containers, ∃ name, c = .own name) :
    (Tree.deleteFrom p containers s).2.InMemory ∧
      ∀ other q, (.own other ∉ containers ∨ q.isUnder p = false) →
        (Tree.deleteFrom p containers s).2.content other q = s.content other q := by
  induction containers generalizing s with
  | nil => exact ⟨h, fun _ _ _ => rfl⟩
  | cons c rest ih =>
      obtain ⟨name, rfl⟩ := owned c List.mem_cons_self
      obtain ⟨memory, contents⟩ := deleteOn_contents h name p
      obtain ⟨memory', contents'⟩ :=
        ih memory fun c member => owned c (List.mem_cons_of_mem _ member)
      have result : (Tree.deleteFrom p (.own name :: rest) s).2 =
          (Tree.deleteFrom p rest (s.deleteOn name p).2).2 := by
        rw [Tree.deleteFrom, Container.own, delete_direct]
        simp only
        split <;> rfl
      rw [result]
      refine ⟨memory', fun other q apart => ?_⟩
      rw [contents' other q (apart.imp_left fun absent => fun later =>
        absent (List.mem_cons_of_mem _ later))]
      apply contents
      cases apart with
      | inl absent =>
          left
          intro same
          exact absent (same ▸ List.mem_cons_self)
      | inr apart => exact .inr (.inl apart)

theorem deleteOnAll_contents (h : s.InMemory) (p : Path)
    (owned : ∀ c ∈ containers, ∃ name, c = .own name) :
    (Cluster.deleteOnAll p containers s).2.InMemory ∧
      ∀ other q, q.isUnder p = false →
        (Cluster.deleteOnAll p containers s).2.content other q = s.content other q := by
  induction containers generalizing s with
  | nil => exact ⟨h, fun _ _ _ => rfl⟩
  | cons c rest ih =>
      obtain ⟨name, rfl⟩ := owned c List.mem_cons_self
      obtain ⟨memory, contents⟩ := deleteOn_contents h name p
      obtain ⟨memory', contents'⟩ :=
        ih memory fun c member => owned c (List.mem_cons_of_mem _ member)
      rw [Cluster.deleteOnAll, Container.own, delete_direct]
      cases outcome : s.deleteOn name p with
      | mk result s' =>
          rw [outcome] at memory contents memory' contents'
          cases result with
          | error e => exact ⟨memory, fun other q apart => contents other q (.inr (.inl apart))⟩
          | ok done =>
              refine ⟨memory', fun other q apart => ?_⟩
              rw [contents' other q apart]
              exact contents other q (.inr (.inl apart))

theorem dropDuplicates_contents {list : List Path} (h : s.InMemory) (name : String)
    (nodup : list.Nodup) (there : ∀ p ∈ list, s.content name p ≠ none) :
    (Cluster.dropDuplicates name list s).2.InMemory ∧
      ∀ other q, (other ≠ name ∨ q ∉ list) →
        (Cluster.dropDuplicates name list s).2.content other q = s.content other q := by
  induction list generalizing s with
  | nil => exact ⟨h, fun _ _ _ => rfl⟩
  | cons p rest ih =>
      obtain ⟨memory, contents⟩ := deleteOn_contents h name p
      have file := there p List.mem_cons_self
      obtain ⟨first, nodup⟩ := List.nodup_cons.mp nodup
      have stay (q : Path) (other : q ≠ p) :
          (s.deleteOn name p).2.content name q = s.content name q :=
        contents name q (.inr (.inr ⟨other, file⟩))
      obtain ⟨memory', contents'⟩ := ih memory nodup fun q later => by
        rw [stay q fun same => first (same ▸ later)]
        exact there q (List.mem_cons_of_mem _ later)
      have deleted (other : String) (q : Path) (apart : other ≠ name ∨ q ∉ p :: rest) :
          (s.deleteOn name p).2.content other q = s.content other q := by
        apply contents
        cases apart with
        | inl elsewhere => exact .inl elsewhere
        | inr absent => exact .inr (.inr ⟨fun same => absent (same ▸ List.mem_cons_self), file⟩)
      rw [Cluster.dropDuplicates]
      cases outcome : s.deleteOn name p with
      | mk result s' =>
          rw [outcome] at memory deleted memory' contents'
          cases result with
          | error e => exact ⟨memory, deleted⟩
          | ok done =>
              refine ⟨memory', fun other q apart => ?_⟩
              rw [contents' other q (apart.imp_right fun absent => fun later =>
                absent (List.mem_cons_of_mem _ later))]
              exact deleted other q apart

end Servers

end DistFs
