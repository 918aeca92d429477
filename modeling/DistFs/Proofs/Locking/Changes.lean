import DistFs.Proofs.Locking.Soundness
import DistFs.Proofs.Tree.Preorder
/-!
# What becomes of the locks

Whatever is called on a catalog, its locks change one after the other, each by a call on that lock.
A property of the locks that every such call keeps is kept by all that is done (`Changed`). The
locks that change are on nodes that somebody can have locked: on the others there is nothing to
release.
-/

namespace DistFs

namespace Lock

variable {l l' : Lock}

inductive Turns (l : Lock) : Lock → Prop
  | acquire {mode : LockMode} {ticket : Ticket} {answer : Admission} {l' : Lock}
      (acquired : l.acquire mode ticket = (answer, l')) : Turns l l'
  | notice {ticket : Ticket} {answer : Notice} {l' : Lock}
      (noticed : l.notice ticket = (answer, l')) : Turns l l'
  | release {mode : LockMode} {l' : Lock} (released : l.release mode = some l') : Turns l l'
  | abandon (ticket : Ticket) : Turns l (l.abandon ticket)
  | close : Turns l l.close

theorem release_new (mode : LockMode) : ({} : Lock).release mode = none := by
  cases mode <;> rfl

end Lock

namespace Acquisition

variable {t u : Tree} {a b : Acquisition} {among : NodeId → Prop}

/-- A request that takes no node but certain ones, whatever it comes to. -/
structure Within (a : Acquisition) (t : Tree) (among : NodeId → Prop) : Prop where
  pending : ∀ x ∈ a.pending, among x.1
  below : ∀ n, among n → ∀ m ∈ t.children n, among m

namespace Within

theorem anywhere (a : Acquisition) (t : Tree) : a.Within t fun _ => True :=
  ⟨fun _ _ => trivial, fun _ _ _ _ => trivial⟩

theorem head {n : NodeId} {mode : LockMode} {rest : List (NodeId × LockMode)}
    (within : a.Within t among) (pending : a.pending = (n, mode) :: rest) : among n :=
  within.pending (n, mode) (pending ▸ List.mem_cons_self)

theorem take {n : NodeId} {mode : LockMode} {rest : List (NodeId × LockMode)}
    (within : a.Within t among) (pending : a.pending = (n, mode) :: rest) :
    (a.take t n mode rest).Within t among := by
  refine ⟨fun x member => ?_, within.below⟩
  rcases List.mem_append.mp member with later | below
  · exact within.pending x (pending ▸ List.mem_cons_of_mem _ later)
  · cases mode with
    | shared => cases below
    | exclusive =>
      obtain ⟨m, child, rfl⟩ := List.mem_map.mp below
      exact within.below n (within.head pending) m child

theorem reaches (within : a.Within t among) (reached : a.Reaches t b) : b.Within t among := by
  induction reached with
  | refl => exact within
  | tail _ step ih =>
    obtain ⟨n, mode, rest, pending, rfl⟩ := step
    exact ih.take pending

end Within

abbrev Inside (a : Acquisition) (t : Tree) : Prop := a.Within t (· < t.size)

theorem OnCourse.inside (course : a.OnCourse t) (wf : t.WellFormed) : a.Inside t :=
  ⟨fun _ member => course.nodes_known wf (List.mem_append_right _ member),
    fun _ _ _ child => (Tree.known_of_mem_children child).2⟩

theorem Within.grow (inside : a.Inside t) (size : t.size ≤ u.size) : a.Inside u :=
  ⟨fun x member => Nat.lt_of_lt_of_le (inside.pending x member) size,
    fun _ _ _ child => (Tree.known_of_mem_children child).2⟩

end Acquisition

namespace LockTable

variable {table table' : LockTable} {among : NodeId → Prop} {t u : Tree} {ticket : Ticket}
  {a b : Acquisition} {n : NodeId} {l : Lock}

theorem get_empty (n : NodeId) : get {} n = {} := by
  simp [get]

inductive Changes (among : NodeId → Prop) (table : LockTable) : LockTable → Prop
  | set {n : NodeId} {l : Lock} (member : among n) (turns : (table.get n).Turns l) :
      Changes among table (table.set n l)

abbrev Changed (among : NodeId → Prop) : LockTable → LockTable → Prop :=
  Relation.ReflTransGen (Changes among)

def NewOutside (table : LockTable) (among : NodeId → Prop) : Prop :=
  ∀ n, ¬ among n → table.get n = {}

abbrev NewBeyond (table : LockTable) (t : Tree) : Prop := table.NewOutside (· < t.size)

theorem NewOutside.grow (new : table.NewBeyond t) (size : t.size ≤ u.size) : table.NewBeyond u :=
  fun n outside => new n fun known => outside (Nat.lt_of_lt_of_le known size)

theorem newOutside_everywhere (table : LockTable) : table.NewOutside fun _ => True :=
  fun _ outside => absurd trivial outside

namespace Changed

theorem set (member : among n) (turns : (table.get n).Turns l) :
    Changed among table (table.set n l) :=
  .single (.set member turns)

theorem cons (member : among n) (turns : (table.get n).Turns l)
    (later : Changed among (table.set n l) table') : Changed among table table' :=
  .head (.set member turns) later

theorem keeps {P : NodeId → Lock → Prop} (changed : Changed among table table')
    (turns : ∀ n l l', among n → P n l → l.Turns l' → P n l') (holds : ∀ n, P n (table.get n)) :
    ∀ n, P n (table'.get n) := by
  induction changed with
  | refl => exact holds
  | tail _ change ih =>
    obtain ⟨member, turned⟩ := change
    intro m
    rw [get_set]
    split
    next same => exact same ▸ turns _ _ _ member (ih _) turned
    next => exact ih m

theorem newOutside (changed : Changed among table table') (new : table.NewOutside among) :
    table'.NewOutside among :=
  changed.keeps (P := fun n l => ¬ among n → l = {})
    (fun _ _ _ member _ _ outside => absurd member outside) new

theorem releaseAll (new : table.NewOutside among) (taken : List (NodeId × LockMode)) :
    Changed among table (table.releaseAll taken).2 := by
  induction taken generalizing table with
  | nil => exact .refl
  | cons x rest ih =>
    obtain ⟨n, mode⟩ := x
    rw [LockTable.releaseAll]
    cases answer : (table.get n).release mode with
    | none => exact ih new
    | some l =>
      have member : among n := by
        by_contra outside
        rw [new n outside, Lock.release_new] at answer
        cases answer
      have first : Changed among table (table.set n l) := .set member (.release answer)
      exact first.trans (ih (first.newOutside new))

theorem advance (within : a.Within t among) :
    Changed among table (table.advance t ticket a).2 := by
  induction table, a using LockTable.advance.induct t ticket with
  | case1 table a done =>
    rw [advance_of_nil done]
  | case2 table a n mode rest pending l answer ih =>
    rw [advance_of_cons pending, answer]
    exact .cons (within.head pending) (.acquire answer) (ih (within.take pending))
  | case3 table a n mode rest pending l answer =>
    rw [advance_of_cons pending, answer]
    exact .set (within.head pending) (.acquire answer)
  | case4 table a n mode rest pending l answer =>
    rw [advance_of_cons pending, answer]

theorem resume (within : a.Within t among) :
    Changed among table (table.resume t ticket a).2 := by
  cases pending : a.pending with
  | nil => rw [LockTable.resume, pending]
  | cons x rest =>
    obtain ⟨n, mode⟩ := x
    rw [resume_of_cons pending]
    cases answer : (table.get n).notice ticket with
    | mk notice l =>
      cases notice with
      | granted =>
        exact .cons (within.head pending) (.notice answer) (.advance (within.take pending))
      | waiting => exact .refl
      | interrupted => exact .refl

end Changed

end LockTable

namespace Catalog

variable {c : Catalog} {among : NodeId → Prop} {a b : Acquisition}
  {result : LockProgress × LockTable}
  {p : Path} {mode : LockMode} {ticket : Ticket}

theorem changed_conclude (new : result.2.NewOutside among) :
    LockTable.Changed among result.2 (c.conclude result).2.locks := by
  obtain ⟨progress, locks⟩ := result
  cases progress with
  | granted a => exact .refl
  | waiting a => exact .refl
  | interrupted a n => exact .releaseAll new a.taken.reverse

theorem changed_lock (new : c.locks.NewOutside among)
    (within : ∀ n, c.tree.find? p = some n →
      (Acquisition.start c.tree p mode n).Within c.tree among) :
    LockTable.Changed among c.locks (c.lock p mode ticket).2.locks := by
  cases found : c.tree.find? p with
  | none =>
    rw [Catalog.lock, Tree.get, found]
  | some n =>
    rw [lock_of_found found]
    have advanced : LockTable.Changed among c.locks (c.locks.advance c.tree ticket _).2 :=
      .advance (within n found)
    exact advanced.trans (changed_conclude (advanced.newOutside new))

theorem changed_resume (new : c.locks.NewOutside among) (within : a.Within c.tree among)
    (ticket : Ticket) :
    LockTable.Changed among c.locks (c.resume a ticket).2.locks := by
  have resumed : LockTable.Changed among c.locks (c.locks.resume c.tree ticket a).2 :=
    .resume within
  exact resumed.trans (changed_conclude (resumed.newOutside new))

theorem changed_abandon (within : a.Within c.tree among) (ticket : Ticket) :
    LockTable.Changed among c.locks (c.abandon a ticket).locks := by
  cases pending : a.pending with
  | nil =>
    rw [Catalog.abandon, pending]
  | cons x rest =>
    rw [Catalog.abandon, pending]
    exact .set (within.head pending) (.abandon ticket)

theorem changed_giveUp (new : c.locks.NewOutside among) (taken : List (NodeId × LockMode)) :
    LockTable.Changed among c.locks (c.giveUp taken).2.locks := by
  rw [locks_giveUp]
  exact .releaseAll new taken.reverse

theorem changed_unlock (new : c.locks.NewOutside among) (p : Path) (mode : LockMode) :
    LockTable.Changed among c.locks (c.unlock p mode).2.locks := by
  unfold unlock
  cases mode with
  | shared =>
    dsimp only
    split
    · exact .refl
    · exact changed_giveUp new _
  | exclusive =>
    dsimp only
    split
    next i h _ => exact changed_giveUp (c := { c with holds := c.holds.eraseIdx i }) new h.taken
    · split <;> exact .refl

theorem changed_interrupt (within : ∀ n ∈ c.tree.reachable, among n) :
    LockTable.Changed among c.locks c.interrupt.2.locks := by
  have closing (nodes : List NodeId) (within : ∀ n ∈ nodes, among n) (table : LockTable) :
      LockTable.Changed among table
        (nodes.foldl (fun locks n => locks.set n (locks.get n).close) table) := by
    induction nodes generalizing table with
    | nil => exact .refl
    | cons n rest ih =>
      rw [List.forall_mem_cons] at within
      exact .cons within.1 .close (ih within.2 _)
  exact closing c.tree.reachable within c.locks

/-! ## Who waits -/

theorem waiting_of_conclude (waits : (c.conclude result).1 = .waiting b) :
    result = (.waiting b, result.2) := by
  obtain ⟨progress, locks⟩ := result
  cases progress with
  | granted a => cases waits
  | waiting a =>
    cases waits
    rfl
  | interrupted a n => cases waits

theorem inside_start (wf : c.tree.WellFormed) {n : NodeId} (found : c.tree.find? p = some n) :
    (Acquisition.start c.tree p mode n).Inside c.tree :=
  (Acquisition.onCourse_start wf found mode).inside wf

theorem inside_lock (wf : c.tree.WellFormed) (waits : (c.lock p mode ticket).1 = .waiting b) :
    b.Inside c.tree := by
  cases found : c.tree.find? p with
  | none =>
    rw [Catalog.lock, Tree.get, found] at waits
    cases waits
  | some n =>
    rw [lock_of_found found] at waits
    have reached := (c.locks.advance_comes c.tree ticket (.start c.tree p mode n)).reached
    rw [waiting_of_conclude waits] at reached
    exact (inside_start wf found).reaches reached

theorem inside_resume (inside : a.Inside c.tree) (waits : (c.resume a ticket).1 = .waiting b) :
    b.Inside c.tree := by
  have reached := (c.locks.resume_comes c.tree ticket a).reached
  rw [waiting_of_conclude waits] at reached
  exact inside.reaches reached

end Catalog

end DistFs
