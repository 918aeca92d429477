import DistFs.Proofs.Service.Writers
import DistFs.Proofs.Tree.Pool

namespace DistFs

namespace Tree

variable {t u : Tree} {n : NodeId} {s : Servers} {k a : Nat}
  {result : Option Container × Tree × Servers}

/-! ## An attempt -/

def Leaves (pool : List Container) (c : Container) (left : List Container) : Prop :=
  (∃ before after, pool = before ++ c :: after ∧ left = before ++ after) ∨
    c.isIn pool = false ∧ left = pool

/-- What comes of an attempt to have one more server keep a copy of a file: there is no copy or no
other container, or the container that is found first makes the copy or does not. -/
inductive Attempt (t : Tree) (n : NodeId) (s : Servers) : Option Container × Tree × Servers → Prop
  | sourceless (bare : (t.node n).replicas = []) : Attempt t n s (none, t, s)
  | placeless (drawn : t.Drawn (t.node n).replicas (none, t)) : Attempt t n s (none, t, s)
  | refused {first target : Container} {fromPool : Bool} {u : Tree} {pool : List Container}
      (source : (t.node n).replicas.head? = some first)
      (drawn : t.Drawn (t.node n).replicas (some (target, fromPool), u))
      (refused : (s.copy target.command (t.node n).path first.storage).1 ≠ .ok true)
      (same : ∀ d : Container, d.isIn pool = d.isIn t.pool)
      (perm : Container.Distinct t.pool → pool.Perm t.pool) :
      Attempt t n s
        (none, { t with pool }, (s.copy target.command (t.node n).path first.storage).2)
  | copied {first target : Container} {fromPool : Bool} {pool : List Container}
      (source : (t.node n).replicas.head? = some first)
      (drawn : t.Drawn (t.node n).replicas (some (target, fromPool), { t with pool }))
      (other : target.isIn (t.node n).replicas = false)
      (answered : (s.copy target.command (t.node n).path first.storage).1 = .ok true)
      (left : Leaves t.pool target pool) :
      Attempt t n s (some target, { t with pool }.copied n target,
        (s.copy target.command (t.node n).path first.storage).2)

theorem Drawn.leaves {excluded : List Container} {c : Container} {fromPool : Bool}
    (drawn : t.Drawn excluded (some (c, fromPool), u)) :
    ∃ pool, u = { t with pool } ∧ Leaves t.pool c pool := by
  cases drawn with
  | @pooled _ before after split => exact ⟨before ++ after, rfl, .inl ⟨before, after, split, rfl⟩⟩
  | met drained first =>
    refine ⟨t.pool, rfl, .inr ⟨?_, rfl⟩⟩
    rw [← Bool.not_eq_true, Container.isIn_iff]
    rintro ⟨d, member, same⟩
    have excluded := drained d member
    rw [Container.isIn_congr same] at excluded
    simpa [excluded] using List.find?_some first

theorem replicate_attempt (t : Tree) (n : NodeId) (s : Servers) :
    t.Attempt n s (t.replicate n (t.node n).replicas s) := by
  cases copies : (t.node n).replicas with
  | nil => exact .sourceless copies
  | cons first rest =>
    have source : (t.node n).replicas.head? = some first := by rw [copies, List.head?_cons]
    have drawn := t.takeAvailable_drawn (t.node n).replicas
    rw [copies] at drawn
    cases found : t.takeAvailable (first :: rest) with
    | mk chosen u =>
      rw [found, ← copies] at drawn
      cases chosen with
      | none =>
        rw [replicate_none found]
        cases drawn with
        | nothing drained spent => exact .placeless (.nothing drained spent)
      | some choice =>
        obtain ⟨target, fromPool⟩ := choice
        by_cases done : (s.copy target.command (t.node n).path first.storage).1 = .ok true
        · have other := drawn.wanted
          obtain ⟨pool, rfl, left⟩ := drawn.leaves
          rw [replicate_copied found other done]
          exact .copied source drawn other done left
        · obtain ⟨pool, back, same, perm⟩ := drawn.given_back
          rw [replicate_refused found done, back]
          exact .refused source drawn done same perm

/-! ## Counting -/

theorem recordRead_counted (file : (t.node n).isFile = true)
    (more : (t.node n).reads + 1 < t.threshold) (s : Servers) :
    t.recordRead n s = (none, t.counted n ((t.node n).reads + 1), s) := by
  simp only [recordRead, file, Bool.not_true, Bool.false_eq_true, if_false, if_pos more]
  rfl

theorem recordRead_attempted (file : (t.node n).isFile = true)
    (due : t.threshold ≤ (t.node n).reads + 1) (s : Servers) :
    t.recordRead n s = (t.counted n 0).replicate n (t.node n).replicas s := by
  simp only [recordRead, file, Bool.not_true, Bool.false_eq_true, if_false,
    if_neg (Nat.not_lt.mpr due)]
  rfl

theorem replicas_counted (t : Tree) (n m : NodeId) (reads : Nat) :
    ((t.counted n reads).node m).replicas = (t.node m).replicas := by
  rw [node_counted]
  split <;> rfl

theorem counted_attempt (t : Tree) (n : NodeId) (s : Servers) :
    (t.counted n 0).Attempt n s ((t.counted n 0).replicate n (t.node n).replicas s) := by
  have attempt := replicate_attempt (t.counted n 0) n s
  rwa [replicas_counted] at attempt

theorem known_of_isFile (file : (t.node n).isFile = true) : n < t.size := by
  by_contra unknown
  rw [node_of_size_le (Nat.not_lt.mp unknown)] at file
  cases file

theorem node_counted_self (file : (t.node n).isFile = true) (reads : Nat) :
    (t.counted n reads).node n = { t.node n with reads } :=
  (node_counted t n n reads).trans (if_pos ⟨rfl, known_of_isFile file⟩)

theorem Leaves.distinct {pool left : List Container} {c : Container} (h : Leaves pool c left)
    (distinct : Container.Distinct pool) : Container.Distinct left := by
  rcases h with ⟨before, after, rfl, rfl⟩ | ⟨-, rfl⟩
  · exact (Container.distinct_cons.mp (distinct.perm List.perm_middle)).2
  · exact distinct

theorem Attempt.distinct (h : t.Attempt n s result) (distinct : Container.Distinct t.pool) :
    Container.Distinct result.2.1.pool := by
  cases h with
  | sourceless | placeless => exact distinct
  | refused _ _ _ _ perm => exact distinct.perm (perm distinct).symm
  | copied _ _ _ _ left => exact left.distinct distinct

theorem Attempt.keeps (h : t.Attempt n s result) :
    (result.2.1.node n).isFile = (t.node n).isFile ∧
      (result.2.1.node n).reads = (t.node n).reads ∧ result.2.1.threshold = t.threshold := by
  cases h with
  | sourceless | placeless | refused => exact ⟨rfl, rfl, rfl⟩
  | @copied first target fromPool pool =>
    have node : (({ t with pool } : Tree).copied n target).node n = _ := node_modify ..
    simp only [node]
    split <;> exact ⟨rfl, rfl, rfl⟩

/-- Shared grants on a file from a tree on, and how many of them were occasions to copy it. Between
two of them everything may change, except that the file stays a file with its count, and the
threshold is the same. -/
inductive Reads (n : NodeId) (t : Tree) : Nat → Nat → Tree → Prop
  | start : Reads n t 0 0 t
  | counted {k a : Nat} {u : Tree} (before : Reads n t k a u) {s : Servers}
      (counted : u.recordRead n s = (none, u.counted n ((u.node n).reads + 1), s)) :
      Reads n t (k + 1) a (u.recordRead n s).2.1
  | attempted {k a : Nat} {u : Tree} (before : Reads n t k a u) {s : Servers}
      (attempted : u.recordRead n s = (u.counted n 0).replicate n (u.node n).replicas s) :
      Reads n t (k + 1) (a + 1) (u.recordRead n s).2.1
  | meanwhile {k a : Nat} {u v : Tree} (before : Reads n t k a u)
      (file : (v.node n).isFile = (u.node n).isFile) (reads : (v.node n).reads = (u.node n).reads)
      (threshold : v.threshold = u.threshold) : Reads n t k a v

namespace Reads

theorem next (h : Reads n t k a u) (file : (u.node n).isFile = true) (s : Servers) :
    ∃ b, Reads n t (k + 1) (a + b) (u.recordRead n s).2.1 := by
  cases Nat.lt_or_ge ((u.node n).reads + 1) u.threshold with
  | inl more => exact ⟨0, h.counted (recordRead_counted file more s)⟩
  | inr due => exact ⟨1, h.attempted (recordRead_attempted file due s)⟩

theorem accounted (h : Reads n t k a u) (file : (t.node n).isFile = true)
    (below : (t.node n).reads < t.threshold) :
    (u.node n).isFile = true ∧ u.threshold = t.threshold ∧ (u.node n).reads < t.threshold ∧
      (t.node n).reads + k = a * t.threshold + (u.node n).reads := by
  induction h with
  | start => exact ⟨file, rfl, below, by omega⟩
  | @counted k a u before s counted ih =>
    obtain ⟨file', threshold, below', account⟩ := ih
    have more : (u.node n).reads + 1 < u.threshold := by
      by_contra due
      have restarted := counted.symm.trans (recordRead_attempted file' (Nat.not_lt.mp due) s)
      have reads := ((counted_attempt u n s).keeps).2.1
      rw [← restarted, node_counted_self file', node_counted_self file'] at reads
      cases reads
    rw [counted, node_counted_self file']
    refine ⟨file', threshold, threshold ▸ more, ?_⟩
    change _ = _ + ((u.node n).reads + 1)
    omega
  | @attempted k a u before s attempted ih =>
    obtain ⟨file', threshold, below', account⟩ := ih
    obtain ⟨file'', reads, threshold'⟩ := (counted_attempt u n s).keeps
    rw [← attempted, node_counted_self file'] at file'' reads
    have due : u.threshold ≤ (u.node n).reads + 1 := by
      by_contra more
      rw [recordRead_counted file' (Nat.not_le.mp more), node_counted_self file'] at reads
      cases reads
    rw [← attempted] at threshold'
    refine ⟨file''.trans file', threshold'.trans threshold, ?_, ?_⟩
    · rw [reads]
      exact Nat.zero_lt_of_lt below
    · rw [reads, Nat.add_mul, Nat.one_mul]
      change _ = _ + 0
      omega
  | meanwhile before file' reads threshold ih =>
    obtain ⟨file, threshold', below', account⟩ := ih
    exact ⟨file'.trans file, threshold.trans threshold', reads ▸ below', reads ▸ account⟩

end Reads

end Tree

/-! ## Reading at the naming server -/

namespace Cluster

variable {c : Cluster} {p : Path} {result : LockAnswer × Catalog}

theorem conclude_shared (c : Cluster) (p : Path) (result : LockAnswer × Catalog) :
    (c.conclude p .shared result).1 = result.1 := by
  obtain ⟨answer, catalog⟩ := result
  cases answer <;> rfl

structure Undisturbed (c : Cluster) (result : LockAnswer × Catalog)
    (outcome : LockAnswer × Cluster) : Prop where
  answer : outcome.1 = result.1
  counted : ∀ target, result.1 = .granted target →
    outcome.2.tree = (c.tree.recordRead target c.servers).2.1
  servers : ∀ target, result.1 = .granted target →
    outcome.2.servers = (c.tree.recordRead target c.servers).2.2

theorem conclude_undisturbed (c : Cluster) (p : Path) (same : result.2.tree = c.tree) :
    c.Undisturbed result (c.conclude p .shared result) := by
  refine ⟨conclude_shared c p _, fun target granted => ?_, fun target granted => ?_⟩
  · rw [tree_conclude c p .shared same, granted]
    rfl
  · obtain ⟨answer, catalog⟩ := result
    obtain rfl : answer = .granted target := granted
    have there : (c.setCatalog catalog).tree = c.tree := same
    simp only [conclude, afterGrant, there]
    rfl

end Cluster

namespace Tree

/-- Shared grants are counted up to the threshold and from there anew. Each time that the count
begins again, an attempt is made to copy the file to the first container that is found (`Attempt`).
The reader is granted his lock in any case. -/
theorem reads_counted {t : Tree} {n : NodeId} (limit : UInt32)
    (threshold : t.threshold = limit.toNat) (file : (t.node n).isFile = true)
    (below : (t.node n).reads < t.threshold) :
    (∀ k a u, Reads n t k a u →
      (u.node n).reads = ((t.node n).reads + k) % t.threshold ∧
      a = ((t.node n).reads + k) / t.threshold ∧
      (u.node n).reads < t.threshold ∧ (u.node n).reads + 1 < UInt32.size ∧
      ∀ s, ∃ b, Reads n t (k + 1) (a + b) (u.recordRead n s).2.1) ∧
    (∀ u s, Attempt u n s (u.replicate n (u.node n).replicas s)) ∧
    ∀ (c : Cluster) (p : Path) (ticket : Ticket),
      (c.naming.stopped = false →
        c.Undisturbed (c.catalog.lock p .shared ticket) (c.lock p .shared ticket)) ∧
      ∀ a : Acquisition, a.mode = .shared →
        c.Undisturbed (c.catalog.resume a ticket) (c.resume a ticket) := by
  refine ⟨fun k a u reads => ?_, fun u s => replicate_attempt u n s, fun c p ticket =>
    ⟨fun running => ?_, fun a shared => ?_⟩⟩
  · obtain ⟨file', -, below', account⟩ := reads.accounted file below
    have positive : 0 < t.threshold := Nat.zero_lt_of_lt below
    have bound : t.threshold < UInt32.size := threshold ▸ limit.toNat_lt_size
    refine ⟨?_, ?_, below', by omega, reads.next file'⟩
    · rw [account, Nat.mul_comm, Nat.mul_add_mod, Nat.mod_eq_of_lt below']
    · rw [account, Nat.mul_comm, Nat.mul_add_div positive, Nat.div_eq_of_lt below', Nat.add_zero]
  · rw [Cluster.lock, running, if_neg Bool.false_ne_true]
    exact Cluster.conclude_undisturbed c p (Catalog.tree_lock ..)
  · rw [Cluster.resume, shared]
    exact Cluster.conclude_undisturbed c a.path (Catalog.tree_resume ..)

def pairTree : Tree := ((empty 2).register .sole (.own "s")).2.addToPool (.own "t")

theorem pairTree_reads_counted :
    let u := (pairTree.recordRead 1 Service.pairServers).2.1
    let v := (u.recordRead 1 Service.pairServers).2.1
    let w := (v.recordRead 1 Service.pairServers).2.1
    (w.node 1).reads = 1 ∧ Reads 1 pairTree 3 1 w ∧
      (w.node 1).replicas = [.own "s", .own "t"] ∧ w.pool = [] := by
  have first := recordRead_counted (t := pairTree) (n := 1) (by decide +kernel)
    (by decide +kernel) Service.pairServers
  have second := recordRead_attempted (t := (pairTree.recordRead 1 Service.pairServers).2.1)
    (n := 1) (by decide +kernel) (by decide +kernel) Service.pairServers
  have third := recordRead_counted (t := ((pairTree.recordRead 1
    Service.pairServers).2.1.recordRead 1 Service.pairServers).2.1) (n := 1) (by decide +kernel)
    (by decide +kernel) Service.pairServers
  have reads := ((Reads.start.counted first).attempted second).counted third
  have counted := (reads_counted (t := pairTree) (n := 1) 2 rfl (by decide +kernel)
    (by decide +kernel)).1 3 1 _ reads
  exact ⟨counted.1, reads, by decide +kernel, by decide +kernel⟩

end Tree

end DistFs
