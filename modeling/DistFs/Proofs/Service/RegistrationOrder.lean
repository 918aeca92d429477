import DistFs.Proofs.Service.Duplicates

namespace DistFs

instance (p q : Path) : Decidable (p.Beside q) := inferInstanceAs (Decidable (_ ∧ _))

abbrev Offered := List (Container × List Path)

namespace Offered

variable {offered offered' : Offered} {d : Container} {p : Path}

def files (offered : Offered) : List Path := (offered.flatMap Prod.snd).filter (· ≠ .root)

theorem files_cons (x : Container × List Path) (offered : Offered) :
    files (x :: offered) = x.2.filter (· ≠ .root) ++ files offered := by
  rw [files, List.flatMap_cons, List.filter_append, files]

theorem mem_files : p ∈ offered.files ↔ ∃ x ∈ offered, p ∈ x.2 ∧ p ≠ .root := by
  simp only [files, List.mem_filter, List.mem_flatMap, decide_eq_true_eq]
  exact ⟨fun ⟨⟨x, listed, member⟩, below⟩ => ⟨x, listed, member, below⟩,
    fun ⟨x, listed, member, below⟩ => ⟨⟨x, listed, member⟩, below⟩⟩

def idle (offered : Offered) : List Container :=
  (offered.filter fun x => x.2.all (· = .root)).map Prod.fst

structure Apart (offered : Offered) : Prop where
  endpoints : offered.Pairwise fun x y =>
    x.1.endpoints.1 ∉ [y.1.endpoints.1, y.1.endpoints.2] ∧
      x.1.endpoints.2 ∉ [y.1.endpoints.1, y.1.endpoints.2]
  files : offered.files.Pairwise Path.Beside

theorem Apart.tail {x : Container × List Path} (apart : Apart (x :: offered)) : offered.Apart := by
  have files := apart.files
  rw [files_cons, List.pairwise_append] at files
  exact ⟨(List.pairwise_cons.mp apart.endpoints).2, files.2.1⟩

theorem Apart.perm (apart : offered.Apart) (perm : offered.Perm offered') : offered'.Apart := by
  refine ⟨perm.pairwise apart.endpoints ?_, ?_⟩
  · intro x y h
    simp only [List.mem_cons, List.not_mem_nil, or_false, not_or] at h ⊢
    exact ⟨⟨Ne.symm h.1.1, Ne.symm h.2.1⟩, ⟨Ne.symm h.1.2, Ne.symm h.2.2⟩⟩
  · exact ((perm.flatMap_right _).filter _).pairwise apart.files fun h => ⟨h.2, h.1⟩

end Offered

namespace Listing

variable {l l' l'' : Listing} {offered offered' : Offered} {d : Container} {kept : List Path}
  {p q : Path}

structure Gathers (offered : Offered) (l l' : Listing) : Prop where
  contains : ∀ q, l'.contains q = true ↔
    l.contains q = true ∨ ∃ p ∈ offered.files, p.isUnder q = true
  holders : ∀ x ∈ offered, ∀ p ∈ x.2, p ≠ .root → l'.holders p = some [x.1]
  others : ∀ q, q ∉ offered.files → l'.holders q = l.holders q

namespace Gathers

theorem nil (l : Listing) : Gathers [] l l :=
  ⟨by simp [Offered.files], by simp, fun _ _ => rfl⟩

theorem cons {files : List Path} (rest : Gathers offered l' l'')
    (beside : (Offered.files ((d, files) :: offered)).Pairwise Path.Beside)
    (first : Extends d kept l l') (same : ∀ p, p ∈ kept ↔ p ∈ files ∧ p ≠ .root) :
    Gathers ((d, files) :: offered) l l'' := by
  have offers (p : Path) : p ∈ Offered.files ((d, files) :: offered) ↔
      p ∈ kept ∨ p ∈ offered.files := by
    rw [Offered.files_cons, List.mem_append, List.mem_filter, decide_eq_true_eq, same]
  rw [Offered.files_cons, List.pairwise_append] at beside
  refine ⟨fun q => ?_, fun x listed p member below => ?_, fun q absent => ?_⟩
  · rw [rest.contains, first.contains]
    simp only [offers]
    grind
  · rcases List.mem_cons.mp listed with rfl | later
    · have own : p ∈ files.filter (· ≠ .root) := List.mem_filter.mpr ⟨member, by simpa using below⟩
      have absent : p ∉ offered.files := by
        intro again
        have apart := (beside.2.2 p own p again).1
        rw [Path.isUnder_refl] at apart
        cases apart
      rw [rest.others p absent, first.holders, if_pos ((same p).mpr ⟨member, below⟩)]
    · exact rest.holders x later p member below
  · rw [offers, not_or] at absent
    rw [rest.others q absent.2, first.holders, if_neg absent.1]

theorem of_perm (h : Gathers offered l l') (perm : offered.Perm offered') :
    Gathers offered' l l' := by
  have members (p : Path) : p ∈ offered'.files ↔ p ∈ offered.files :=
    ((perm.flatMap_right _).filter _).mem_iff.symm
  refine ⟨fun q => ?_, fun x listed => h.holders x (perm.symm.subset listed), fun q absent => ?_⟩
  · simp only [members]
    exact h.contains q
  · exact h.others q fun member => absent ((members q).mpr member)

theorem unique (h : Gathers offered l l') (h' : Gathers offered l l'') (q : Path) :
    l'.contains q = l''.contains q ∧ l'.holders q = l''.holders q := by
  refine ⟨by rw [Bool.eq_iff_iff, h.contains, h'.contains], ?_⟩
  by_cases member : q ∈ offered.files
  · obtain ⟨x, listed, own, below⟩ := Offered.mem_files.mp member
    rw [h.holders x listed q own below, h'.holders x listed q own below]
  · rw [h.others q member, h'.others q member]

end Gathers

theorem Closed.kind_eq (closed : l.Closed) (closed' : l'.Closed)
    (contains : l.contains p = l'.contains p) (file : l.isFile p = l'.isFile p) :
    (l.get? p).map Entry.kind = (l'.get? p).map Entry.kind := by
  unfold PathMap.contains at contains
  unfold isFile at file
  cases here : l.get? p with
  | none =>
    rw [here] at contains
    rw [Option.isSome_eq_false_iff.mp contains.symm |> Option.isNone_iff_eq_none.mp]
  | some e =>
    rw [here] at contains file
    obtain ⟨e', there⟩ := Option.isSome_iff_exists.mp contains.symm
    rw [there] at file ⊢
    have root (same : p = .root) : e.kind = .root ∧ e'.kind = .root := by
      subst same
      obtain ⟨f, first, kind⟩ := closed.root
      obtain ⟨f', first', kind'⟩ := closed'.root
      rw [here] at first
      rw [there] at first'
      cases first
      cases first'
      exact ⟨kind, kind'⟩
    have below := closed.sole p e here
    have below' := closed'.sole p e' there
    simp only [Option.any_some, Entry.isFile, Option.map_some, Option.some.injEq] at file ⊢
    by_cases same : p = .root
    · rw [(root same).1, (root same).2]
    · cases kind : e.kind <;> cases kind' : e'.kind <;> simp_all

end Listing

namespace Cluster

variable {c : Cluster} {l : Listing} {offered offered' : Offered} {d x : Container}

def registerAll (c : Cluster) : Offered → List (Except Error (List Path)) × Cluster
  | [] => ([], c)
  | (d, files) :: rest =>
    let (answer, c) := c.register d files
    let (answers, c) := c.registerAll rest
    (answer :: answers, c)

theorem mem_registered_enroll {e : String} : e ∈ (c.enroll d).naming.registered ↔
    e ∈ c.naming.registered ∨ e = d.endpoints.1 ∨ e = d.endpoints.2 := by
  unfold enroll
  split
  next same => simp [← same]
  next => simp

structure Awaits (c : Cluster) (l : Listing) (offered : Offered) : Prop where
  tidy : c.Tidy
  shows : c.tree.Shows l
  new : ∀ x ∈ offered, x.1.endpoints.1 ∉ c.naming.registered ∧
    x.1.endpoints.2 ∉ c.naming.registered
  room : ∀ p ∈ offered.files, l.isOccupied p = false
  unpooled : ∀ x ∈ offered, x.1.isIn c.tree.pool = false

namespace Awaits

theorem register {files : List Path} (h : c.Awaits l ((d, files) :: offered))
    (apart : Offered.Apart ((d, files) :: offered)) :
    ∃ c' l', c.register d files = (.ok [], c') ∧ c'.Awaits l' offered ∧
      (∃ kept, Listing.Extends d kept l l' ∧ ∀ p, p ∈ kept ↔ p ∈ files ∧ p ≠ .root) ∧
      c'.tree.pool = c.tree.pool ++ Offered.idle [(d, files)] := by
  have new := h.new _ List.mem_cons_self
  obtain ⟨offers, v, l', offerings, rfl, shows, pool, registered⟩ :=
    register_offerings h.shows h.tidy.furnished (not_or.mpr new) files
  obtain ⟨own, -, across⟩ := List.pairwise_append.mp (Offered.files_cons _ offered ▸ apart.files)
  have none := offerings.refusedOf_eq_nil own fun p member =>
    h.room p (Offered.files_cons _ offered ▸ List.mem_append_left _ member)
  have all := offerings.perm
  rw [none, List.append_nil] at all
  have kept (p : Path) : p ∈ addedOf offers ↔ p ∈ offers.map Prod.fst ∧ p ≠ .root := by
    rw [← all.mem_iff, List.mem_filter, decide_eq_true_eq]
  have enters : (if addedOf offers = [] ∧ d.isIn c.tree.pool = false then c.tree.pool ++ [d]
      else c.tree.pool) = c.tree.pool ++ Offered.idle [(d, offers.map Prod.fst)] := by
    have empty : addedOf offers = [] ↔ (offers.map Prod.fst).all (· = .root) = true := by
      rw [List.eq_nil_iff_forall_not_mem]
      simp only [kept, not_and_not_right, List.all_eq_true, decide_eq_true_eq]
    simp only [h.unpooled _ List.mem_cons_self, and_true, empty, Offered.idle, List.filter_cons,
      List.filter_nil]
    split <;> simp
  have tidy := (h.tidy.register d (offers.map Prod.fst)).2
  rw [registered] at tidy
  rw [none] at registered
  refine ⟨_, l', registered, ⟨tidy, shows, fun x later => ?_, fun p later => ?_, fun x later => ?_⟩,
    ⟨_, offerings.extends_added, kept⟩, ?_⟩
  · obtain ⟨first, second⟩ := h.new x (List.mem_cons_of_mem _ later)
    obtain ⟨other, other'⟩ := (List.pairwise_cons.mp apart.endpoints).1 x later
    simp only [List.mem_cons, List.not_mem_nil, or_false, not_or] at other other'
    change x.1.endpoints.1 ∉ (c.enroll d).naming.registered ∧
      x.1.endpoints.2 ∉ (c.enroll d).naming.registered
    simp only [mem_registered_enroll, first, second, false_or, not_or]
    exact ⟨⟨Ne.symm other.1, Ne.symm other'.1⟩, ⟨Ne.symm other.2, Ne.symm other'.2⟩⟩
  · rw [offerings.extends_added.isOccupied fun r member =>
      across r (all.symm.subset member) p later]
    exact h.room p (Offered.files_cons _ offered ▸ List.mem_append_right _ later)
  · have other : d.endpoints ≠ x.1.endpoints := by
      intro same
      exact ((List.pairwise_cons.mp apart.endpoints).1 x later).1 (same ▸ List.mem_cons_self)
    have before := h.unpooled x (List.mem_cons_of_mem _ later)
    unfold Container.isIn at before ⊢
    rw [tree_setTree, pool, enters]
    simpa [List.any_append, before, Offered.idle] using fun _ => other
  · rw [tree_setTree, pool, enters]

end Awaits

theorem registerAll_gathers (h : c.Awaits l offered) (apart : offered.Apart) :
    (c.registerAll offered).1 = offered.map (fun _ => .ok []) ∧
      (∃ l', (c.registerAll offered).2.tree.Shows l' ∧ Listing.Gathers offered l l') ∧
      (c.registerAll offered).2.tree.pool = c.tree.pool ++ offered.idle := by
  induction offered generalizing c l with
  | nil => exact ⟨rfl, ⟨l, h.shows, .nil l⟩, (List.append_nil _).symm⟩
  | cons x offered ih =>
    obtain ⟨d, files⟩ := x
    obtain ⟨c', l', registered, after, ⟨kept, first, same⟩, pool⟩ := h.register apart
    obtain ⟨answers, ⟨l'', shows, rest⟩, pool'⟩ := ih after apart.tail
    simp only [registerAll, registered, List.map_cons]
    refine ⟨congrArg _ answers, ⟨l'', shows, rest.cons apart.files first same⟩, ?_⟩
    rw [pool', pool, List.append_assoc, Offered.idle, Offered.idle, Offered.idle, ← List.map_append,
      ← List.filter_append, List.singleton_append]

theorem awaits_start (config : NamingConfig) (servers : Servers) (offered : Offered) :
    (Service.start config servers).cluster.Awaits Listing.initial offered := by
  refine ⟨⟨Tree.wellFormed_empty _, Tree.furnished_empty _⟩, .empty _, fun x _ => ⟨nofun, nofun⟩,
    fun p member => ?_, fun x _ => rfl⟩
  obtain ⟨-, -, -, below⟩ := Offered.mem_files.mp member
  have only (q : Path) :
      Listing.initial.get? q = if q = .root then some { kind := .root } else none :=
    PathMap.get?_insert ..
  rw [Bool.eq_false_iff, ne_eq, Listing.isOccupied_iff]
  rintro (there | ⟨q, -, file⟩)
  · simp [PathMap.contains, only, below] at there
  · unfold Listing.isFile at file
    rw [only] at file
    split at file <;> cases file

/-- Whatever the order in which servers register that have nothing in common, nothing is refused,
each file has its one copy, all paths have the same kinds, and the pool the same containers. -/
theorem registration_order_free (config : NamingConfig) (servers : Servers)
    (apart : offered.Apart) (perm : offered.Perm offered') :
    let first := (Service.start config servers).cluster.registerAll offered
    let second := (Service.start config servers).cluster.registerAll offered'
    (first.1 = offered.map (fun _ => .ok []) ∧ second.1 = offered'.map fun _ => .ok []) ∧
    (∀ q, (first.2.tree.entry? q).map Entry.kind = (second.2.tree.entry? q).map Entry.kind) ∧
    (∀ q, first.2.tree.holders q = second.2.tree.holders q) ∧
    (∀ x ∈ offered, ∀ p ∈ x.2, p ≠ .root → first.2.tree.holders p = some [x.1]) ∧
    first.2.tree.pool.Perm second.2.tree.pool := by
  intro first second
  obtain ⟨answers, ⟨l, shows, gathers⟩, pool⟩ :=
    registerAll_gathers (awaits_start config servers offered) apart
  obtain ⟨answers', ⟨l', shows', gathers'⟩, pool'⟩ :=
    registerAll_gathers (awaits_start config servers offered') (apart.perm perm)
  have same := gathers.unique (gathers'.of_perm perm.symm)
  refine ⟨⟨answers, answers'⟩, fun q => ?_, fun q => ?_, fun x listed p member below => ?_, ?_⟩
  · rw [shows.entry?, shows'.entry?]
    refine shows.closed.kind_eq shows'.closed (same q).1 ?_
    rw [← Listing.isSome_holders, ← Listing.isSome_holders, (same q).2]
  · rw [shows.holders, shows'.holders, (same q).2]
  · rw [shows.holders, gathers.holders x listed p member below]
  · rw [pool, pool']
    exact ((perm.filter _).map _).append_left _

def shared : Offered :=
  let file (name : Name) : Path := .child .sole name
  [(⟨.direct "s", .direct "s"⟩, [.root, file ⟨"first", by decide, by decide, by decide⟩]),
    (⟨.direct "t", .direct "t"⟩, [file ⟨"second", by decide, by decide, by decide⟩]),
    (⟨.direct "u", .direct "u"⟩, [])]

theorem shared_order_free :
    let first := (Service.start {} {}).cluster.registerAll shared
    let second := (Service.start {} {}).cluster.registerAll shared.reverse
    second.1 = [.ok [], .ok [], .ok []] ∧
    (first.2.tree.entry? .sole).map Entry.kind = (second.2.tree.entry? .sole).map Entry.kind ∧
    first.2.tree.entry? .sole ≠ second.2.tree.entry? .sole := by
  have apart : shared.Apart := ⟨by decide +kernel, by decide +kernel⟩
  have free := registration_order_free {} {} apart (List.reverse_perm shared).symm
  exact ⟨free.1.2, free.2.1 .sole, by decide +kernel⟩

end Cluster

end DistFs
