import DistFs.Proofs.Service.Offers
import DistFs.Proofs.Service.Requests
import DistFs.Proofs.Tree.Contents
/-!
# Files that a container has to give up

A container offers its files in turn, and each is passed over, refused or added. What is added
depends on what the tree held before and on the files added before it; in the end the tree has the
files that were added, and the directories that they need, whatever their order (`Adds`). A file
that is refused leaves a trace only if its path goes through a file: the root is given a home first.
-/

namespace DistFs

namespace Listing

variable {l l' l'' m : Listing} {p q : Path} {d : Container} {kept kept' files : List Path}

/-! ## Added files -/

/-- The second listing has files of the container in addition, and as directories that live in it
all paths above them which had no entry. -/
def Adds (d : Container) (kept : List Path) (l l' : Listing) : Prop :=
  ∀ q, l'.get? q =
    if q ∈ kept then some { kind := .file, replicas := [d] }
    else l.get? q <|>
      if kept.any (·.isUnder q) then some { kind := .directory, home := some d } else none

namespace Adds

theorem refl (d : Container) (l : Listing) : Adds d [] l l := fun q => by simp

theorem nothing (h : Adds d [] l l') (q : Path) : l'.get? q = l.get? q := by
  simpa using h q

theorem of_same (h : Adds d kept l l') (same : ∀ q, m.get? q = l.get? q) : Adds d kept m l' :=
  fun q => by rw [same, h q]

theorem trans (h : Adds d kept l l') (h' : Adds d kept' l' l'') :
    Adds d (kept ++ kept') l l'' := by
  intro q
  rw [h' q, h q]
  by_cases later : q ∈ kept'
  · simp [later]
  · by_cases first : q ∈ kept
    · simp [later, first]
    · simp only [later, first, List.mem_append, or_self, if_false, List.any_append]
      cases l.get? q with
      | some e => simp
      | none => cases kept.any (·.isUnder q) <;> simp

theorem file (d : Container) (l : Listing) (p : Path) :
    Adds d [p] l ((l.establish d p.ancestors).insert p { kind := .file, replicas := [d] }) := by
  intro q
  rw [PathMap.get?_insert, get?_establish]
  by_cases here : q = p
  · simp [here]
  · simp [here, Path.mem_ancestors]

theorem toExtends (h : Adds d kept l l') : Extends d kept l l' := by
  refine ⟨fun q => ?_, fun q => ?_⟩
  · rw [PathMap.contains, h q, PathMap.contains]
    by_cases added : q ∈ kept
    · simp only [added, if_true, Option.isSome_some, true_iff]
      exact .inr ⟨q, added, Path.isUnder_refl q⟩
    · cases l.get? q with
      | some e => simp [added]
      | none => cases above : kept.any (·.isUnder q) <;> simp_all
  · rw [holders, h q, holders]
    by_cases added : q ∈ kept
    · simp [added, Option.filter, Entry.isFile]
    · cases l.get? q with
      | some e => simp [added]
      | none =>
        cases above : kept.any (·.isUnder q) <;> simp [added, Option.filter, Entry.isFile]

theorem unique (h : Adds d kept l l') (h' : Adds d kept' m l'') (same : ∀ q, l.get? q = m.get? q)
    (members : ∀ p, p ∈ kept ↔ p ∈ kept') (q : Path) : l'.get? q = l''.get? q := by
  have above : kept.any (·.isUnder q) = kept'.any (·.isUnder q) := by
    rw [Bool.eq_iff_iff]
    simp only [List.any_eq_true, members]
  rw [h q, h' q, same, above]
  simp only [members]

end Adds

theorem contains_eq_false (free : l.isOccupied q = false) : l.contains q = false := by
  refine eq_false_of_ne_true fun there => ?_
  rw [isOccupied_iff.mpr (.inl there)] at free
  cases free

theorem Extends.isOccupied_of (h : Extends d kept l l') (free : l'.isOccupied q = false) :
    l.isOccupied q = false ∧ ∀ p ∈ kept, p.Beside q := by
  rw [Bool.eq_false_iff, ne_eq, isOccupied_iff, not_or] at free ⊢
  obtain ⟨absent, clear⟩ := free
  rw [h.contains, not_or] at absent
  have files (r : Path) (above : r ∈ q.ancestors) : r ∉ kept ∧ l.isFile r = false := by
    have there : l'.isFile r ≠ true := fun file => clear ⟨r, above, file⟩
    rw [← isSome_holders, h.holders] at there
    by_cases added : r ∈ kept
    · simp [added] at there
    · exact ⟨added, by simpa [added, isSome_holders] using there⟩
  refine ⟨⟨absent.1, ?_⟩, fun p added => ⟨?_, ?_⟩⟩
  · rintro ⟨r, above, file⟩
    rw [(files r above).2] at file
    cases file
  · exact eq_false_of_ne_true fun under => absent.2 ⟨p, added, under⟩
  · refine eq_false_of_ne_true fun under => ?_
    have other : p ≠ q := by
      rintro rfl
      exact absent.2 ⟨p, added, under⟩
    exact (files p (Path.mem_ancestors.mpr ⟨under, other⟩)).1 added

/-! ## The home of the root -/

/-- The listing after files were offered, but for the files that were added: the first of them which
has no entry gives the root a home. -/
def touch (l : Listing) (d : Container) (files : List Path) : Listing :=
  if ∃ p ∈ files, p ≠ .root ∧ l.contains p = false then l.settle d else l

theorem settle_settled (there : l.contains .root = true) (h : Adds d kept (l.settle d) l')
    (below : .root ∉ kept) (q : Path) : (l'.settle d).get? q = l'.get? q := by
  rw [get?_settle]
  split
  next root =>
    obtain ⟨e, entry⟩ := PathMap.contains_iff.mp there
    rw [root, h, if_neg below, get?_settle, if_pos rfl, entry]
    cases home : e.home <;> simp [home]
  next => rfl

end Listing

namespace Cluster

variable {c : Cluster} {t : Tree} {l l' : Listing} {p q : Path} {d : Container} {offer : Offer}
  {offers : List (Path × Offer)} {files : List Path}

open Listing

def addedOf (offers : List (Path × Offer)) : List Path :=
  (offers.filter (·.2 = .added)).map Prod.fst

def refusedOf (offers : List (Path × Offer)) : List Path :=
  (offers.filter (·.2 = .duplicate)).map Prod.fst

/-! ## One file -/

inductive Offering (d : Container) (l : Listing) (p : Path) : Offer → Listing → Prop
  | skipped (root : p = .root) : Offering d l p .skipped l
  | present (below : p ≠ .root) (there : l.contains p = true) : Offering d l p .duplicate l
  | obstructed (below : p ≠ .root) (absent : l.contains p = false)
      (full : l.isOccupied p = true) : Offering d l p .duplicate (l.settle d)
  | added {l' : Listing} (below : p ≠ .root) (free : l.isOccupied p = false)
      (adds : Adds d [p] (l.settle d) l') : Offering d l p .added l'

theorem recordFile_offering (h : t.Shows l) (d : Container) (p : Path) :
    ∃ offer v l', recordFile d p t = (.ok offer, v) ∧ v.Shows l' ∧ Offering d l p offer l' := by
  unfold recordFile
  split
  next root => exact ⟨_, t, l, rfl, h, .skipped (Path.isRoot_iff.mp root)⟩
  next inside =>
    have below : p ≠ .root := fun root => inside (Path.isRoot_iff.mpr root)
    split
    next there => exact ⟨_, t, l, rfl, h, .present below ((h.contains p).trans there)⟩
    next absent =>
      have absent : l.contains p = false := (h.contains p).trans (eq_false_of_ne_true absent)
      obtain ⟨answer, shows⟩ := h.register p d
      have occupied : (l.settle d).isOccupied p = l.isOccupied p :=
        (Extends.settle d l).isOccupied (by simp)
      obtain ⟨outcome, u, registered⟩ : ∃ outcome u, t.register p d = (outcome, u) := ⟨_, _, rfl⟩
      simp only [Tree.perform, registered, Listing.perform] at answer shows
      rw [registered]
      cases obstacle : (l.settle d).obstacle p with
      | some e =>
        have full : l.isOccupied p = true := by rw [← occupied, isOccupied, obstacle]; rfl
        rw [obstacle] at answer shows
        cases outcome with
        | ok n => cases answer
        | error e' =>
          refine ⟨.duplicate, u, l.settle d, ?_, shows, .obstructed below absent full⟩
          rcases Tree.register_error registered with ⟨q, rfl⟩ | ⟨q, rfl⟩ <;> rfl
      | none =>
        have free : l.isOccupied p = false := by rw [← occupied, isOccupied, obstacle]; rfl
        rw [obstacle] at answer shows
        cases outcome with
        | error e' => cases answer
        | ok n => exact ⟨.added, u, _, rfl, shows, .added below free (.file d _ p)⟩

namespace Offering

theorem absent (h : Offering d l p .added l') : p ≠ .root ∧ l.contains p = false := by
  cases h with
  | added below free => exact ⟨below, contains_eq_false free⟩

theorem adds (h : Offering d l p offer l') :
    Adds d (addedOf [(p, offer)]) (l.touch d [p]) l' := by
  cases h with
  | skipped root => simpa [addedOf, touch, root] using Adds.refl d l
  | present below there => simpa [addedOf, touch, there] using Adds.refl d l
  | obstructed below absent => simpa [addedOf, touch, absent, below] using Adds.refl d _
  | added below free adds =>
    have absent := (Offering.added below free adds).absent
    simpa [addedOf, touch, absent] using adds

theorem extends_added (h : Offering d l p offer l') :
    Extends d (addedOf [(p, offer)]) l l' := by
  have touched : Extends d [] l (l.touch d [p]) := by
    unfold touch
    split
    · exact .settle d l
    · exact .refl d l
  exact touched.trans h.adds.toExtends

theorem added_iff (h : Offering d l p offer l') :
    offer = .added ↔ p ≠ .root ∧ l.isOccupied p = false := by
  cases h with
  | skipped root => simp [root]
  | present below there => simp [isOccupied_iff.mpr (.inl there)]
  | obstructed below absent full => simp [full]
  | added below free => simp [below, free]

end Offering

/-! ## All files in turn -/

inductive Offerings (d : Container) : Listing → List (Path × Offer) → Listing → Prop
  | nil (l : Listing) : Offerings d l [] l
  | cons {l l' l'' : Listing} {p : Path} {offer : Offer} {offers : List (Path × Offer)}
      (first : Offering d l p offer l') (rest : Offerings d l' offers l'') :
      Offerings d l ((p, offer) :: offers) l''

theorem recordFiles_offerings (h : t.Shows l) (d : Container) (files : List Path) :
    ∃ offers v l', recordFiles d files t = (.ok offers, v) ∧ v.Shows l' ∧
      Offerings d l offers l' ∧ offers.map Prod.fst = files := by
  induction files generalizing t l with
  | nil => exact ⟨[], t, l, rfl, h, .nil l, rfl⟩
  | cons p rest ih =>
    obtain ⟨offer, v, l', recorded, shows, first⟩ := recordFile_offering h d p
    obtain ⟨offers, u, l'', later, shows', others, paths⟩ := ih shows
    refine ⟨(p, offer) :: offers, u, l'', ?_, shows', .cons first others, by simp [paths]⟩
    rw [recordFiles, recorded]
    simp only [later, Except.map]

theorem addedOf_cons (x : Path × Offer) (offers : List (Path × Offer)) :
    addedOf (x :: offers) = addedOf [x] ++ addedOf offers := by
  rw [addedOf, addedOf, addedOf, ← List.map_append, ← List.filter_append, List.singleton_append]

namespace Offerings

theorem free (h : Offerings d l offers l') :
    (∀ p ∈ addedOf offers, p ≠ .root ∧ l.isOccupied p = false) ∧
      (addedOf offers).Pairwise Path.Beside := by
  induction h with
  | nil => simp [addedOf]
  | @cons l l' l'' p offer offers first rest ih =>
    obtain ⟨free, beside⟩ := ih
    have before (q : Path) (later : q ∈ addedOf offers) :=
      first.extends_added.isOccupied_of (free q later).2
    rw [addedOf_cons, List.pairwise_append]
    refine ⟨fun q member => ?_, ?_, beside, fun r here q later => (before q later).2 r here⟩
    · rcases List.mem_append.mp member with here | later
      · cases offer with
        | added =>
          obtain rfl : q = p := by simpa [addedOf] using here
          exact first.added_iff.mp rfl
        | _ => simp [addedOf] at here
      · exact ⟨(free q later).1, (before q later).1⟩
    · cases offer <;> simp [addedOf]

theorem adds (h : Offerings d l offers l') (there : l.contains .root = true) :
    Adds d (addedOf offers) (l.touch d (offers.map Prod.fst)) l' := by
  induction h with
  | nil l => exact .refl d l
  | @cons l l' l'' p offer offers first rest ih =>
    have later := ih (first.extends_added.contains .root |>.mpr (.inl there))
    have one := first.adds
    rw [addedOf_cons, List.map_cons]
    by_cases new : p ≠ .root ∧ l.contains p = false
    · -- From here on the root has a home, which no later offer changes.
      have settled (files : List Path) : l.touch d (p :: files) = l.settle d := by
        rw [touch, if_pos ⟨p, List.mem_cons_self, new⟩]
      rw [settled] at one ⊢
      refine one.trans (later.of_same fun q => ?_)
      unfold touch
      split
      · refine (settle_settled there one (fun root => new.1 ?_) q).symm
        cases offer <;> simp_all [addedOf]
      · rfl
    · have same (files : List Path) : l.touch d (p :: files) = l.touch d files := by
        simp only [touch, List.exists_mem_cons_iff, new, false_or]
      have old : l' = l ∧ addedOf [(p, offer)] = [] := by
        cases first with
        | skipped => exact ⟨rfl, rfl⟩
        | present => exact ⟨rfl, rfl⟩
        | obstructed below absent => exact absurd ⟨below, absent⟩ new
        | added below free adds => exact absurd (Offering.added below free adds).absent new
      obtain ⟨rfl, none⟩ := old
      rwa [same, none, List.nil_append]

theorem extends_added (h : Offerings d l offers l') : Extends d (addedOf offers) l l' := by
  induction h with
  | nil l => exact .refl d l
  | cons first rest ih =>
    rw [addedOf_cons]
    exact first.extends_added.trans ih

theorem perm (h : Offerings d l offers l') :
    ((offers.map Prod.fst).filter (· ≠ .root)).Perm (addedOf offers ++ refusedOf offers) := by
  induction h with
  | nil => exact .refl _
  | @cons l l' l'' p offer offers first rest ih =>
    rw [List.map_cons, List.filter_cons]
    cases first with
    | skipped root => simpa [root, addedOf, refusedOf] using ih
    | present below | obstructed below =>
      simpa [below, addedOf, refusedOf] using (ih.cons p).trans List.perm_middle.symm
    | added below => simpa [below, addedOf, refusedOf] using ih

theorem refusedOf_eq_nil (h : Offerings d l offers l')
    (beside : ((offers.map Prod.fst).filter (· ≠ .root)).Pairwise Path.Beside)
    (free : ∀ p ∈ (offers.map Prod.fst).filter (· ≠ .root), l.isOccupied p = false) :
    refusedOf offers = [] := by
  induction h with
  | nil => rfl
  | @cons l l' l'' p offer offers first rest ih =>
    rw [List.map_cons, List.filter_cons] at beside free
    cases first with
    | skipped root =>
      rw [if_neg (by simp [root])] at beside free
      exact ih beside free
    | present below there =>
      have absent := contains_eq_false (free p (by simp [below]))
      exact absurd (there.symm.trans absent) (by simp)
    | obstructed below absent full =>
      exact absurd (full.symm.trans (free p (by simp [below]))) (by simp)
    | added below room adds =>
      rw [if_pos (by simp [below]), List.pairwise_cons] at beside
      rw [if_pos (by simp [below])] at free
      have extended := (Extends.settle d l).trans adds.toExtends
      refine ih beside.2 fun q later => ?_
      rw [extended.isOccupied]
      · exact free q (List.mem_cons_of_mem _ later)
      · simpa using beside.1 q later

theorem of_rest {offers' : List (Path × Offer)} {l'' : Listing} (h : Offerings d l offers l')
    (h' : Offerings d l offers' l'')
    (perm : (offers.map Prod.fst).Perm (offers'.map Prod.fst ++ refusedOf offers)) :
    refusedOf offers' = [] ∧ (addedOf offers').Perm (addedOf offers) := by
  obtain ⟨free, beside⟩ := h.free
  have below : (refusedOf offers).filter (· ≠ .root) = refusedOf offers := by
    refine List.filter_eq_self.mpr fun p refused => ?_
    exact (List.mem_filter.mp (h.perm.symm.subset (List.mem_append_right _ refused))).2
  have rest : ((offers'.map Prod.fst).filter (· ≠ .root)).Perm (addedOf offers) := by
    have both := perm.filter (· ≠ .root)
    rw [List.filter_append, below] at both
    exact (List.perm_append_right_iff _).mp (both.symm.trans h.perm)
  have none := h'.refusedOf_eq_nil (rest.symm.pairwise beside fun h => ⟨h.2, h.1⟩)
    fun p member => (free p (rest.subset member)).2
  have all := h'.perm
  rw [none, List.append_nil] at all
  exact ⟨none, all.symm.trans rest⟩

theorem get?_of_rest {offers' : List (Path × Offer)} {l'' : Listing} (h : Offerings d l offers l')
    (h' : Offerings d l offers' l'') (there : l.contains .root = true)
    (perm : (offers.map Prod.fst).Perm (offers'.map Prod.fst ++ refusedOf offers)) (q : Path) :
    l'.get? q =
      if q = .root ∧ (∀ p ∈ offers'.map Prod.fst, p = .root) ∧
        ∃ p ∈ offers.map Prod.fst, p ≠ .root ∧ l.contains p = false then
        (l''.get? q).map fun e => { e with home := e.home <|> some d }
      else l''.get? q := by
  have same := (h.of_rest h' perm).2
  have whole := h.adds there
  have part := h'.adds there
  by_cases none : ∀ p ∈ offers'.map Prod.fst, p = .root
  · have nothing : addedOf offers' = [] := by
      refine List.eq_nil_iff_forall_not_mem.mpr fun p added => (h'.free.1 p added).1 (none p ?_)
      exact (List.mem_filter.mp (h'.perm.symm.subset (List.mem_append_left _ added))).1
    have untouched : l.touch d (offers'.map Prod.fst) = l :=
      if_neg fun ⟨p, offered, below, _⟩ => below (none p offered)
    rw [nothing] at same
    rw [nothing, untouched] at part
    rw [same.symm.eq_nil] at whole
    rw [whole.nothing, part.nothing, touch]
    split
    next fresh =>
      rw [get?_settle]
      exact if_congr ⟨fun root => ⟨root, none, fresh⟩, And.left⟩ rfl rfl
    next old => rw [if_neg fun h => old h.2.2]
  · rw [if_neg fun h => none h.2.1]
    push Not at none
    obtain ⟨p, offered, below⟩ := none
    have added : p ∈ addedOf offers' := by
      have all := h'.perm
      rw [(h.of_rest h' perm).1, List.append_nil] at all
      exact all.subset (List.mem_filter.mpr ⟨offered, decide_eq_true below⟩)
    have absent := contains_eq_false (h'.free.1 p added).2
    have offered' : p ∈ offers.map Prod.fst := perm.symm.subset (List.mem_append_left _ offered)
    rw [touch, if_pos ⟨p, offered', below, absent⟩] at whole
    rw [touch, if_pos ⟨p, offered, below, absent⟩] at part
    exact whole.unique part (fun _ => rfl) (fun r => same.symm.mem_iff) q

end Offerings

/-! ## Registering -/

theorem register_offerings (h : c.tree.Shows l) (furnished : c.tree.Furnished)
    (new : ¬ (d.endpoints.1 ∈ c.naming.registered ∨ d.endpoints.2 ∈ c.naming.registered))
    (files : List Path) :
    ∃ offers v l', Offerings d l offers l' ∧ offers.map Prod.fst = files ∧ v.Shows l' ∧
      v.pool = (if addedOf offers = [] ∧ d.isIn c.tree.pool = false then c.tree.pool ++ [d]
        else c.tree.pool) ∧
      c.register d files = (.ok (refusedOf offers), (c.enroll d).setTree v c.servers) := by
  obtain ⟨offers, v, l', recorded, shows, offerings, paths⟩ := recordFiles_offerings h d files
  obtain ⟨offers', v', same, done, -⟩ := recordFiles_recorded h.wf d files
  rw [recorded] at same
  obtain ⟨rfl, rfl⟩ : offers = offers' ∧ v = v' := by simpa using same
  have pool := (done.keeps h.wf furnished).2.2.2
  have none : addedOf offers = [] ↔ offers.any (·.2 = .added) = false := by
    simp [addedOf, List.filter_eq_nil_iff]
  have unfolded : c.register d files = (.ok (refusedOf offers), (c.enroll d).setTree
      (if offers.any (·.2 = .added) then v else v.addToPool d) c.servers) := by
    have same : (c.enroll d).tree = c.tree := rfl
    rw [← same] at recorded
    unfold register
    unfold enroll at recorded ⊢
    simp only [if_neg new, recorded, refusedOf]
  rw [unfolded]
  refine ⟨offers, _, l', offerings, paths, ?_, ?_, rfl⟩
  · split
    · exact shows
    · exact shows.addToPool d
  · simp only [none]
    cases offers.any (·.2 = .added) with
    | true => simpa using pool
    | false =>
      unfold Tree.addToPool
      cases present : d.isIn c.tree.pool <;> simp [pool, present]

end Cluster

namespace Service

variable {s : Service} {config : NamingConfig} {strict : Prop} {d : Container}

open Cluster Listing

/-- Without the files that are refused, in whatever order the others come, a new container brings
about the same pool and the same tree, but for the home of the root: if nothing is added, and a file
was offered whose path goes through a file of the tree, then a root without a home is given one. -/
theorem register_without_refused (run : Requested config strict s)
    (new : ¬ (d.endpoints.1 ∈ s.cluster.naming.registered ∨
      d.endpoints.2 ∈ s.cluster.naming.registered)) (files : List Path) :
    ∃ refused, (s.cluster.register d files).1 = .ok refused ∧
      ∀ rest, files.Perm (rest ++ refused) →
        (s.cluster.register d rest).1 = .ok [] ∧
        (s.cluster.register d files).2.tree.pool = (s.cluster.register d rest).2.tree.pool ∧
        ∀ q, (s.cluster.register d files).2.tree.entry? q =
          if q = .root ∧ (∀ p ∈ rest, p = .root) ∧
            ∃ p ∈ files, p ≠ .root ∧ s.tree.contains p = false then
            ((s.cluster.register d rest).2.tree.entry? q).map fun e =>
              { e with home := e.home <|> some d }
          else (s.cluster.register d rest).2.tree.entry? q := by
  have inOrder := run.inOrder
  obtain ⟨l, h⟩ := Tree.exists_shows inOrder.sound.tree
  obtain ⟨offers, v, l', offerings, rfl, shows, pool, registered⟩ :=
    register_offerings h inOrder.furnished new files
  rw [registered]
  refine ⟨refusedOf offers, rfl, fun rest perm => ?_⟩
  obtain ⟨offers', v', l'', offerings', rfl, shows', pool', registered'⟩ :=
    register_offerings h inOrder.furnished new rest
  obtain ⟨none, same⟩ := offerings.of_rest offerings' perm
  have empty : addedOf offers' = [] ↔ addedOf offers = [] :=
    ⟨fun nothing => (nothing ▸ same).symm.eq_nil, fun nothing => (nothing ▸ same).eq_nil⟩
  rw [registered', none]
  refine ⟨rfl, ?_, fun q => ?_⟩
  · simp only [tree_setTree, pool, pool', empty]
  · have known (p : Path) : s.tree.contains p = l.contains p := (h.contains p).symm
    simp only [tree_setTree, shows.entry?, shows'.entry?, known]
    exact offerings.get?_of_rest offerings' (h.contains .root) perm q

def homeless : Service :=
  (start {} { servers := [("s", { backend := .memory {} })] }).run
    [.register ⟨.direct "s", .direct "s"⟩ [], .createFile .sole]

theorem homeless_finds_home :
    let d : Container := ⟨.direct "t", .direct "t"⟩
    let beyond : Path := .child .sole ⟨"b", by decide, by decide, by decide⟩
    (homeless.cluster.register d [beyond]).1 = .ok [beyond] ∧
    (homeless.cluster.register d []).2.tree.entry? .root = some { kind := .root } ∧
    (homeless.cluster.register d [beyond]).2.tree.entry? .root =
      some { kind := .root, home := some d } := by
  intro d beyond
  have run : Requested {} False homeless := Reached.run (.start _) (by decide +kernel)
  have answer : (homeless.cluster.register d [beyond]).1 = .ok [beyond] := by decide +kernel
  have plain : (homeless.cluster.register d []).2.tree.entry? .root = some { kind := .root } := by
    decide +kernel
  have new : ¬ (d.endpoints.1 ∈ homeless.cluster.naming.registered ∨
      d.endpoints.2 ∈ homeless.cluster.naming.registered) := by decide +kernel
  obtain ⟨refused, same, rest⟩ := register_without_refused run new [beyond]
  obtain rfl : [beyond] = refused := Except.ok.inj (answer.symm.trans same)
  have absent : homeless.tree.contains beyond = false := by decide +kernel
  have below : beyond ≠ .root := by decide
  refine ⟨answer, plain, ?_⟩
  rw [(rest [] (.refl _)).2.2 .root, plain]
  simp [absent, below]

end Service

end DistFs
