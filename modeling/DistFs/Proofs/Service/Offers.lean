import DistFs.Proofs.Service.Registration
import DistFs.Proofs.Service.Replicas
import DistFs.Proofs.Tree.Refinement
/-!
# The files of a new container

What a container offers is decided file by file, by what the tree holds at that moment. As long as
no file of the container lies below another one, it might as well be decided by what the tree held
before the first: the container gives up the files whose place was occupied then, and the tree gets
all others.
-/

namespace DistFs

def Path.Beside (p q : Path) : Prop := p.isUnder q = false ∧ q.isUnder p = false

namespace Listing

variable {l l' l'' : Listing} {p q : Path} {d : Container} {kept kept' : List Path}

def holders (l : Listing) (p : Path) : Option (List Container) :=
  ((l.get? p).filter Entry.isFile).map Entry.replicas

theorem isSome_holders (l : Listing) (p : Path) : (l.holders p).isSome = l.isFile p := by
  rw [holders, isFile]
  cases there : l.get? p with
  | none => rfl
  | some e => cases file : e.isFile <;> simp [Option.filter, file]

def isOccupied (l : Listing) (p : Path) : Bool := (l.obstacle p).isSome

theorem isOccupied_iff :
    l.isOccupied p = true ↔ l.contains p = true ∨ ∃ q ∈ p.ancestors, l.isFile q = true := by
  unfold isOccupied obstacle
  cases above : p.ancestors.find? l.isFile with
  | none =>
    have clear := List.find?_eq_none.mp above
    by_cases there : l.contains p = true
    · simp [there]
    · simpa [there] using clear
  | some q =>
    have file := List.find?_some above
    simpa using .inr ⟨q, List.mem_of_find?_eq_some above, file⟩

/-- The second listing has files of the container that the first had not, and the directories that
they need, and is like the first otherwise. -/
structure Extends (d : Container) (kept : List Path) (l l' : Listing) : Prop where
  contains : ∀ q, l'.contains q = true ↔ l.contains q = true ∨ ∃ p ∈ kept, p.isUnder q = true
  holders : ∀ q, l'.holders q = if q ∈ kept then some [d] else l.holders q

namespace Extends

theorem refl (d : Container) (l : Listing) : Extends d [] l l := ⟨by simp, by simp⟩

theorem trans (h : Extends d kept l l') (h' : Extends d kept' l' l'') :
    Extends d (kept ++ kept') l l'' := by
  refine ⟨fun q => ?_, fun q => ?_⟩
  · rw [h'.contains, h.contains]
    simp only [List.mem_append]
    grind
  · rw [h'.holders, h.holders]
    by_cases later : q ∈ kept' <;> by_cases first : q ∈ kept <;> simp [later, first]

theorem isOccupied (h : Extends d kept l l') (beside : ∀ p ∈ kept, p.Beside q) :
    l'.isOccupied q = l.isOccupied q := by
  have contains : l'.contains q = true ↔ l.contains q = true := by
    rw [h.contains]
    refine or_iff_left ?_
    rintro ⟨p, member, under⟩
    rw [(beside p member).1] at under
    cases under
  have files (r : Path) (above : r ∈ q.ancestors) : l'.isFile r = l.isFile r := by
    rw [← isSome_holders, h.holders, if_neg, isSome_holders]
    intro member
    have under := (Path.mem_ancestors.mp above).1
    rw [(beside r member).2] at under
    cases under
  rw [Bool.eq_iff_iff, isOccupied_iff, isOccupied_iff, contains]
  exact or_congr_right (exists_congr fun r => and_congr_right fun above => by rw [files r above])

theorem settle (d : Container) (l : Listing) : Extends d [] l (l.settle d) := by
  refine ⟨fun q => ?_, fun q => ?_⟩
  · rw [PathMap.contains, get?_settle]
    split <;> simp [PathMap.contains]
  · rw [Listing.holders, get?_settle, if_neg List.not_mem_nil, Listing.holders]
    split
    · cases l.get? q with
      | none => rfl
      | some e => cases file : e.isFile <;> simp_all [Option.filter, Entry.isFile]
    · rfl

theorem file (d : Container) (l : Listing) (p : Path) :
    Extends d [p] l ((l.establish d p.ancestors).insert p { kind := .file, replicas := [d] }) := by
  have ways (q : Path) : p.isUnder q = true ↔ q = p ∨ q ∈ p.ancestors := by
    rw [Path.mem_ancestors]
    by_cases same : q = p <;> simp [same, Path.isUnder_refl]
  refine ⟨fun q => ?_, fun q => ?_⟩
  · rw [PathMap.contains_insert, PathMap.contains, get?_establish, PathMap.contains]
    simp only [List.mem_singleton, exists_eq_left, ways]
    cases l.get? q with
    | some e => simp
    | none => by_cases above : q ∈ p.ancestors <;> simp [above]
  · rw [Listing.holders, PathMap.get?_insert, get?_establish, Listing.holders]
    simp only [List.mem_singleton]
    by_cases here : q = p
    · simp [here, Option.filter, Entry.isFile]
    · cases l.get? q with
      | some e => simp [here]
      | none => by_cases above : q ∈ p.ancestors <;> simp [here, above, Option.filter, Entry.isFile]

end Extends

end Listing

namespace Tree

variable {t u : Tree} {l : Listing} {p : Path} {d : Container}

def holders (t : Tree) (p : Path) : Option (List Container) :=
  (t.find? p).bind fun n => if (t.node n).isFile then some (t.node n).replicas else none

def Occupied (t : Tree) (p : Path) : Prop :=
  t.contains p = true ∨ ∃ q ∈ p.ancestors, ∃ n, t.find? q = some n ∧ (t.node n).isFile = true

namespace Shows

theorem holders (h : t.Shows l) (p : Path) : t.holders p = l.holders p := by
  rw [Tree.holders, Listing.holders, h.entries]
  cases t.find? p with
  | none => rfl
  | some n =>
    cases file : (t.node n).isFile with
    | false => simp [Option.filter, file]
    | true =>
      simp only [Option.bind_some, file, if_true, Option.map_some, Option.filter,
        Node.isFile_entry]
      rfl

theorem occupied (h : t.Shows l) (p : Path) : t.Occupied p ↔ l.isOccupied p = true := by
  unfold Tree.Occupied
  rw [Listing.isOccupied_iff, h.contains, Tree.contains]
  refine or_congr_right (exists_congr fun q => and_congr_right fun _ => ?_)
  cases found : t.find? q with
  | none => simp [h.isFile_of_absent found]
  | some n => simp [h.isFile_of_find? found]

theorem addToPool (h : t.Shows l) (d : Container) : (t.addToPool d).Shows l := by
  obtain ⟨pool, added⟩ := addToPool_eq t d
  rw [added]
  exact ⟨h.wf.of_pool, h.entries⟩

theorem register_outcome (h : t.Shows l) (p : Path) (d : Container) :
    ∃ outcome u l', t.register p d = (outcome, u) ∧ u.Shows l' ∧
      (l.isOccupied p = true → Listing.Extends d [] l l' ∧
        ∃ e, outcome = .error e ∧ ((∃ q, e = .alreadyExists q) ∨ ∃ q, e = .notADirectory q)) ∧
      (l.isOccupied p = false → Listing.Extends d [p] l l' ∧ ∃ n, outcome = .ok n) := by
  obtain ⟨answer, shows⟩ := h.register p d
  have settled := Listing.Extends.settle d l
  have occupied : (l.settle d).isOccupied p = l.isOccupied p := settled.isOccupied (by simp)
  obtain ⟨outcome, u, registered⟩ : ∃ outcome u, t.register p d = (outcome, u) := ⟨_, _, rfl⟩
  simp only [perform, registered, Listing.perform] at answer shows
  refine ⟨outcome, u, _, registered, shows, fun full => ?_, fun free => ?_⟩
  · rw [← occupied, Listing.isOccupied, Option.isSome_iff_exists] at full
    obtain ⟨e, obstacle⟩ := full
    simp only [obstacle] at answer ⊢
    cases outcome with
    | ok n => cases answer
    | error e' => exact ⟨settled, e', rfl, register_error registered⟩
  · rw [← occupied, Listing.isOccupied, Option.isSome_eq_false_iff,
      Option.isNone_iff_eq_none] at free
    simp only [free] at answer ⊢
    cases outcome with
    | error e' => cases answer
    | ok n => exact ⟨settled.trans (.file d _ p), n, rfl⟩

end Shows

end Tree

namespace Cluster

variable {t : Tree} {l : Listing} {p : Path} {d : Container} {files : List Path}

/-! ## Recording -/

def offerOf (l : Listing) (p : Path) : Offer := if l.isOccupied p then .duplicate else .added

def keptOf (l : Listing) (files : List Path) : List Path := files.filter fun p => !l.isOccupied p

theorem recordFile_outcome (h : t.Shows l) (below : p ≠ .root) (d : Container) :
    ∃ v l', recordFile d p t = (.ok (offerOf l p), v) ∧ v.Shows l' ∧
      Listing.Extends d (keptOf l [p]) l l' := by
  have inside : ¬ p.isRoot = true := fun root => below (Path.isRoot_iff.mp root)
  unfold recordFile offerOf keptOf
  rw [if_neg inside]
  obtain ⟨outcome, u, l', registered, shows, full, free⟩ := h.register_outcome p d
  cases occupied : l.isOccupied p with
  | true =>
    rw [if_pos rfl, List.filter_singleton, occupied]
    split
    · exact ⟨t, l, rfl, h, .refl d l⟩
    · obtain ⟨extended, e, rfl, known⟩ := full occupied
      refine ⟨u, l', ?_, shows, extended⟩
      rw [registered]
      rcases known with ⟨q, rfl⟩ | ⟨q, rfl⟩ <;> rfl
  | false =>
    have absent : ¬ t.contains p = true := by
      intro there
      rw [Listing.isOccupied_iff.mpr (.inl ((h.contains p).trans there))] at occupied
      cases occupied
    obtain ⟨extended, n, rfl⟩ := free occupied
    rw [if_neg absent, List.filter_singleton, occupied, registered]
    exact ⟨u, l', rfl, shows, extended⟩

/-- Files that lie beside one another do not get into one another's way. The induction goes along
the files; what the tree held at first decides for each of them. -/
theorem recordFiles_outcome (h : t.Shows l) (d : Container) (below : ∀ p ∈ files, p ≠ .root)
    (beside : files.Pairwise Path.Beside) :
    ∃ v l', recordFiles d files t = (.ok (files.map fun p => (p, offerOf l p)), v) ∧
      v.Shows l' ∧ Listing.Extends d (keptOf l files) l l' := by
  induction files generalizing t l with
  | nil => exact ⟨t, l, rfl, h, .refl d l⟩
  | cons p files ih =>
    obtain ⟨apart, beside⟩ := List.pairwise_cons.mp beside
    obtain ⟨v, l', recorded, shows, first⟩ :=
      recordFile_outcome h (below p List.mem_cons_self) d
    obtain ⟨u, l'', recorded', shows', others⟩ :=
      ih shows (fun q later => below q (List.mem_cons_of_mem p later)) beside
    -- The first file, added or not, leaves the places of the others as they were.
    have same (q : Path) (later : q ∈ files) : l'.isOccupied q = l.isOccupied q := by
      refine first.isOccupied fun r member => ?_
      obtain rfl := List.mem_singleton.mp (List.mem_filter.mp member).1
      exact apart q later
    have offers : files.map (fun q => (q, offerOf l' q)) = files.map fun q => (q, offerOf l q) :=
      List.map_congr_left fun q later => by rw [offerOf, same q later, offerOf]
    have kept : keptOf l' files = keptOf l files :=
      List.filter_congr fun q later => by rw [same q later]
    refine ⟨u, l'', ?_, shows', ?_⟩
    · rw [recordFiles, recorded]
      simp only [recorded', Except.map, offers, List.map_cons]
    · have joined : keptOf l (p :: files) = keptOf l [p] ++ keptOf l' files := by
        rw [kept, keptOf, keptOf, keptOf, ← List.filter_append, List.singleton_append]
      rw [joined]
      exact first.trans others

/-! ## Registering -/

theorem register_outcome {c : Cluster} (h : c.tree.Shows l)
    (new : ¬ (d.endpoints.1 ∈ c.naming.registered ∨ d.endpoints.2 ∈ c.naming.registered))
    (below : ∀ p ∈ files, p ≠ .root) (beside : files.Pairwise Path.Beside) :
    ∃ u l', c.register d files =
        (.ok (files.filter l.isOccupied), (c.enroll d).setTree u c.servers) ∧
      u.Shows l' ∧ Listing.Extends d (keptOf l files) l l' := by
  obtain ⟨v, l', recorded, shows, extended⟩ := recordFiles_outcome h d below beside
  have refused : ((files.map fun p => (p, offerOf l p)).filter (·.2 = .duplicate)).map Prod.fst =
      files.filter l.isOccupied := by
    rw [List.filter_map, List.map_map]
    refine (List.map_id _).trans (List.filter_congr fun p _ => ?_)
    cases occupied : l.isOccupied p <;> simp [offerOf, occupied]
  have same : (c.enroll d).tree = c.tree := rfl
  rw [← same] at recorded
  unfold register
  unfold enroll at recorded ⊢
  simp only [if_neg new, recorded, refused]
  refine ⟨_, l', rfl, ?_, extended⟩
  split
  · exact shows
  · exact shows.addToPool d

end Cluster

end DistFs
