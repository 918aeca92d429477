import DistFs.Proofs.PathText
import Mathlib.Data.Set.List

namespace DistFs

namespace Path

variable {s : String} {p q : Path} {cs piece : List Char} {names : List Name}

/-! ## Pieces -/

theorem segments_eq_splitOn (cs : List Char) : segments cs = cs.splitOn '/' := by
  induction cs with
  | nil => rfl
  | cons c cs ih =>
    rw [segments, ih]
    show _ = (c :: cs).splitOnP (· == '/')
    rw [List.splitOnP_cons_eq_if_modifyHead]
    by_cases slash : c = '/'
    · rw [if_pos slash, if_pos (by simpa using slash)]
      rfl
    · rw [if_neg slash, if_neg (by simpa using slash)]
      show _ = (cs.splitOn '/').modifyHead (c :: ·)
      obtain ⟨piece, pieces, same⟩ := List.exists_cons_of_ne_nil (List.splitOn_ne_nil '/' cs)
      rw [same]
      rfl

theorem first_piece (cs : List Char) :
    '/' ∉ cs ∨ ∃ piece rest, '/' ∉ piece ∧ cs = piece ++ '/' :: rest := by
  by_cases slash : '/' ∈ cs
  · obtain ⟨piece, rest, rfl, first⟩ := List.eq_append_cons_of_mem slash
    exact .inr ⟨piece, rest, first, rfl⟩
  · exact .inl slash

theorem pieces_induction {motive : List Char → Prop} (last : ∀ piece, '/' ∉ piece → motive piece)
    (more : ∀ piece rest, '/' ∉ piece → motive rest → motive (piece ++ '/' :: rest))
    (cs : List Char) : motive cs := by
  rcases first_piece cs with whole | ⟨piece, rest, first, same⟩
  · exact last cs whole
  · exact same ▸ more piece rest first (pieces_induction last more rest)
termination_by cs.length
decreasing_by
  rw [same, List.length_append, List.length_cons]
  omega

theorem mem_segments (member : piece ∈ segments cs) :
    '/' ∉ piece ∧ ∀ c ∈ piece, c ∈ cs := by
  induction cs using pieces_induction with
  | last whole clean =>
    rw [segments_of_no_slash clean, List.mem_singleton] at member
    subst member
    exact ⟨clean, fun _ => id⟩
  | more first rest clean ih =>
    rw [segments_append clean, List.mem_cons] at member
    rcases member with rfl | later
    · exact ⟨clean, fun c => List.mem_append_left _⟩
    · obtain ⟨clean', inside⟩ := ih later
      refine ⟨clean', fun c there => ?_⟩
      exact List.mem_append_right _ (List.mem_cons_of_mem _ (inside c there))

theorem exists_segment {c : Char} (member : c ∈ cs) (other : c ≠ '/') :
    ∃ piece ∈ segments cs, c ∈ piece := by
  induction cs using pieces_induction with
  | last whole clean => exact ⟨whole, by simp [segments_of_no_slash clean], member⟩
  | more first rest clean ih =>
    rw [segments_append clean]
    rcases List.mem_append.mp member with here | later
    · exact ⟨first, List.mem_cons_self, here⟩
    · obtain ⟨piece, listed, there⟩ := ih ((List.mem_cons.mp later).resolve_left other)
      exact ⟨piece, List.mem_cons_of_mem _ listed, there⟩

/-! ## Reading -/

theorem exists_name : (∃ n : Name, n.text = s) ↔ s ≠ "" ∧ '/' ∉ s.toList ∧ ':' ∉ s.toList := by
  constructor
  · rintro ⟨n, rfl⟩
    exact ⟨n.not_empty, n.no_slash, n.no_colon⟩
  · rintro ⟨full, slash, colon⟩
    exact ⟨⟨s, full, slash, colon⟩, rfl⟩

theorem exists_names {texts : List String} : (∃ names : List Name, names.map (·.text) = texts) ↔
    ∀ s ∈ texts, s ≠ "" ∧ '/' ∉ s.toList ∧ ':' ∉ s.toList := by
  simp only [← exists_name]
  exact Set.ext_iff.mp (Set.range_list_map Name.text) texts

theorem mapM_ofText_eq_ok {pieces : List (List Char)} :
    pieces.mapM (fun piece => Name.ofText (String.ofList piece)) = .ok names ↔
      names.map (·.text.toList) = pieces := by
  constructor
  · intro read
    induction pieces generalizing names with
    | nil =>
      cases read
      rfl
    | cons piece pieces ih =>
      rw [List.mapM_cons] at read
      cases first : Name.ofText (String.ofList piece) with
      | error fault =>
        rw [first] at read
        cases read
      | ok n =>
        cases others : pieces.mapM fun piece => Name.ofText (String.ofList piece) with
        | error fault =>
          rw [first, others] at read
          cases read
        | ok rest =>
          rw [first, others] at read
          cases read
          rw [List.map_cons, ih others, ofText_eq_ok.mp first, String.toList_ofList]
  · rintro rfl
    exact mapM_ofText names

theorem parse_eq_ok : parse s = .ok p ↔
    ∃ rest, s.toList = '/' :: rest ∧
      p.names.map (·.text.toList) = (segments rest).filter (· ≠ []) := by
  obtain ⟨names⟩ := p
  unfold parse
  split
  next rest start =>
    rw [start]
    simp only [List.cons.injEq, true_and, exists_eq_left', ← mapM_ofText_eq_ok]
    cases (((segments rest).filter (· ≠ [])).mapM fun piece =>
      Name.ofText (String.ofList piece)) <;> simp [Except.map]
  next relative => simpa using fun rest start => absurd start (relative rest)

theorem parse_isOk :
    (∃ p, parse s = .ok p) ↔ s.toList.head? = some '/' ∧ ':' ∉ s.toList := by
  constructor
  · rintro ⟨p, read⟩
    obtain ⟨rest, start, names⟩ := parse_eq_ok.mp read
    rw [start]
    refine ⟨rfl, fun colon => ?_⟩
    -- A colon would be in a piece, and so in the name that was made of it.
    obtain ⟨piece, listed, there⟩ :=
      exists_segment ((List.mem_cons.mp colon).resolve_left (by decide)) (by decide)
    have kept : piece ∈ (segments rest).filter (· ≠ []) :=
      List.mem_filter.mpr ⟨listed, by simpa using List.ne_nil_of_mem there⟩
    rw [← names] at kept
    obtain ⟨n, -, rfl⟩ := List.mem_map.mp kept
    exact n.no_colon there
  · rintro ⟨start, colon⟩
    obtain ⟨rest, start⟩ := List.head?_eq_some_iff.mp start
    rw [start, List.mem_cons, not_or] at colon
    obtain ⟨names, same⟩ : ∃ names : List Name,
        names.map (·.text) = ((segments rest).filter (· ≠ [])).map String.ofList := by
      refine exists_names.mpr (List.forall_mem_map.mpr fun piece kept => ?_)
      obtain ⟨listed, full⟩ := List.mem_filter.mp kept
      obtain ⟨slash, inside⟩ := mem_segments listed
      rw [String.toList_ofList]
      exact ⟨by simpa using full, slash, fun there => colon.2 (inside _ there)⟩
    refine ⟨⟨names⟩, parse_eq_ok.mpr ⟨rest, start, ?_⟩⟩
    simpa [Function.comp_def] using congrArg (List.map String.toList) same

/-! ## Superfluous slashes -/

def squeeze : List Char → List Char
  | [] => []
  | c :: cs => if c = '/' ∧ cs.head? = some '/' then squeeze cs else c :: squeeze cs

def dropTrailingSlash (cs : List Char) : List Char :=
  if cs.getLast? = some '/' then cs.dropLast else cs

/-- A text with single slashes, and none at the end unless there is nothing else. -/
def tidied (s : String) : String :=
  let cs := dropTrailingSlash (squeeze s.toList)
  if cs = [] then "/" else String.ofList cs

theorem squeeze_ne_nil (c : Char) (cs : List Char) : squeeze (c :: cs) ≠ [] := by
  induction cs generalizing c with
  | nil => simp [squeeze]
  | cons c' cs ih =>
    rw [squeeze]
    split
    · exact ih c'
    · exact List.cons_ne_nil _ _

theorem squeeze_append (clean : '/' ∉ piece) (cs : List Char) :
    squeeze (piece ++ cs) = piece ++ squeeze cs := by
  induction piece with
  | nil => rfl
  | cons c piece ih =>
    rw [List.mem_cons, not_or] at clean
    rw [List.cons_append, squeeze, if_neg fun slash => clean.1 slash.1.symm, ih clean.2]
    rfl

theorem squeeze_slash (clean : '/' ∉ piece) (full : piece ≠ []) (cs : List Char) :
    squeeze ('/' :: (piece ++ cs)) = '/' :: (piece ++ squeeze cs) := by
  have other : (piece ++ cs).head? ≠ some '/' := by
    cases piece with
    | nil => exact absurd rfl full
    | cons c piece =>
      rw [List.mem_cons, not_or] at clean
      simpa using Ne.symm clean.1
  rw [squeeze, if_neg fun slash => other slash.2, squeeze_append clean]

theorem dropTrailingSlash_append (cs : List Char) (full : piece ≠ []) :
    dropTrailingSlash (cs ++ piece) = cs ++ dropTrailingSlash piece := by
  unfold dropTrailingSlash
  have last : (cs ++ piece).getLast? = piece.getLast? := by
    rw [List.getLast?_append, List.getLast?_eq_some_getLast full]
    rfl
  rw [last]
  split
  · rw [List.dropLast_append_of_ne_nil full]
  · rfl

theorem dropTrailingSlash_of_clean (clean : '/' ∉ piece) : dropTrailingSlash piece = piece :=
  if_neg fun last => clean (List.mem_of_getLast? last)

theorem dropTrailingSlash_squeeze (cs : List Char) : dropTrailingSlash (squeeze ('/' :: cs)) =
    ((segments cs).filter (· ≠ [])).flatMap ('/' :: ·) := by
  induction cs using pieces_induction with
  | last piece clean =>
    rw [segments_of_no_slash clean]
    by_cases empty : piece = []
    · subst empty
      rfl
    · have whole := squeeze_slash clean empty []
      rw [List.append_nil] at whole
      rw [whole, squeeze, List.append_nil, ← List.singleton_append,
        dropTrailingSlash_append _ empty, dropTrailingSlash_of_clean clean]
      simp [empty]
  | more piece rest clean ih =>
    rw [segments_append clean]
    by_cases empty : piece = []
    · subst empty
      rw [List.nil_append, squeeze, if_pos ⟨rfl, rfl⟩, ih]
      simp
    · rw [squeeze_slash clean empty, ← List.cons_append,
        dropTrailingSlash_append _ (squeeze_ne_nil _ _), ih]
      simp [empty]

theorem toList_text_eq (p : Path) : p.text.toList =
    if p.names = [] then ['/'] else (p.names.map (·.text.toList)).flatMap ('/' :: ·) := by
  obtain ⟨names⟩ := p
  cases names with
  | nil => rfl
  | cons n names => simp [toList_text, List.flatMap_map]

theorem text_of_parse (read : parse s = .ok p) : p.text = tidied s := by
  obtain ⟨rest, start, names⟩ := parse_eq_ok.mp read
  have written := toList_text_eq p
  rw [names, ← dropTrailingSlash_squeeze, ← start] at written
  have root : p.names = [] ↔ dropTrailingSlash (squeeze s.toList) = [] := by
    rw [start, dropTrailingSlash_squeeze, ← names]
    cases p.names <;> simp
  rw [← String.toList_inj, written, tidied]
  simp only [root]
  split <;> simp

/-! ## Names -/

theorem child?_eq_ok {s : String} :
    p.child? s = .ok q ↔ ∃ n : Name, n.text = s ∧ q = p.child n := by
  unfold child?
  cases read : Name.ofText s with
  | ok n =>
    have same := ofText_eq_ok.mp read
    constructor
    · intro made
      exact ⟨n, same, (Except.ok.inj made).symm⟩
    · rintro ⟨m, text, rfl⟩
      rw [Name.ext_text (same.trans text.symm)]
      rfl
  | error fault =>
    constructor
    · intro made
      cases made
    · rintro ⟨n, rfl, -⟩
      rw [ofText_text] at read
      cases read

theorem child?_isOk :
    (∃ q, p.child? s = .ok q) ↔ s ≠ "" ∧ '/' ∉ s.toList ∧ ':' ∉ s.toList := by
  rw [← exists_name]
  constructor
  · rintro ⟨q, made⟩
    obtain ⟨n, text, -⟩ := child?_eq_ok.mp made
    exact ⟨n, text⟩
  · rintro ⟨n, text⟩
    exact ⟨p.child n, child?_eq_ok.mpr ⟨n, text, rfl⟩⟩

/-- What can be read as a path, and what comes of it: its names are the pieces of the text that are
not empty, and its own text is the one that was read without superfluous slashes. Every path is read
from its own text. It is continued by any text that can be a name, and then leads back. -/
theorem texts_of_paths :
    (∀ s : String,
      ((∃ p, parse s = .ok p) ↔ s.toList.head? = some '/' ∧ ':' ∉ s.toList) ∧
      ∀ p, parse s = .ok p →
        p.names.map (·.text.toList) = (s.toList.splitOn '/').filter (· ≠ []) ∧
        p.text = tidied s) ∧
    ∀ p : Path,
      (∀ n ∈ p.names, n.text ≠ "" ∧ '/' ∉ n.text.toList ∧ ':' ∉ n.text.toList) ∧
      parse p.text = .ok p ∧
      ∀ s : String,
        ((∃ q, p.child? s = .ok q) ↔ s ≠ "" ∧ '/' ∉ s.toList ∧ ':' ∉ s.toList) ∧
        ∀ q, p.child? s = .ok q → q.parent? = some p ∧ q.last?.map Name.text = some s := by
  refine ⟨fun s => ⟨parse_isOk, fun p read => ⟨?_, text_of_parse read⟩⟩, fun p =>
    ⟨fun n _ => ⟨n.not_empty, n.no_slash, n.no_colon⟩, parse_text p, fun s =>
      ⟨child?_isOk, fun q made => ?_⟩⟩⟩
  · obtain ⟨rest, start, names⟩ := parse_eq_ok.mp read
    rw [names, start, ← segments_eq_splitOn, segments, if_pos rfl]
    rfl
  · obtain ⟨n, rfl, rfl⟩ := child?_eq_ok.mp made
    exact ⟨parent?_child p n, by simp⟩

theorem texts_of_paths_slashes :
    ∃ p, parse "//usr///lib/" = .ok p ∧ p.text = "/usr/lib" := by
  obtain ⟨readable, readings⟩ := texts_of_paths.1 "//usr///lib/"
  obtain ⟨p, read⟩ := readable.mpr (by decide)
  have tidy : tidied "//usr///lib/" = "/usr/lib" := by decide
  exact ⟨p, read, (readings p read).2.trans tidy⟩

end Path

end DistFs
