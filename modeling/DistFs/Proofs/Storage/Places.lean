import DistFs.Proofs.PathText
import DistFs.Proofs.Storage.HostFiles

namespace DistFs

namespace HostFiles

variable {fs : HostFiles} {place names : List String} {here spot : Spot}

/-! ## Dots -/

def turn (spot : Spot) (name : String) : Spot :=
  if name = "." then spot else if name = ".." then spot.dropLast else spot ++ [name]

/-- Where a place leads if everything on the way is a directory. -/
def lexical (place : List String) : Spot := place.foldl turn []

theorem foldl_turn (dotless : Dotless names) (spot : Spot) :
    names.foldl turn spot = spot ++ names := by
  induction names generalizing spot with
  | nil => simp
  | cons name names ih =>
    obtain ⟨not_dot, not_dots⟩ := dotless name List.mem_cons_self
    rw [List.foldl_cons, turn, if_neg not_dot, if_neg not_dots,
      ih fun other member => dotless other (List.mem_cons_of_mem _ member), List.append_assoc,
      List.singleton_append]

theorem Dotless.foldl_turn (dotless : Dotless spot) (names : List String) :
    Dotless (names.foldl turn spot) := by
  induction names generalizing spot with
  | nil => exact dotless
  | cons name names ih =>
    refine ih fun other member => ?_
    unfold turn at member
    split at member
    next => exact dotless other member
    next not_dot =>
      split at member
      next => exact dotless other (List.dropLast_subset _ member)
      next not_dots =>
        rcases List.mem_append.mp member with old | last
        · exact dotless other old
        · exact List.mem_singleton.mp last ▸ ⟨not_dot, not_dots⟩

theorem dotless_lexical (place : List String) : Dotless (lexical place) := by
  have nothing : Dotless [] := fun _ member => absurd member List.not_mem_nil
  exact nothing.foldl_turn place

theorem lexical_eq_self : lexical place = place ↔ Dotless place := by
  constructor
  · intro same
    exact same ▸ dotless_lexical place
  · intro dotless
    rw [lexical, foldl_turn dotless, List.nil_append]

theorem dotless_append : Dotless (place ++ names) ↔ Dotless place ∧ Dotless names :=
  List.forall_mem_append

theorem eq_foldl_turn_of_follow (found : fs.follow place here = .ok spot) :
    spot = place.foldl turn here := by
  induction place generalizing here with
  | nil => exact (Except.ok.inj found).symm
  | cons name place ih =>
    rw [follow] at found
    rw [List.foldl_cons, turn]
    split at found
    next => cases found
    next => cases found
    next =>
      split at found
      next dot => rw [if_pos dot, ih found]
      next other =>
        rw [if_neg other]
        split at found
        next dots => rw [if_pos dots, ih found]
        next other =>
          rw [if_neg other]
          split at found
          next => cases found
          next => exact ih found

theorem eq_lexical_of_resolve (found : fs.resolve place = .ok spot) : spot = lexical place := by
  unfold resolve at found
  split at found
  next => cases found
  next =>
    split at found
    next => cases found
    next => exact eq_foldl_turn_of_follow found

theorem eq_of_resolve (dotless : Dotless place) (found : fs.resolve place = .ok spot) :
    spot = place := (eq_lexical_of_resolve found).trans (lexical_eq_self.mpr dotless)

/-! ## Texts -/

def namesIn (cs : List Char) : List String :=
  (Path.segments cs).filterMap fun piece => if piece = [] then none else some (String.ofList piece)

theorem place_eq (here : Spot) (s : String) :
    HostFiles.place here s =
      if s.toList.head? = some '/' then namesIn s.toList else here ++ namesIn s.toList := rfl

@[simp] theorem namesIn_nil : namesIn [] = [] := rfl

theorem namesIn_append_slash (cs rest : List Char) :
    namesIn (cs ++ '/' :: rest) = namesIn cs ++ namesIn rest := by
  rw [namesIn, Path.segments_append_slash, List.filterMap_append, namesIn, namesIn]

theorem namesIn_name (n : Name) : namesIn n.text.toList = [n.text] := by
  simp [namesIn, Path.segments_of_no_slash n.no_slash, n.not_empty]

end HostFiles

namespace Path

open HostFiles (Dotless lexical namesIn)

variable {here : Spot} {p q : Path} {r : String}

def Dotless (p : Path) : Prop := HostFiles.Dotless (p.names.map (·.text))

instance (p : Path) : Decidable p.Dotless := inferInstanceAs (Decidable (HostFiles.Dotless _))

theorem place_append (started : r ≠ "") {s : String} {names : List String}
    (more : namesIn (r ++ s).toList = namesIn r.toList ++ names) (here : Spot) :
    HostFiles.place here (r ++ s) = HostFiles.place here r ++ names := by
  have head : (r ++ s).toList.head? = r.toList.head? := by
    have full : r.toList ≠ [] := by simpa using started
    rw [String.toList_append, List.head?_append_of_ne_nil _ full]
  rw [HostFiles.place_eq, HostFiles.place_eq, head, more]
  split
  · rfl
  · rw [List.append_assoc]

theorem place_join (here : Spot) (r : String) (n : Name) :
    HostFiles.place here (if r = "" ∨ r.toList.getLast? = some '/' then r ++ n.text
      else r ++ "/" ++ n.text) = HostFiles.place here r ++ [n.text] := by
  by_cases nothing : r = ""
  · have relative : n.text.toList.head? ≠ some '/' := fun slash =>
      n.no_slash (List.mem_of_head? slash)
    subst nothing
    rw [if_pos (.inl rfl), String.empty_append, HostFiles.place_eq, if_neg relative,
      HostFiles.place_eq, if_neg (by simp), HostFiles.namesIn_name, String.toList_empty,
      HostFiles.namesIn_nil, List.append_nil]
  · by_cases ended : r.toList.getLast? = some '/'
    · obtain ⟨cs, text⟩ := List.getLast?_eq_some_iff.mp ended
      rw [if_pos (.inr ended)]
      refine place_append nothing ?_ here
      rw [String.toList_append, text, List.append_assoc, List.singleton_append,
        HostFiles.namesIn_append_slash, HostFiles.namesIn_name, HostFiles.namesIn_append_slash,
        HostFiles.namesIn_nil, List.append_nil]
    · rw [if_neg (by simp [nothing, ended]), String.append_assoc]
      refine place_append nothing ?_ here
      have text : ("/" ++ n.text).toList = '/' :: n.text.toList := by simp
      rw [String.toList_append, text, HostFiles.namesIn_append_slash, HostFiles.namesIn_name]

theorem place_hostText (here : Spot) (r : String) (p : Path) :
    HostFiles.place here (p.hostText r) = HostFiles.place here r ++ p.names.map (·.text) := by
  obtain ⟨names⟩ := p
  induction names generalizing r with
  | nil => simp [hostText]
  | cons n names ih =>
    have step := place_join here r n
    have later := ih (if r = "" ∨ r.toList.getLast? = some '/' then r ++ n.text
      else r ++ "/" ++ n.text)
    rw [step] at later
    simpa [hostText] using later

theorem lexical_hostText (dotless : HostFiles.Dotless (HostFiles.place here r)) (p : Path) :
    lexical (HostFiles.place here (p.hostText r)) =
      HostFiles.place here r ++ p.names.map (·.text) ↔ p.Dotless := by
  rw [place_hostText, HostFiles.lexical_eq_self, HostFiles.dotless_append]
  exact and_iff_right dotless

end Path

end DistFs
