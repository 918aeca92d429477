/-!
# Paths

A path lists the names that lead from the root to a place in the file system. It is written with a
slash before each name, and the root alone as `/`. Paths are ordered name by name, so a directory
comes right before everything below it.
-/

namespace DistFs

inductive PathFault where
  | relative
  | emptyName
  | slashInName
  | colonInName
deriving DecidableEq, Repr

def PathFault.reason : PathFault → String
  | .relative => "must start with '/'"
  | .emptyName => "empty component"
  | .slashInName => "component contains '/'"
  | .colonInName => "component contains ':'"

structure Name where
  text : String
  not_empty : text ≠ ""
  no_slash : '/' ∉ text.toList
  no_colon : ':' ∉ text.toList
deriving DecidableEq

namespace Name

def ofText (s : String) : Except PathFault Name :=
  if empty : s = "" then .error .emptyName
  else if slash : '/' ∈ s.toList then .error .slashInName
  else if colon : ':' ∈ s.toList then .error .colonInName
  else .ok ⟨s, empty, slash, colon⟩

instance : LT Name := ⟨fun a b => a.text < b.text⟩
instance : LE Name := ⟨fun a b => a.text ≤ b.text⟩
instance (a b : Name) : Decidable (a < b) := inferInstanceAs (Decidable (a.text < b.text))
instance (a b : Name) : Decidable (a ≤ b) := inferInstanceAs (Decidable (a.text ≤ b.text))

theorem ext_text {a b : Name} (h : a.text = b.text) : a = b := by
  cases a; cases b; simp_all

instance : Std.IsLinearOrder Name where
  le_refl a := String.le_refl a.text
  le_trans _ _ _ := String.le_trans
  le_antisymm _ _ h h' := ext_text (String.le_antisymm h h')
  le_total a b := String.le_total a.text b.text

instance : Std.LawfulOrderLT Name where
  lt_iff _ _ := Std.LawfulOrderLT.lt_iff (α := String) _ _

end Name

structure Path where
  names : List Name
deriving DecidableEq

namespace Path

def root : Path := ⟨[]⟩

def segments : List Char → List (List Char)
  | [] => [[]]
  | c :: rest =>
    if c = '/' then [] :: segments rest
    else match segments rest with
      | [] => [[c]]
      | piece :: pieces => (c :: piece) :: pieces

/-- Reads a path. It starts with a slash; further slashes only separate names. -/
def parse (s : String) : Except PathFault Path :=
  match s.toList with
  | '/' :: rest =>
    (((segments rest).filter (· ≠ [])).mapM fun piece => Name.ofText (String.ofList piece)).map mk
  | _ => .error .relative

def text (p : Path) : String :=
  if p.names = [] then "/" else String.join (p.names.map fun n => "/" ++ n.text)

instance : ToString Path := ⟨text⟩

def depth (p : Path) : Nat := p.names.length

def isRoot (p : Path) : Bool := p.names.isEmpty

def child (p : Path) (n : Name) : Path := ⟨p.names ++ [n]⟩

def child? (p : Path) (s : String) : Except PathFault Path := (Name.ofText s).map p.child

def parent? (p : Path) : Option Path :=
  if p.names = [] then none else some ⟨p.names.dropLast⟩

def last? (p : Path) : Option Name := p.names.getLast?

def isUnder (p q : Path) : Bool := q.names.isPrefixOf p.names

def ancestors (p : Path) : List Path := (List.range p.depth).map fun n => ⟨p.names.take n⟩

def hostText (p : Path) (host : String) : String :=
  p.names.foldl (fun place n =>
    if place = "" ∨ place.toList.getLast? = some '/' then place ++ n.text
    else place ++ "/" ++ n.text) host

instance : LT Path := ⟨fun p q => p.names < q.names⟩
instance : LE Path := ⟨fun p q => p.names ≤ q.names⟩
instance (p q : Path) : Decidable (p < q) := inferInstanceAs (Decidable (p.names < q.names))
instance (p q : Path) : Decidable (p ≤ q) := inferInstanceAs (Decidable (p.names ≤ q.names))

instance : Std.IsLinearOrder Path where
  le_refl p := Std.IsPreorder.le_refl (α := List Name) p.names
  le_trans p q r := Std.IsPreorder.le_trans (α := List Name) p.names q.names r.names
  le_antisymm p q h h' := by
    cases p; cases q
    exact congrArg mk (Std.IsPartialOrder.le_antisymm (α := List Name) _ _ h h')
  le_total p q := Std.IsLinearPreorder.le_total (α := List Name) p.names q.names

instance : Std.LawfulOrderLT Path where
  lt_iff p q := Std.LawfulOrderLT.lt_iff (α := List Name) p.names q.names

instance : Ord Path := ⟨fun p q => if p < q then .lt else if p = q then .eq else .gt⟩

def sort (paths : List Path) : List Path := paths.mergeSort (· ≤ ·)

end Path

end DistFs
