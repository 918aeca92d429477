import DistFs.Text.Decimal
import DistFs.Text.Yaml.Document
/-!
# What scalars mean

Which natural number a scalar stands for, and which plain scalars are no texts: null, the truth
values, whole numbers of at most 128 bits, and decimal numbers that fit a double.
-/

namespace DistFs.Yaml

/-! ## Whole numbers -/

def digitValue? (base : Nat) (c : Char) : Option Nat :=
  match hexValue? c with
  | some d => if d < base then some d else none
  | none => none

def ofDigits? (base : Nat) (digits : List Char) : Option Nat :=
  if digits = [] then none
  else digits.foldlM (fun n c => return n * base + (← digitValue? base c)) 0

def based? : List Char → Option (Nat × List Char)
  | '0' :: 'x' :: digits => some (16, digits)
  | '0' :: 'o' :: digits => some (8, digits)
  | '0' :: 'b' :: digits => some (2, digits)
  | _ => none

def isPadded : List Char → Bool
  | '0' :: c :: digits => c.isDigit && digits.all Char.isDigit
  | _ => false

def dropPlus : List Char → List Char
  | '+' :: cs => cs
  | cs => cs

def naturalOf? (cs : List Char) : Option Nat :=
  let cs := dropPlus cs
  match based? cs with
  | some (base, digits) => ofDigits? base digits
  | none => if isPadded cs then none else ofDigits? 10 cs

def wholeBits : Nat := 128

def isWhole (cs : List Char) : Bool :=
  (naturalOf? cs).any (· < 1 <<< wholeBits) ||
    match cs with
    | '-' :: cs =>
      (based? cs).any fun (base, digits) =>
        (ofDigits? base digits).any (· ≤ 1 <<< (wholeBits - 1))
    | _ => false

/-! ## Decimal numbers -/

def exponent? : List Char → Option Int
  | [] => some 0
  | c :: cs =>
    if c ≠ 'e' ∧ c ≠ 'E' then none
    else match cs with
      | '-' :: digits => (ofDigits? 10 digits).map fun n => -(n : Int)
      | cs => (ofDigits? 10 (dropPlus cs)).map fun n => (n : Int)

def isUnsignedDecimal (cs : List Char) : Bool :=
  let whole := cs.takeWhile Char.isDigit
  let rest := cs.dropWhile Char.isDigit
  let (decimals, rest) := match rest with
    | '.' :: rest => (rest.takeWhile Char.isDigit, rest.dropWhile Char.isDigit)
    | _ => ([], rest)
  whole ++ decimals ≠ [] &&
    (exponent? rest).any fun e => Decimal.isFinite (whole ++ decimals) (e - decimals.length)

def isDecimal (cs : List Char) : Bool :=
  let isInfinity (cs : List Char) : Bool :=
    [".inf", ".Inf", ".INF"].any fun word => word.toList = cs
  [".nan", ".NaN", ".NAN"].any (fun word => word.toList = cs) ||
    match cs with
    | '+' :: cs => isInfinity cs || isUnsignedDecimal cs
    | '-' :: cs => isInfinity cs || isUnsignedDecimal cs
    | cs => isInfinity cs || isUnsignedDecimal cs

/-! ## Texts -/

def nullWords : List String := ["null", "Null", "NULL", "~"]

def truthWords : List String := ["true", "True", "TRUE", "false", "False", "FALSE"]

def isAmbiguous (s : String) : Bool :=
  let cs := s.toList
  s = "" || s ∈ nullWords || s ∈ truthWords || isWhole cs || isDecimal cs ||
    match cs with
    | '+' :: cs => isPadded cs
    | '-' :: cs => isPadded cs
    | cs => isPadded cs

/-! ## Looking into documents -/

namespace Document

def wholeTag : String := "tag:yaml.org,2002:int"

def text? (d : Document) (n : Node) : Option String :=
  match d.resolve n with
  | .scalar s _ _ => some s
  | _ => none

def natural? (d : Document) (n : Node) : Option Nat :=
  match d.resolve n with
  | .scalar s .plain _ => naturalOf? s.toList
  | .scalar s .literal tag => if tag = some wholeTag then naturalOf? s.toList else none
  | _ => none

def items? (d : Document) (n : Node) : Option (List Node) :=
  match d.resolve n with
  | .sequence items => some items
  | .scalar "" .plain _ => some []
  | _ => none

def pairs? (d : Document) (n : Node) : Option (List (String × Node)) :=
  match d.resolve n with
  | .mapping entries => entries.mapM fun (k, v) => return (← d.text? k, v)
  | .scalar "" .plain _ => some []
  | _ => none

def fields? (d : Document) (names : List String) (n : Node) : Option (List (Option Node)) := do
  let pairs ← d.pairs? n
  names.mapM fun name =>
    match pairs.filter (·.1 = name) with
    | [] => some none
    | [(_, v)] => some (some v)
    | _ => none

end Document

end DistFs.Yaml
