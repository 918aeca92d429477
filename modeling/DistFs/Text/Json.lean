import DistFs.Text.Decimal
/-!
# JSON documents

Reading and writing of JSON. A document is read in full and kept without loss where its readers
could tell: a text whose escapes name no characters, and a number that is no natural one, are told
apart from everything else but not kept.
-/

namespace DistFs

inductive Json where
  | null
  | bool (b : Bool)
  | nat (n : Nat)
  | real (finite : Bool)
  | text (s : String)
  | brokenText
  | array (items : List Json)
  | object (fields : List (Option String × Json))

namespace Json

/-! ## Writing -/

def hexDigit (n : Nat) : Char := if n < 10 then Char.ofNat (48 + n) else Char.ofNat (87 + n)

def escape (c : Char) : List Char :=
  if c = '"' then ['\\', '"']
  else if c = '\\' then ['\\', '\\']
  else if c = '\n' then ['\\', 'n']
  else if c = '\r' then ['\\', 'r']
  else if c = '\t' then ['\\', 't']
  else if c.toNat = 8 then ['\\', 'b']
  else if c.toNat = 12 then ['\\', 'f']
  else if c.toNat < 32 then ['\\', 'u', '0', '0', hexDigit (c.toNat / 16), hexDigit (c.toNat % 16)]
  else [c]

def quote (s : String) : String := String.ofList ('"' :: s.toList.flatMap escape ++ ['"'])

def brokenQuote : String := "\"\\ud800\""

mutual

def write : Json → String → String
  | null, out => out ++ "null"
  | bool b, out => out ++ (if b then "true" else "false")
  | nat n, out => out ++ toString n
  | real finite, out => out ++ (if finite then "-1" else "1e999")
  | text s, out => out ++ quote s
  | brokenText, out => out ++ brokenQuote
  | array [], out => out ++ "[]"
  | array (v :: vs), out => writeItems vs (v.write (out ++ "[")) ++ "]"
  | object [], out => out ++ "\x7b\x7d"
  | object ((k, v) :: fields), out =>
    writeFields fields (v.write (out ++ "\x7b" ++ writeKey k)) ++ "\x7d"

def writeItems : List Json → String → String
  | [], out => out
  | v :: vs, out => writeItems vs (v.write (out ++ ","))

def writeFields : List (Option String × Json) → String → String
  | [], out => out
  | (k, v) :: fields, out => writeFields fields (v.write (out ++ "," ++ writeKey k))

def writeKey : Option String → String
  | some k => quote k ++ ":"
  | none => brokenQuote ++ ":"

end

def render (doc : Json) : String := doc.write ""

/-! ## Reading -/

def isBlank (c : Char) : Bool := c = ' ' || c = '\n' || c = '\t' || c = '\r'

def skipBlank (cs : List Char) : List Char := cs.dropWhile isBlank

def hexValue? (c : Char) : Option Nat :=
  if '0' ≤ c ∧ c ≤ '9' then some (c.toNat - 48)
  else if 'a' ≤ c ∧ c ≤ 'f' then some (c.toNat - 87)
  else if 'A' ≤ c ∧ c ≤ 'F' then some (c.toNat - 55)
  else none

def codeUnit? (a b c d : Char) : Option Nat := do
  return ((((← hexValue? a) * 16 + (← hexValue? b)) * 16 + (← hexValue? c)) * 16 + (← hexValue? d))

def simpleEscape? : Char → Option Char
  | '"' => some '"'
  | '\\' => some '\\'
  | '/' => some '/'
  | 'b' => some (Char.ofNat 8)
  | 'f' => some (Char.ofNat 12)
  | 'n' => some '\n'
  | 'r' => some '\r'
  | 't' => some '\t'
  | _ => none

/-- Reads a text after its opening quote. `high` is a code unit that still lacks its second half,
and `whole` whether the text is sound so far. -/
def readText (high : Option Nat) (whole : Bool) (acc : List Char) :
    List Char → Option (Option String × List Char)
  | [] => none
  | '"' :: rest =>
    some (if whole && high.isNone then some (String.ofList acc.reverse) else none, rest)
  | '\\' :: 'u' :: a :: b :: c :: d :: rest =>
    match codeUnit? a b c d, high with
    | none, _ => none
    | some u, some h =>
      if 0xDC00 ≤ u ∧ u ≤ 0xDFFF then
        readText none whole (Char.ofNat (0x10000 + (h - 0xD800) * 0x400 + (u - 0xDC00)) :: acc) rest
      else readText none false acc rest
    | some u, none =>
      if 0xD800 ≤ u ∧ u ≤ 0xDBFF then readText (some u) whole acc rest
      else if 0xDC00 ≤ u ∧ u ≤ 0xDFFF then readText none false acc rest
      else readText none whole (Char.ofNat u :: acc) rest
  | '\\' :: c :: rest =>
    match simpleEscape? c with
    | some c => readText none (whole && high.isNone) (c :: acc) rest
    | none => none
  | c :: rest =>
    if c = '\\' ∨ c.toNat < 32 then none
    else readText none (whole && high.isNone) (c :: acc) rest

def readExponent (cs : List Char) : Option (Int × List Char) :=
  let (negative, cs) := match cs with
    | '-' :: rest => (true, rest)
    | '+' :: rest => (false, rest)
    | _ => (false, cs)
  let digits := cs.takeWhile Char.isDigit
  if digits = [] then none
  else
    let n : Int := Decimal.ofDigits digits
    some (if negative then -n else n, cs.dropWhile Char.isDigit)

def readNumber (cs : List Char) : Option (Json × List Char) :=
  let (negative, cs) := match cs with
    | '-' :: rest => (true, rest)
    | _ => (false, cs)
  let whole := cs.takeWhile Char.isDigit
  let rest := cs.dropWhile Char.isDigit
  if whole = [] ∨ (whole.head? = some '0' ∧ 1 < whole.length) then none
  else
    let fraction : Option (Option (List Char) × List Char) := match rest with
      | '.' :: rest =>
        let digits := rest.takeWhile Char.isDigit
        if digits = [] then none else some (some digits, rest.dropWhile Char.isDigit)
      | _ => some (none, rest)
    match fraction with
    | none => none
    | some (fraction, rest) =>
      let exponent : Option (Option Int × List Char) := match rest with
        | c :: more =>
          if c = 'e' ∨ c = 'E' then (readExponent more).map fun (e, rest) => (some e, rest)
          else some (none, rest)
        | [] => some (none, rest)
      match exponent with
      | none => none
      | some (exponent, rest) =>
        let n := Decimal.ofDigits whole
        if !negative && fraction.isNone && exponent.isNone && n < UInt64.size then
          some (nat n, rest)
        else
          let decimals := fraction.getD []
          some (real (Decimal.isFinite (whole ++ decimals) (exponent.getD 0 - decimals.length)),
            rest)

mutual

def readValue : Nat → List Char → Option (Json × List Char)
  | 0, _ => none
  | fuel + 1, cs =>
    match skipBlank cs with
    | 'n' :: 'u' :: 'l' :: 'l' :: rest => some (null, rest)
    | 't' :: 'r' :: 'u' :: 'e' :: rest => some (bool true, rest)
    | 'f' :: 'a' :: 'l' :: 's' :: 'e' :: rest => some (bool false, rest)
    | '"' :: rest =>
      (readText none true [] rest).map fun
        | (some s, rest) => (text s, rest)
        | (none, rest) => (brokenText, rest)
    | '[' :: rest =>
      match skipBlank rest with
      | ']' :: rest => some (array [], rest)
      | rest => readItems fuel [] rest
    | '\x7b' :: rest =>
      match skipBlank rest with
      | '\x7d' :: rest => some (object [], rest)
      | rest => readFields fuel [] rest
    | cs => readNumber cs

def readItems : Nat → List Json → List Char → Option (Json × List Char)
  | 0, _, _ => none
  | fuel + 1, acc, cs =>
    match readValue fuel cs with
    | none => none
    | some (v, rest) =>
      match skipBlank rest with
      | ',' :: rest => readItems fuel (v :: acc) rest
      | ']' :: rest => some (array (v :: acc).reverse, rest)
      | _ => none

def readFields : Nat → List (Option String × Json) → List Char → Option (Json × List Char)
  | 0, _, _ => none
  | fuel + 1, acc, cs =>
    match skipBlank cs with
    | '"' :: rest =>
      match readText none true [] rest with
      | none => none
      | some (key, rest) =>
        match skipBlank rest with
        | ':' :: rest =>
          match readValue fuel rest with
          | none => none
          | some (v, rest) =>
            match skipBlank rest with
            | ',' :: rest => readFields fuel ((key, v) :: acc) rest
            | '\x7d' :: rest => some (object ((key, v) :: acc).reverse, rest)
            | _ => none
        | _ => none
    | _ => none

end

def parse (s : String) : Option Json :=
  match readValue (s.toList.length + 1) s.toList with
  | some (doc, rest) => if skipBlank rest = [] then some doc else none
  | none => none

/-! ## Looking into documents -/

mutual

def nesting : Json → Nat
  | array items => nestingItems items + 1
  | object fields => nestingFields fields + 1
  | _ => 0

def nestingItems : List Json → Nat
  | [] => 0
  | v :: vs => max v.nesting (nestingItems vs)

def nestingFields : List (Option String × Json) → Nat
  | [] => 0
  | (_, v) :: fields => max v.nesting (nestingFields fields)

end

mutual

def isSound : Json → Bool
  | real finite => finite
  | brokenText => false
  | array items => areSound items
  | object fields => areFieldsSound fields
  | _ => true

def areSound : List Json → Bool
  | [] => true
  | v :: vs => v.isSound && areSound vs

def areFieldsSound : List (Option String × Json) → Bool
  | [] => true
  | (k, v) :: fields => k.isSome && v.isSound && areFieldsSound fields

end

/-- The values of the named fields in their order. An object may hold other fields too; an array
holds the values alone. -/
def record (names : List String) : Json → Option (List Json)
  | object fields =>
    if fields.all (·.1.isSome) then
      names.mapM fun name =>
        match fields.filter (·.1 = some name) with
        | [(_, v)] => some v
        | _ => none
    else none
  | array items => if items.length = names.length then some items else none
  | _ => none

def choice : Json → Option (String × Option Json)
  | text s => some (s, none)
  | object [(some k, v)] => some (k, some v)
  | _ => none

def asText : Json → Option String
  | text s => some s
  | _ => none

def asBool : Json → Option Bool
  | bool b => some b
  | _ => none

def asWord : Json → Option UInt64
  | nat n => if n < UInt64.size then some (UInt64.ofNat n) else none
  | _ => none

def asByte : Json → Option UInt8
  | nat n => if n < 256 then some (UInt8.ofNat n) else none
  | _ => none

def asList {α : Type} (item : Json → Option α) : Json → Option (List α)
  | array items => items.mapM item
  | _ => none

end Json

end DistFs
