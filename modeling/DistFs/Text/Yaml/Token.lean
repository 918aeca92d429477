import DistFs.Text.Yaml.Lexeme
/-!
# The tokens of a YAML text

A text as a list of tokens. Indentation becomes tokens that open and close blocks. That a scalar or
a flow collection is the key of a mapping shows only at the colon after it: the token that says so
is then put in front of it, and for this the last place where a key may have begun is remembered.
-/

namespace DistFs.Yaml

inductive Style where
  | plain
  | single
  | double
  | literal
  | folded
deriving DecidableEq

inductive Token where
  | documentStart
  | documentEnd
  | version (major minor : Nat)
  | handle (name leading : String)
  | blockSequenceStart
  | blockMappingStart
  | blockEnd
  | flowSequenceStart
  | flowSequenceEnd
  | flowMappingStart
  | flowMappingEnd
  | blockEntry
  | flowEntry
  | key
  | value
  | alias (name : String)
  | anchor (name : String)
  | tag (handle name : String)
  | scalar (text : String) (style : Style)
deriving DecidableEq

structure PossibleKey where
  required : Bool
  before : Nat
  position : Position

structure Scan where
  cursor : Cursor
  tokens : Array Token := #[]
  blocks : List Nat := []
  keyAllowed : Bool := true
  possible : Option PossibleKey := none
  outer : List (Option PossibleKey) := []

namespace Scan

def column (s : Scan) : Nat := s.cursor.position.column

def inFlow (s : Scan) : Bool := !s.outer.isEmpty

def margin (s : Scan) : Nat := s.blocks.head?.elim 0 (· + 1)

def push (s : Scan) (t : Token) : Scan := { s with tokens := s.tokens.push t }

def take (s : Scan) (n : Nat) (t : Token) : Scan :=
  { s.push t with cursor := s.cursor.advance n }

/-! ## Gaps and indentation -/

/-- Skips blanks, comments and line ends. A tab is no blank where a key may begin. A line end allows
a key outside of flow collections. -/
def skipGap (flow : Bool) (keyAllowed comment : Bool) : List Char → Position → Bool × Cursor
  | [], p => (keyAllowed, ⟨[], p⟩)
  | c :: rest, p =>
    if isBreak c then skipGap flow (keyAllowed || !flow) false rest (p.after c)
    else if comment || c = ' ' || (c = '\t' && (flow || !keyAllowed)) ||
        (c = byteOrderMark && p.index = 0) then
      skipGap flow keyAllowed comment rest (p.after c)
    else if c = '#' then skipGap flow keyAllowed true rest (p.after c)
    else (keyAllowed, ⟨c :: rest, p⟩)

def skip (s : Scan) : Scan :=
  let (keyAllowed, cursor) := skipGap s.inFlow s.keyAllowed false s.cursor.rest s.cursor.position
  { s with keyAllowed, cursor }

def close (column : Nat) : List Nat → Array Token → List Nat × Array Token
  | [], tokens => ([], tokens)
  | b :: blocks, tokens =>
    if column ≤ b then close column blocks (tokens.push .blockEnd) else (b :: blocks, tokens)

def unroll (s : Scan) : Scan :=
  if s.inFlow then s
  else
    let (blocks, tokens) := close (s.column + 1) s.blocks s.tokens
    { s with blocks, tokens }

/-- Opens a block in `column`, unless it is open already. Its token is put after the first
`before`. -/
def roll (s : Scan) (column before : Nat) (t : Token) : Scan :=
  if !s.inFlow && s.margin ≤ column then
    { s with blocks := column :: s.blocks, tokens := s.tokens.insertIdxIfInBounds before t }
  else s

/-! ## Keys -/

def longestKey : Nat := 1024

def dropStaleKey (here : Position) : Option PossibleKey → Option (Option PossibleKey)
  | some k =>
    if k.position.line < here.line || k.position.index + longestKey < here.index then
      if k.required then none else some none
    else some (some k)
  | none => some none

def dropStale (s : Scan) : Option Scan := do
  let possible ← dropStaleKey s.cursor.position s.possible
  let outer ← s.outer.mapM (dropStaleKey s.cursor.position)
  return { s with possible, outer }

def dropKey (s : Scan) : Option Scan :=
  if s.possible.any (·.required) then none else some { s with possible := none }

def saveKey (s : Scan) : Option Scan :=
  if s.keyAllowed then do
    let key : PossibleKey :=
      { required := !s.inFlow && s.blocks.head? = some s.column,
        before := s.tokens.size, position := s.cursor.position }
    return { ← s.dropKey with possible := some key }
  else some s

/-! ## Tokens -/

def startFlow (s : Scan) (t : Token) : Option Scan := do
  let s ← s.saveKey
  return { s.take 1 t with possible := none, outer := s.possible :: s.outer, keyAllowed := true }

def endFlow (s : Scan) (t : Token) : Option Scan := do
  let s ← s.dropKey
  let s := match s.outer with
    | possible :: outer => { s with possible, outer }
    | [] => s
  return { s.take 1 t with keyAllowed := false }

def flowEntry (s : Scan) : Option Scan := do
  return { (← s.dropKey).take 1 .flowEntry with keyAllowed := true }

def blockEntry (s : Scan) : Option Scan :=
  if !s.inFlow && !s.keyAllowed then none
  else do
    let s ← (s.roll s.column s.tokens.size .blockSequenceStart).dropKey
    return { s.take 1 .blockEntry with keyAllowed := true }

def key (s : Scan) : Option Scan :=
  if !s.inFlow && !s.keyAllowed then none
  else do
    let s ← (s.roll s.column s.tokens.size .blockMappingStart).dropKey
    return { s.take 1 .key with keyAllowed := !s.inFlow }

def value (s : Scan) : Option Scan :=
  match s.possible with
  | some k =>
    let s := { s with tokens := s.tokens.insertIdxIfInBounds k.before .key, possible := none }
    let s := s.roll k.position.column k.before .blockMappingStart
    some { s.take 1 .value with keyAllowed := false }
  | none =>
    if !s.inFlow && !s.keyAllowed then none
    else
      let s := s.roll s.column s.tokens.size .blockMappingStart
      some { s.take 1 .value with keyAllowed := !s.inFlow }

def finish (s : Scan) (cursor : Cursor) (t : Token) : Scan :=
  { s.push t with cursor, keyAllowed := false }

def endsAnchor (cs : List Char) : Bool :=
  atBoundary cs || cs.head?.any fun c => "?:,]\x7d%@`".contains c

def anchor (s : Scan) (t : String → Token) : Option Scan := do
  let s ← s.saveKey
  let (name, cursor) := (s.cursor.advance 1).span isWord
  if name ≠ [] && endsAnchor cursor.rest then
    return s.finish cursor (t (String.ofList name))
  else none

/-! ## Tags and directives -/

def isTagChar (verbatim : Bool) (c : Char) : Bool :=
  isWord c || ";/?:@&=+$.!~*'()%".contains c || (verbatim && ",[]".contains c)

def byteCount? (b : Nat) : Option Nat :=
  if b < 0x80 then some 1
  else if 0xC0 ≤ b ∧ b < 0xE0 then some 2
  else if 0xE0 ≤ b ∧ b < 0xF0 then some 3
  else if 0xF0 ≤ b ∧ b < 0xF8 then some 4
  else none

/-- Resolves the escapes in a tag. Each one stands for a byte, `left` more of which belong to the
character that has been begun. -/
def unescapeTag (left : Nat) (acc : List Char) : List Char → Option (List Char)
  | [] => if left = 0 then some acc.reverse else none
  | '%' :: a :: b :: rest =>
    match hexValue? a, hexValue? b with
    | some x, some y =>
      let byte := x * 16 + y
      if left = 0 then
        match byteCount? byte with
        | some n => unescapeTag (n - 1) (Char.ofNat byte :: acc) rest
        | none => none
      else if 0x80 ≤ byte && byte < 0xC0 then unescapeTag (left - 1) (Char.ofNat byte :: acc) rest
      else none
    | _, _ => none
  | c :: rest => if left = 0 && c ≠ '%' then unescapeTag 0 (c :: acc) rest else none

def tagName (verbatim : Bool) (start : List Char) (c : Cursor) : Option (String × Cursor) := do
  let (name, c) := c.span (isTagChar verbatim)
  return (String.ofList (start ++ (← unescapeTag 0 [] name)), c)

def tagHandle (c : Cursor) : Option (List Char × Cursor) := do
  let (name, c) := (← c.expect '!').span isWord
  match c.expect '!' with
  | some c => return ('!' :: name ++ ['!'], c)
  | none => return ('!' :: name, c)

def tagParts (c : Cursor) : Option (String × String × Cursor) :=
  match c.rest with
  | '!' :: '<' :: _ => do
    let (name, c) ← tagName true [] (c.advance 2)
    if name = "" then none else return ("", name, ← c.expect '>')
  | _ => do
    let (start, c) ← tagHandle c
    if 1 < start.length && start.getLast? = some '!' then
      let (name, c) ← tagName false [] c
      if name = "" then none else return (String.ofList start, name, c)
    else
      let (name, c) ← tagName false start.tail c
      if name = "" then return ("", "!", c) else return ("!", name, c)

def tag (s : Scan) : Option Scan := do
  let s ← s.saveKey
  let (handle, name, cursor) ← tagParts s.cursor
  if atBoundary cursor.rest || (s.inFlow && cursor.rest.head? = some ',') then
    return s.finish cursor (.tag handle name)
  else none

def number (c : Cursor) : Option (Nat × Cursor) :=
  let (digits, c) := c.span Char.isDigit
  if digits = [] || 9 < digits.length then none
  else some (digits.foldl (fun n d => n * 10 + (d.toNat - 48)) 0, c)

def directiveBody (name : String) (c : Cursor) : Option (Token × Cursor) :=
  match name with
  | "YAML" => do
    let (major, c) ← number (c.skip isBlank)
    let (minor, c) ← number (← c.expect '.')
    return (.version major minor, c)
  | "TAG" => do
    let (handle, c) ← tagHandle (c.skip isBlank)
    if (handle = ['!'] || (1 < handle.length && handle.getLast? = some '!')) && c.sees isBlank then
      let (leading, c) ← tagName true [] (c.skip isBlank)
      if leading ≠ "" && atBoundary c.rest then
        return (.handle (String.ofList handle) leading, c)
      else none
    else none
  | _ => none

def endDocument (s : Scan) : Option Scan := do
  let s := if s.inFlow then s
    else { s with tokens := (close 0 s.blocks s.tokens).2, blocks := [] }
  return { ← s.dropKey with keyAllowed := false }

def directive (s : Scan) : Option Scan := do
  let s ← s.endDocument
  let (name, c) := (s.cursor.advance 1).span isWord
  if name = [] || !atBoundary c.rest then none
  else
    let (token, c) ← directiveBody (String.ofList name) c
    let c := c.skip isBlank
    let c := if c.sees (· = '#') then c.skip (!isBreak ·) else c
    if atLineEnd c.rest then return { s.push token with cursor := c.advance 1 } else none

def documentMark (s : Scan) (t : Token) : Option Scan := do
  return (← s.endDocument).take 3 t

/-! ## Scalars -/

def blockScalar (s : Scan) (folded : Bool) : Option Scan := do
  let s ← s.dropKey
  let (head, c) ← readBlockHead folded (s.cursor.advance 1)
  let indent := head.increment.map (s.margin - 1 + ·)
  let (text, c) ← readBlock head (max s.margin 1) { indent } false c.rest c.position
  let s := s.push (.scalar (String.ofList text) (if folded then .folded else .literal))
  return { s with cursor := c, keyAllowed := true }

def quoted (s : Scan) (style : Style)
    (read : List Char → Position → Option (List Char × Cursor)) : Option Scan := do
  let s ← s.saveKey
  let c := s.cursor.advance 1
  let (text, c) ← read c.rest c.position
  return s.finish c (.scalar (String.ofList text) style)

def startsPlain (flow : Bool) : List Char → Bool
  | [] => false
  | c :: rest =>
    (!endsWord c && !"-?:,[]\x7b\x7d#&*!|>'\"%@`".contains c) ||
      (c = '-' && !rest.head?.any isBlank) ||
      (!flow && (c = '?' || c = ':') && !atBoundary rest)

def plain (s : Scan) : Option Scan := do
  let s ← s.saveKey
  let (p, c) ← readPlain s.inFlow s.margin [] {} s.cursor.rest s.cursor.position
  return { s.finish c (.scalar (String.ofList p.text) .plain) with keyAllowed := p.broken }

/-! ## The whole text -/

def next (s : Scan) (c : Char) (rest : List Char) : Option Scan :=
  if s.column = 0 && c = '%' then s.directive
  else if s.column = 0 && atMark '-' (c :: rest) then s.documentMark .documentStart
  else if s.column = 0 && atMark '.' (c :: rest) then s.documentMark .documentEnd
  else if c = '[' then s.startFlow .flowSequenceStart
  else if c = '\x7b' then s.startFlow .flowMappingStart
  else if c = ']' then s.endFlow .flowSequenceEnd
  else if c = '\x7d' then s.endFlow .flowMappingEnd
  else if c = ',' then s.flowEntry
  else if c = '-' && atBoundary rest then s.blockEntry
  else if c = '?' && (s.inFlow || atBoundary rest) then s.key
  else if c = ':' && (s.inFlow || atBoundary rest) then s.value
  else if c = '*' then s.anchor .alias
  else if c = '&' then s.anchor .anchor
  else if c = '!' then s.tag
  else if c = '|' && !s.inFlow then s.blockScalar false
  else if c = '>' && !s.inFlow then s.blockScalar true
  else if c = '\'' then s.quoted .single (readSingle [] {})
  else if c = '"' then s.quoted .double (readDouble [] {} .none)
  else if startsPlain s.inFlow (c :: rest) then s.plain
  else none

def run : Nat → Scan → Option (Array Token)
  | 0, _ => none
  | fuel + 1, s => do
    let s := (← s.skip.dropStale).unroll
    match s.cursor.rest with
    | [] => return (← s.endDocument).tokens
    | c :: rest => run fuel (← s.next c rest)

end Scan

def Token.scan (cs : List Char) : Option (List Token) :=
  ((Scan.mk ⟨cs, {}⟩ #[] [] true none []).run (cs.length + 1)).map Array.toList

end DistFs.Yaml
