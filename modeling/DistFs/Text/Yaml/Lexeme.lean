import DistFs.Text.Yaml.Source
/-!
# Scalars as they are written

The four ways to write a scalar: plain, between quotes of one of two kinds, and as a block of lines.
Between quotes and in plain scalars the end of a line stands for a space; more line ends in a row
stand for one less.
-/

namespace DistFs.Yaml

/-! ## Gaps -/

structure Gap where
  blanks : List Char := []
  broken : Bool := false
  first : Option Char := none
  later : List Char := []

namespace Gap

def addBlank (g : Gap) (c : Char) : Gap :=
  if g.broken then g else { g with blanks := g.blanks ++ [c] }

def addBreak (g : Gap) (c : Char) : Gap :=
  if g.broken then { g with later := g.later ++ [c] }
  else { broken := true, first := some c }

def fold (g : Gap) : List Char :=
  if !g.broken then g.blanks
  else match g.first with
    | none => g.later
    | some '\n' => if g.later = [] then [' '] else g.later
    | some c => c :: g.later

def hidden : Gap := { broken := true }

end Gap

/-! ## Plain scalars -/

structure Plain where
  text : List Char
  broken : Bool

def isFlowIndicator (c : Char) : Bool :=
  c = ',' || c = '[' || c = ']' || c = '\x7b' || c = '\x7d'

/-- Reads a plain scalar. `margin` is the least column its later lines may start in; it counts
outside of flow collections. -/
def readPlain (flow : Bool) (margin : Nat) (acc : List Char) (gap : Gap) :
    List Char → Position → Option (Plain × Cursor)
  | [], p => some (⟨acc.reverse, gap.broken⟩, ⟨[], p⟩)
  | c :: rest, p =>
    if isBlank c then
      if gap.broken && c = '\t' && p.column < margin then none
      else readPlain flow margin acc (gap.addBlank c) rest (p.after c)
    else if isBreak c then readPlain flow margin acc (gap.addBreak c) rest (p.after c)
    else
      let afterGap := gap.broken || gap.blanks ≠ []
      let done := some (⟨acc.reverse, gap.broken⟩, ⟨c :: rest, p⟩)
      if afterGap && ((!flow && p.column < margin) || c = '#' ||
          (p.column = 0 && atDocumentMark (c :: rest))) then done
      else if flow && c = ':' && rest.head?.any fun d => isFlowIndicator d || d = '?' then none
      else if (c = ':' && atBoundary rest) || (flow && isFlowIndicator c) then done
      else readPlain flow margin (c :: (gap.fold.reverse ++ acc)) {} rest (p.after c)

/-! ## Quoted scalars -/

def hexValue? (c : Char) : Option Nat :=
  if '0' ≤ c ∧ c ≤ '9' then some (c.toNat - 48)
  else if 'a' ≤ c ∧ c ≤ 'f' then some (c.toNat - 87)
  else if 'A' ≤ c ∧ c ≤ 'F' then some (c.toNat - 55)
  else none

def hexChar? (digits : List Char) : Option Char := do
  let n ← digits.foldlM (fun n d => return n * 16 + (← hexValue? d)) 0
  if n.isValidChar then some (Char.ofNat n) else none

def escaped? : Char → Option Char
  | '0' => some (Char.ofNat 0)
  | 'a' => some (Char.ofNat 7)
  | 'b' => some (Char.ofNat 8)
  | 't' => some '\t'
  | '\t' => some '\t'
  | 'n' => some '\n'
  | 'v' => some (Char.ofNat 11)
  | 'f' => some (Char.ofNat 12)
  | 'r' => some '\r'
  | 'e' => some (Char.ofNat 27)
  | ' ' => some ' '
  | '"' => some '"'
  | '/' => some '/'
  | '\\' => some '\\'
  | 'N' => some nextLine
  | '_' => some (Char.ofNat 0xA0)
  | 'L' => some lineSeparator
  | 'P' => some paragraphSeparator
  | _ => none

def escapeDigits : Char → Nat
  | 'x' => 2
  | 'u' => 4
  | 'U' => 8
  | _ => 0

def readSingle (acc : List Char) (gap : Gap) :
    List Char → Position → Option (List Char × Cursor)
  | [], _ => none
  | c :: rest, p =>
    if isBlank c then readSingle acc (gap.addBlank c) rest (p.after c)
    else if isBreak c then readSingle acc (gap.addBreak c) rest (p.after c)
    else if p.column = 0 && atDocumentMark (c :: rest) then none
    else
      let acc := gap.fold.reverse ++ acc
      if c ≠ '\'' then readSingle (c :: acc) {} rest (p.after c)
      else match rest with
        | '\'' :: rest => readSingle ('\'' :: acc) {} rest ((p.after c).after '\'')
        | _ => some (acc.reverse, ⟨rest, p.after c⟩)

inductive Escape where
  | none
  | started
  | digits (left : Nat) (read : List Char)

def readDouble (acc : List Char) (gap : Gap) :
    Escape → List Char → Position → Option (List Char × Cursor)
  | _, [], _ => none
  | .started, c :: rest, p =>
    if isBreak c then readDouble acc .hidden .none rest (p.after c)
    else if escapeDigits c = 0 then
      match escaped? c with
      | some x => readDouble (x :: acc) {} .none rest (p.after c)
      | none => none
    else readDouble acc {} (.digits (escapeDigits c - 1) []) rest (p.after c)
  | .digits left read, c :: rest, p =>
    match left with
    | left + 1 => readDouble acc {} (.digits left (c :: read)) rest (p.after c)
    | 0 =>
      match hexChar? (c :: read).reverse with
      | some x => readDouble (x :: acc) {} .none rest (p.after c)
      | none => none
  | .none, c :: rest, p =>
    if isBlank c then readDouble acc (gap.addBlank c) .none rest (p.after c)
    else if isBreak c then readDouble acc (gap.addBreak c) .none rest (p.after c)
    else if p.column = 0 && atDocumentMark (c :: rest) then none
    else
      let acc := gap.fold.reverse ++ acc
      if c = '\\' then readDouble acc {} .started rest (p.after c)
      else if c = '"' then some (acc.reverse, ⟨rest, p.after c⟩)
      else readDouble (c :: acc) {} .none rest (p.after c)

/-! ## Block scalars -/

inductive Chomping where
  | strip
  | clip
  | keep
deriving DecidableEq

structure BlockHead where
  folded : Bool
  chomping : Chomping := .clip
  increment : Option Nat := none

def Chomping.ofChar? : Char → Option Chomping
  | '+' => some .keep
  | '-' => some .strip
  | _ => none

def increment? (c : Char) : Option Nat :=
  if '1' ≤ c ∧ c ≤ '9' then some (c.toNat - 48) else none

def readBlockHead (folded : Bool) (c : Cursor) : Option (BlockHead × Cursor) :=
  let (head, c) : BlockHead × Cursor := match c.rest with
    | x :: y :: _ =>
      match Chomping.ofChar? x, increment? x, Chomping.ofChar? y, increment? y with
      | some chomping, _, _, some n => (⟨folded, chomping, some n⟩, c.advance 2)
      | some chomping, _, _, none => (⟨folded, chomping, none⟩, c.advance 1)
      | none, some n, some chomping, _ => (⟨folded, chomping, some n⟩, c.advance 2)
      | none, some n, none, _ => (⟨folded, .clip, some n⟩, c.advance 1)
      | none, none, _, _ => ({ folded }, c)
    | [x] =>
      match Chomping.ofChar? x, increment? x with
      | some chomping, _ => (⟨folded, chomping, none⟩, c.advance 1)
      | none, some n => (⟨folded, .clip, some n⟩, c.advance 1)
      | none, none => ({ folded }, c)
    | [] => ({ folded }, c)
  let c := c.skip isBlank
  let c := if c.sees (· = '#') then c.skip (!isBreak ·) else c
  if atLineEnd c.rest then some (head, c.advance 1) else none

structure Block where
  indent : Option Nat
  deepest : Nat := 0
  text : List Char := []
  lineEnd : List Char := []
  emptyEnds : List Char := []
  blankStart : Bool := false

namespace Block

def startLine (b : Block) (folded : Bool) (c : Char) : Block :=
  let joined :=
    if folded && b.lineEnd = ['\n'] && !b.blankStart && !isBlank c then
      if b.emptyEnds = [] then [' '] else b.emptyEnds
    else b.lineEnd ++ b.emptyEnds
  { b with
    text := c :: (joined.reverse ++ b.text), lineEnd := [], emptyEnds := [],
    blankStart := isBlank c }

def finish (b : Block) (chomping : Chomping) : List Char :=
  let tail := match chomping with
    | .strip => []
    | .clip => b.lineEnd
    | .keep => b.lineEnd ++ b.emptyEnds
  b.text.reverse ++ tail

end Block

/-- Reads the lines of a block scalar. `least` is the least column they may start in, and `inLine`
says whether a line has been started. -/
def readBlock (head : BlockHead) (least : Nat) (b : Block) (inLine : Bool) :
    List Char → Position → Option (List Char × Cursor)
  | [], p => some (b.finish head.chomping, ⟨[], p⟩)
  | c :: rest, p =>
    if inLine then
      if isBreak c then
        readBlock head least { b with lineEnd := [c] } false rest (p.after c)
      else readBlock head least { b with text := c :: b.text } true rest (p.after c)
    else
      let before := b.indent.all (p.column < ·)
      if before && c = ' ' then readBlock head least b false rest (p.after c)
      else if before && c = '\t' then none
      else
        let deepest := max b.deepest p.column
        if isBreak c then
          readBlock head least { b with deepest, emptyEnds := b.emptyEnds ++ [c] } false rest
            (p.after c)
        else
          let indent := b.indent.getD (max deepest least)
          if p.column = indent then
            readBlock head least ({ b with indent := some indent }.startLine head.folded c) true
              rest
              (p.after c)
          else some (b.finish head.chomping, ⟨c :: rest, p⟩)

end DistFs.Yaml
