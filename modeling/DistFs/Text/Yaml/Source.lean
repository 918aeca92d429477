/-!
# The characters of a YAML text

Which characters a text may hold, what ends a line and what separates words, and where in the text
a character stands. Every way to end a line is read as a newline, the line and the paragraph
separator apart, which stay what they are.
-/

namespace DistFs.Yaml

def isReadable (c : Char) : Bool :=
  let n := c.toNat
  n = 0x09 || n = 0x0A || n = 0x0D || (0x20 ≤ n && n ≤ 0x7E) || n = 0x85 ||
    (0xA0 ≤ n && n ≤ 0xFFFD) || 0x10000 ≤ n

def byteOrderMark : Char := Char.ofNat 0xFEFF

def nextLine : Char := Char.ofNat 0x85

def lineSeparator : Char := Char.ofNat 0x2028

def paragraphSeparator : Char := Char.ofNat 0x2029

def isBreak (c : Char) : Bool :=
  c = '\n' || c = '\r' || c = nextLine || c = lineSeparator || c = paragraphSeparator

def isBlank (c : Char) : Bool := c = ' ' || c = '\t'

def isWord (c : Char) : Bool := c.isAlphanum || c = '_' || c = '-'

def endsWord (c : Char) : Bool := isBlank c || isBreak c

def atBoundary : List Char → Bool
  | [] => true
  | c :: _ => endsWord c

def atLineEnd : List Char → Bool
  | [] => true
  | c :: _ => isBreak c

def atMark (mark : Char) : List Char → Bool
  | a :: b :: c :: rest => a = mark && b = mark && c = mark && atBoundary rest
  | _ => false

def atDocumentMark (cs : List Char) : Bool := atMark '-' cs || atMark '.' cs

def joinLineEnds : List Char → List Char
  | [] => []
  | '\r' :: '\n' :: rest => '\n' :: joinLineEnds rest
  | c :: rest => (if c = '\r' || c = nextLine then '\n' else c) :: joinLineEnds rest

def readable? (s : String) : Option (List Char) :=
  if s.toList.all isReadable then some (joinLineEnds s.toList) else none

/-! ## Positions -/

structure Position where
  index : Nat := 0
  line : Nat := 0
  column : Nat := 0

def Position.after (p : Position) (c : Char) : Position :=
  if isBreak c then ⟨p.index + 1, p.line + 1, 0⟩ else ⟨p.index + 1, p.line, p.column + 1⟩

structure Cursor where
  rest : List Char
  position : Position := {}

namespace Cursor

def advance : Nat → Cursor → Cursor
  | 0, c => c
  | n + 1, ⟨x :: rest, p⟩ => advance n ⟨rest, p.after x⟩
  | _ + 1, c => c

def span (p : Char → Bool) (c : Cursor) : List Char × Cursor :=
  let run := c.rest.takeWhile p
  (run, c.advance run.length)

def skip (p : Char → Bool) (c : Cursor) : Cursor := (c.span p).2

def sees (c : Cursor) (p : Char → Bool) : Bool := c.rest.head?.any p

def expect (x : Char) : Cursor → Option Cursor
  | ⟨y :: rest, p⟩ => if x = y then some ⟨rest, p.after y⟩ else none
  | _ => none

end Cursor

end DistFs.Yaml
