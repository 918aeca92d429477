import DistFs.Text.Yaml.Meaning
/-!
# Writing scalars

A text is written plainly if it can be, else between single quotes if it can be, else between double
quotes. A text of several lines is written line by line if it can be.
-/

namespace DistFs.Yaml

/-! ## Which styles fit a text -/

def isPrintable (c : Char) : Bool :=
  let n := c.toNat
  n = 0x0A || (0x20 ≤ n && n ≤ 0x7E) || (0xA0 ≤ n && n ≤ 0xFFFD && n ≠ 0xFEFF) ||
    0x10000 ≤ n

def hasPair (p q : Char → Bool) : List Char → Bool
  | a :: b :: rest => (p a && q b) || hasPair p q (b :: rest)
  | _ => false

def isSpace (c : Char) : Bool := c = ' '

def startsLikeIndicator : List Char → Bool
  | [] => false
  | c :: rest => "#,[]\x7b\x7d&*!|>'\"%@`".contains c || ("?:-".contains c && atBoundary rest)

def holdsIndicator : List Char → Bool
  | a :: b :: rest =>
    (b = ':' && atBoundary rest) || (b = '#' && endsWord a) || holdsIndicator (b :: rest)
  | _ => false

def fitsQuotes (cs : List Char) : Bool :=
  cs.all isPrintable && !hasPair isSpace isBreak cs && !hasPair isBreak isSpace cs

def isOuterBlank (c : Option Char) : Bool := c.any fun c => c = ' ' || isBreak c

def fitsPlain (cs : List Char) : Bool :=
  fitsQuotes cs && !cs.any isBreak && !isOuterBlank cs.head? && !isOuterBlank cs.getLast? &&
    !startsLikeIndicator cs && !holdsIndicator cs &&
    !(cs.take 3 = ['-', '-', '-'] || cs.take 3 = ['.', '.', '.'])

def fitsLines (cs : List Char) : Bool :=
  cs.all isPrintable && !hasPair isSpace isBreak cs && cs.getLast? ≠ some ' '

def styleOf (s : String) : Style :=
  let cs := s.toList
  if '\n' ∈ cs then if fitsLines cs then .literal else .double
  else if isAmbiguous s then .single
  else if fitsPlain cs then .plain
  else if fitsQuotes cs then .single
  else .double

/-! ## Written forms -/

def lineIndent : List Char := [' ', ' ', ' ', ' ']

def upperHex (n : Nat) : Char := if n < 10 then Char.ofNat (48 + n) else Char.ofNat (55 + n)

def hexDigits : Nat → Nat → List Char
  | 0, _ => []
  | width + 1, n => hexDigits width (n / 16) ++ [upperHex (n % 16)]

def escapeChar (c : Char) : List Char :=
  let n := c.toNat
  if isPrintable c && !isBreak c && c ≠ '"' && c ≠ '\\' then [c]
  else if c = '"' || c = '\\' then ['\\', c]
  else if n = 0 then ['\\', '0']
  else if n = 7 then ['\\', 'a']
  else if n = 8 then ['\\', 'b']
  else if n = 9 then ['\\', 't']
  else if n = 10 then ['\\', 'n']
  else if n = 11 then ['\\', 'v']
  else if n = 12 then ['\\', 'f']
  else if n = 13 then ['\\', 'r']
  else if n = 27 then ['\\', 'e']
  else if c = nextLine then ['\\', 'N']
  else if c = lineSeparator then ['\\', 'L']
  else if c = paragraphSeparator then ['\\', 'P']
  else if n ≤ 0xFF then '\\' :: 'x' :: hexDigits 2 n
  else if n ≤ 0xFFFF then '\\' :: 'u' :: hexDigits 4 n
  else '\\' :: 'U' :: hexDigits 8 n

/-- The characters between single quotes. The first of several newlines is written twice, and after
a line end, which `broken` tells of, the text goes on indented. -/
def singleQuoted (broken : Bool) : List Char → List Char
  | [] => if broken then lineIndent else []
  | c :: rest =>
    if isBreak c then
      (if c = '\n' && !broken then [c, c] else [c]) ++ singleQuoted true rest
    else
      (if broken then lineIndent else []) ++ (if c = '\'' then [c, c] else [c]) ++
        singleQuoted false rest

def literalLines (atStart : Bool) : List Char → List Char
  | [] => []
  | c :: rest =>
    if isBreak c then c :: literalLines true rest
    else (if atStart then lineIndent else []) ++ c :: literalLines false rest

def literalHints (cs : List Char) : List Char :=
  let indent := if isOuterBlank cs.head? then ['2'] else []
  let chomping := match cs.reverse with
    | [] => ['-']
    | [a] => if isBreak a then ['+'] else ['-']
    | a :: b :: _ => if !isBreak a then ['-'] else if isBreak b then ['+'] else []
  indent ++ chomping

def styled (cs : List Char) : Style → List Char
  | .plain => cs
  | .single => '\'' :: singleQuoted false cs ++ ['\'']
  | .double => '"' :: cs.flatMap escapeChar ++ ['"']
  | .literal | .folded => '|' :: literalHints cs ++ '\n' :: literalLines true cs

def writeText (s : String) : String :=
  let cs := styled s.toList (styleOf s)
  String.ofList (if cs.getLast?.any isBreak then cs else cs ++ ['\n'])

end DistFs.Yaml
