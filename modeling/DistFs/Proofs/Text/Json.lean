import DistFs.Text.Json
/-!
# Reading back what was written

A document that is written in full is read back as it was, whatever its texts hold. That leaves out
only those that writing does not keep: numbers that are no 64-bit natural ones, and broken texts.
-/

namespace DistFs

/-! ## Numbers -/

namespace Decimal

theorem ofDigits_toDigits (n : Nat) : ofDigits (Nat.toDigits 10 n) = n := by
  have same : ofDigits (Nat.toDigits 10 n) = Nat.ofDigitChars 10 (Nat.toDigits 10 n) 0 := by
    rw [Nat.ofDigitChars_eq_foldl, ofDigits]
    congr 1
    funext sofar c
    rw [Nat.mul_comm]
    rfl
  rw [same, Nat.ofDigitChars_ten_toDigits]

theorem exists_digit (n : Nat) : ∃ d ds, Nat.toDigits 10 n = d :: ds ∧ d.isDigit = true := by
  obtain ⟨d, ds, shape⟩ := List.exists_cons_of_ne_nil (Nat.toDigits_ne_nil (n := n) (b := 10))
  have member : d ∈ Nat.toDigits 10 n := shape ▸ List.mem_cons_self
  exact ⟨d, ds, shape, Nat.isDigit_of_mem_toDigits (by decide) (by decide) member⟩

theorem ne_of_isDigit {c d : Char} (digit : c.isDigit = true) (other : d.isDigit = false) :
    c ≠ d := by
  rintro rfl
  rw [digit] at other
  cases other

theorem head?_toDigits {n : Nat} (pos : 0 < n) : (Nat.toDigits 10 n).head? ≠ some '0' := by
  induction n using Nat.strongRecOn with
  | ind n ih =>
    by_cases small : n < 10
    · rw [Nat.toDigits_of_lt_base small]
      clear ih
      revert pos
      decide +revert
    · rw [Nat.toDigits_of_base_le (by decide) (Nat.not_lt.mp small), List.head?_append]
      obtain ⟨d, ds, shape, -⟩ := exists_digit (n / 10)
      have first := ih (n / 10) (by omega) (by omega)
      rw [shape] at first ⊢
      exact first

theorem leading_toDigits (n : Nat) : ¬ (Nat.toDigits 10 n = [] ∨
    ((Nat.toDigits 10 n).head? = some '0' ∧ 1 < (Nat.toDigits 10 n).length)) := by
  rintro (none | ⟨zero, long⟩)
  · exact Nat.toDigits_ne_nil none
  · cases n with
    | zero => simp at long
    | succ n => exact head?_toDigits (Nat.succ_pos n) zero

theorem span_toDigits (n : Nat) {rest : List Char}
    (stop : ∀ c, rest.head? = some c → c.isDigit = false) :
    (Nat.toDigits 10 n ++ rest).takeWhile Char.isDigit = Nat.toDigits 10 n ∧
      (Nat.toDigits 10 n ++ rest).dropWhile Char.isDigit = rest := by
  have digits : ∀ c ∈ Nat.toDigits 10 n, c.isDigit = true := fun c member =>
    Nat.isDigit_of_mem_toDigits (by decide) (by decide) member
  rw [List.takeWhile_append_of_pos digits, List.dropWhile_append_of_pos digits]
  cases rest with
  | nil => simp
  | cons c rest => simp [stop c rfl]

end Decimal

namespace Json

variable {n fuel : Nat} {c : Char} {rest cs acc : List Char} {v : Json}

/-! ## Documents that are written in full -/

mutual

def isPlain : Json → Bool
  | nat n => n < UInt64.size
  | real _ | brokenText => false
  | array items => arePlain items
  | object fields => areFieldsPlain fields
  | _ => true

def arePlain : List Json → Bool
  | [] => true
  | v :: vs => v.isPlain && arePlain vs

def areFieldsPlain : List (Option String × Json) → Bool
  | [] => true
  | (k, v) :: fields => k.isSome && v.isPlain && areFieldsPlain fields

end

/-! ## What is written -/

mutual

theorem write_eq : ∀ (v : Json) (out : String), v.write out = out ++ v.write ""
  | null, _ | bool _, _ | nat _, _ | real _, _ | text _, _ | brokenText, _ | array [], _
  | object [], _ => by simp [write]
  | array (v :: vs), out => by
    rw [write, write, writeItems_eq vs, write_eq v, writeItems_eq vs (v.write _),
      write_eq v ("" ++ "[")]
    simp only [String.append_assoc, String.empty_append]
  | object ((k, v) :: fields), out => by
    rw [write, write, writeFields_eq fields, write_eq v, writeFields_eq fields (v.write _),
      write_eq v ("" ++ "\x7b" ++ writeKey k)]
    simp only [String.append_assoc, String.empty_append]

theorem writeItems_eq : ∀ (vs : List Json) (out : String),
    writeItems vs out = out ++ writeItems vs ""
  | [], _ => by simp [writeItems]
  | v :: vs, out => by
    rw [writeItems, writeItems, writeItems_eq vs, write_eq v, writeItems_eq vs (v.write _),
      write_eq v ("" ++ ",")]
    simp only [String.append_assoc, String.empty_append]

theorem writeFields_eq : ∀ (fields : List (Option String × Json)) (out : String),
    writeFields fields out = out ++ writeFields fields ""
  | [], _ => by simp [writeFields]
  | (k, v) :: fields, out => by
    rw [writeFields, writeFields, writeFields_eq fields, write_eq v,
      writeFields_eq fields (v.write _), write_eq v ("" ++ "," ++ writeKey k)]
    simp only [String.append_assoc, String.empty_append]

end

def letters (v : Json) : List Char := (v.write "").toList

def itemLetters (vs : List Json) : List Char := (writeItems vs "").toList

def fieldLetters (fields : List (Option String × Json)) : List Char :=
  (writeFields fields "").toList

theorem letters_array (v : Json) (vs : List Json) :
    letters (array (v :: vs)) = '[' :: (v.letters ++ itemLetters vs ++ [']']) := by
  rw [letters, write, writeItems_eq, write_eq]
  simp [letters, itemLetters]

theorem itemLetters_cons (v : Json) (vs : List Json) :
    itemLetters (v :: vs) = ',' :: (v.letters ++ itemLetters vs) := by
  rw [itemLetters, writeItems, writeItems_eq, write_eq]
  simp [letters, itemLetters]

theorem letters_object (k : String) (v : Json) (fields : List (Option String × Json)) :
    letters (object ((some k, v) :: fields)) =
      '\x7b' :: ((quote k).toList ++ ':' :: v.letters ++ fieldLetters fields ++ ['\x7d']) := by
  rw [letters, write, writeFields_eq, write_eq]
  simp [letters, fieldLetters, writeKey]

theorem fieldLetters_cons (k : String) (v : Json) (fields : List (Option String × Json)) :
    fieldLetters ((some k, v) :: fields) =
      ',' :: ((quote k).toList ++ ':' :: v.letters ++ fieldLetters fields) := by
  rw [fieldLetters, writeFields, writeFields_eq, write_eq]
  simp [letters, fieldLetters, writeKey]

/-! ## Texts -/

theorem hexValue?_hexDigit (small : n < 16) : hexValue? (hexDigit n) = some n := by
  decide +revert

theorem codeUnit?_control (low : c.toNat < 32) :
    codeUnit? '0' '0' (hexDigit (c.toNat / 16)) (hexDigit (c.toNat % 16)) = some c.toNat := by
  have zero : hexValue? '0' = some 0 := rfl
  simp only [codeUnit?, zero, hexValue?_hexDigit (show c.toNat / 16 < 16 by omega),
    hexValue?_hexDigit (show c.toNat % 16 < 16 by omega), Option.bind_eq_bind, Option.bind_some,
    Option.pure_def]
  congr 1
  omega

theorem readText_escape (c : Char) (acc cs : List Char) :
    readText none true acc (escape c ++ cs) = readText none true (c :: acc) cs := by
  unfold escape
  split
  next same => subst same; rfl
  split
  next same => subst same; rfl
  split
  next same => subst same; rfl
  split
  next same => subst same; rfl
  split
  next same => subst same; rfl
  split
  next same =>
    have : c = Char.ofNat 8 := by rw [← same, Char.ofNat_toNat]
    subst this
    rfl
  split
  next same =>
    have : c = Char.ofNat 12 := by rw [← same, Char.ofNat_toNat]
    subst this
    rfl
  split
  next low =>
    simp only [List.cons_append, List.nil_append]
    rw [readText.eq_def]
    simp only [codeUnit?_control low]
    rw [if_neg (by omega), if_neg (by omega), Char.ofNat_toNat]
  next quote backslash _ _ _ _ _ printable =>
    rw [List.singleton_append, readText.eq_def]
    split <;> simp_all [Nat.not_lt.mpr]

theorem readText_escaped (s acc rest : List Char) :
    readText none true acc (s.flatMap escape ++ '"' :: rest) =
      some (some (String.ofList (acc.reverse ++ s)), rest) := by
  induction s generalizing acc with
  | nil => simp [readText]
  | cons c s ih =>
    rw [List.flatMap_cons, List.append_assoc, readText_escape, ih, List.reverse_cons,
      List.append_assoc, List.singleton_append]

theorem readText_quoted (s : String) (rest : List Char) :
    readText none true [] (s.toList.flatMap escape ++ '"' :: rest) = some (some s, rest) := by
  rw [readText_escaped, List.reverse_nil, List.nil_append, String.ofList_toList]

/-- What may follow a value. A number ends there. -/
def Ends (rest : List Char) : Prop := ∀ c, rest.head? = some c → c = ',' ∨ c = ']' ∨ c = '\x7d'

theorem readNumber_toDigits (n : Nat) (word : n < UInt64.size) (ends : Ends rest) :
    readNumber (Nat.toDigits 10 n ++ rest) = some (nat n, rest) := by
  have stop : ∀ c, rest.head? = some c → c.isDigit = false ∧ c ≠ '.' ∧ c ≠ 'e' ∧ c ≠ 'E' := by
    intro c first
    rcases ends c first with rfl | rfl | rfl <;> decide
  obtain ⟨taken, left⟩ := Decimal.span_toDigits n fun c first => (stop c first).1
  have unsigned : ∀ more, Nat.toDigits 10 n ++ rest ≠ '-' :: more := by
    intro more same
    obtain ⟨d, ds, shape, digit⟩ := Decimal.exists_digit n
    rw [shape, List.cons_append] at same
    exact Decimal.ne_of_isDigit digit (by decide) (List.cons.inj same).1
  unfold readNumber
  split
  next negative cs signed =>
    split at signed
    next more same => exact absurd same (unsigned more)
    cases signed
    simp only [taken, left, if_neg (Decimal.leading_toDigits n)]
    cases rest with
    | nil => simp [Decimal.ofDigits_toDigits, word]
    | cons c rest =>
      obtain ⟨-, point, small, large⟩ := stop c rfl
      simp [Decimal.ofDigits_toDigits, word, point, small, large]

/-! ## Values -/

theorem toList_quote (s : String) (rest : List Char) :
    (quote s).toList ++ rest = '"' :: (s.toList.flatMap escape ++ '"' :: rest) := by
  simp [quote]

theorem skipBlank_cons (solid : isBlank c = false) : skipBlank (c :: cs) = c :: cs := by
  simp [skipBlank, solid]

theorem isBlank_digit (digit : c.isDigit = true) : isBlank c = false := by
  simp [isBlank, Decimal.ne_of_isDigit digit]

theorem letters_starts (plain : v.isPlain = true) :
    ∃ c more, v.letters = c :: more ∧ isBlank c = false ∧ c ≠ ']' := by
  cases v with
  | null => exact ⟨_, _, rfl, by decide, by decide⟩
  | bool b => cases b <;> exact ⟨_, _, rfl, by decide, by decide⟩
  | nat n =>
    obtain ⟨d, ds, shape, digit⟩ := Decimal.exists_digit n
    exact ⟨d, ds, by simp [letters, write, shape], isBlank_digit digit,
      Decimal.ne_of_isDigit digit (by decide)⟩
  | real finite => cases plain
  | brokenText => cases plain
  | text s =>
    exact ⟨'"', s.toList.flatMap escape ++ ['"'], by simp [letters, write, quote], by decide,
      by decide⟩
  | array items =>
    cases items with
    | nil => exact ⟨_, _, rfl, by decide, by decide⟩
    | cons v vs => exact ⟨_, _, letters_array v vs, by decide, by decide⟩
  | object fields =>
    cases fields with
    | nil => exact ⟨_, _, rfl, by decide, by decide⟩
    | cons entry fields =>
      obtain ⟨k, v⟩ := entry
      cases k with
      | none => cases plain
      | some k => exact ⟨_, _, letters_object k v fields, by decide, by decide⟩

def Reads (v : Json) : Prop :=
  ∀ fuel rest, Ends rest → v.letters.length < fuel →
    readValue fuel (v.letters ++ rest) = some (v, rest)

theorem Reads.of_succ (reads : ∀ fuel rest, Ends rest → v.letters.length ≤ fuel →
    readValue (fuel + 1) (v.letters ++ rest) = some (v, rest)) : v.Reads := by
  intro fuel rest ends enough
  obtain ⟨fuel, rfl⟩ := Nat.exists_eq_succ_of_ne_zero (Nat.ne_zero_of_lt enough)
  exact reads fuel rest ends (Nat.le_of_lt_succ enough)

theorem ends_comma (rest : List Char) : Ends (',' :: rest) := by simp [Ends]

theorem ends_bracket (rest : List Char) : Ends (']' :: rest) := by simp [Ends]

theorem ends_brace (rest : List Char) : Ends ('\x7d' :: rest) := by simp [Ends]

theorem readItems_letters {v : Json} {vs : List Json} (reads : v.Reads) (later : ∀ w ∈ vs, w.Reads)
    (fuel : Nat) (acc : List Json) (rest : List Char)
    (enough : v.letters.length + (itemLetters vs).length + 1 < fuel) :
    readItems fuel acc (v.letters ++ (itemLetters vs ++ ']' :: rest)) =
      some (array (acc.reverse ++ v :: vs), rest) := by
  induction vs generalizing v acc fuel with
  | nil =>
    obtain ⟨fuel, rfl⟩ := Nat.exists_eq_succ_of_ne_zero (Nat.ne_zero_of_lt enough)
    have read := reads fuel (']' :: rest) (ends_bracket rest) (by omega)
    have nothing : itemLetters [] = [] := rfl
    rw [nothing, List.nil_append, readItems, read]
    simp [skipBlank_cons (show isBlank ']' = false by decide)]
  | cons w vs ih =>
    obtain ⟨fuel, rfl⟩ := Nat.exists_eq_succ_of_ne_zero (Nat.ne_zero_of_lt enough)
    rw [itemLetters_cons, List.length_cons, List.length_append] at enough
    have read := reads fuel (',' :: (w.letters ++ (itemLetters vs ++ ']' :: rest))) (ends_comma _)
      (by omega)
    have more := ih (later w List.mem_cons_self)
      (fun u member => later u (List.mem_cons_of_mem w member)) fuel (v :: acc) (by omega)
    rw [itemLetters_cons, List.cons_append, List.append_assoc, readItems, read]
    simp only [skipBlank_cons (show isBlank ',' = false by decide), more]
    simp

theorem readFields_letters {k : String} {v : Json} {fields : List (Option String × Json)}
    (reads : v.Reads) (later : ∀ entry ∈ fields, entry.1.isSome = true ∧ entry.2.Reads)
    (fuel : Nat) (acc : List (Option String × Json)) (rest : List Char)
    (enough : v.letters.length + (fieldLetters fields).length + 1 < fuel) :
    readFields fuel acc
        ((quote k).toList ++ ':' :: (v.letters ++ (fieldLetters fields ++ '\x7d' :: rest))) =
      some (object (acc.reverse ++ (some k, v) :: fields), rest) := by
  induction fields generalizing k v acc fuel with
  | nil =>
    obtain ⟨fuel, rfl⟩ := Nat.exists_eq_succ_of_ne_zero (Nat.ne_zero_of_lt enough)
    have read := reads fuel ('\x7d' :: rest) (ends_brace rest) (by omega)
    have nothing : fieldLetters [] = [] := rfl
    rw [nothing, List.nil_append, toList_quote, readFields,
      skipBlank_cons (show isBlank '"' = false by decide)]
    simp only [readText_quoted, skipBlank_cons (show isBlank ':' = false by decide), read,
      skipBlank_cons (show isBlank '\x7d' = false by decide)]
    simp
  | cons entry fields ih =>
    obtain ⟨fuel, rfl⟩ := Nat.exists_eq_succ_of_ne_zero (Nat.ne_zero_of_lt enough)
    obtain ⟨key, w⟩ := entry
    obtain ⟨named, next⟩ := later (key, w) List.mem_cons_self
    obtain ⟨l, rfl⟩ := Option.isSome_iff_exists.mp named
    rw [fieldLetters_cons] at enough ⊢
    simp only [List.length_cons, List.length_append] at enough
    have read := reads fuel
      (',' :: ((quote l).toList ++ ':' :: (w.letters ++ (fieldLetters fields ++ '\x7d' :: rest))))
      (ends_comma _) (by omega)
    have more := ih (k := l) (v := w) next (fun u member => later u (List.mem_cons_of_mem _ member))
      fuel ((some k, v) :: acc) (by omega)
    simp only [List.append_assoc, List.cons_append]
    rw [toList_quote, readFields, skipBlank_cons (show isBlank '"' = false by decide)]
    simp only [readText_quoted, skipBlank_cons (show isBlank ':' = false by decide), read,
      skipBlank_cons (show isBlank ',' = false by decide)]
    rw [List.reverse_cons, List.append_assoc, List.singleton_append] at more
    exact more

theorem readValue_digit (digit : c.isDigit = true) (fuel : Nat) (cs : List Char) :
    readValue (fuel + 1) (c :: cs) = readNumber (c :: cs) := by
  rw [readValue, skipBlank_cons (isBlank_digit digit)]
  split
  all_goals first
    | rfl
    | next same => exact absurd (List.cons.inj same).1 (Decimal.ne_of_isDigit digit (by decide))

mutual

theorem reads_plain : ∀ v : Json, v.isPlain = true → v.Reads
  | null, _ | bool true, _ | bool false, _ | array [], _ | object [], _ =>
    .of_succ fun _ _ _ _ => rfl
  | nat n, plain => .of_succ fun fuel rest ends _ => by
    have word : n < UInt64.size := by simpa [isPlain] using plain
    have digits : letters (nat n) = Nat.toDigits 10 n := by simp [letters, write]
    obtain ⟨d, ds, shape, digit⟩ := Decimal.exists_digit n
    rw [digits, ← readNumber_toDigits n word ends, shape, List.cons_append, readValue_digit digit]
  | text s, _ => .of_succ fun fuel rest _ _ => by
    have shape : letters (text s) = (quote s).toList := by simp [letters, write]
    rw [shape, toList_quote, readValue, skipBlank_cons (by decide)]
    simp [readText_quoted]
  | array (v :: vs), plain => .of_succ fun fuel rest _ enough => by
    obtain ⟨first, others⟩ : v.isPlain = true ∧ arePlain vs = true := by
      simpa [isPlain, arePlain] using plain
    obtain ⟨c, more, shape, solid, other⟩ := letters_starts first
    simp only [letters_array, List.length_cons, List.length_append, List.length_nil] at enough
    have read := readItems_letters (reads_plain v first) (reads_items vs others) fuel [] rest
      (by omega)
    rw [letters_array, List.cons_append, readValue, skipBlank_cons (by decide)]
    simp only [List.append_assoc, shape, List.cons_append, List.nil_append] at read ⊢
    rw [skipBlank_cons solid]
    split
    next same => exact absurd (List.cons.inj same).1 other
    next => exact read
  | object ((some k, v) :: fields), plain => .of_succ fun fuel rest _ enough => by
    obtain ⟨first, others⟩ : v.isPlain = true ∧ areFieldsPlain fields = true := by
      simpa [isPlain, areFieldsPlain] using plain
    simp only [letters_object, List.length_cons, List.length_append, List.length_nil] at enough
    have read := readFields_letters (k := k) (reads_plain v first) (reads_fields fields others)
      fuel [] rest (by omega)
    rw [letters_object, List.cons_append, readValue, skipBlank_cons (by decide)]
    simp only [List.append_assoc, List.cons_append, List.nil_append] at read ⊢
    rw [toList_quote] at read ⊢
    rw [skipBlank_cons (by decide)]
    exact read

theorem reads_items : ∀ vs : List Json, arePlain vs = true → ∀ v ∈ vs, v.Reads
  | [], _, _, member => by cases member
  | v :: vs, plain, w, member => by
    obtain ⟨first, others⟩ : v.isPlain = true ∧ arePlain vs = true := by
      simpa [arePlain] using plain
    rcases List.mem_cons.mp member with same | later
    · exact same ▸ reads_plain v first
    · exact reads_items vs others w later

theorem reads_fields : ∀ fields : List (Option String × Json), areFieldsPlain fields = true →
    ∀ entry ∈ fields, entry.1.isSome = true ∧ entry.2.Reads
  | [], _, _, member => by cases member
  | (k, v) :: fields, plain, entry, member => by
    obtain ⟨⟨named, first⟩, others⟩ :
        (k.isSome = true ∧ v.isPlain = true) ∧ areFieldsPlain fields = true := by
      simpa [areFieldsPlain] using plain
    rcases List.mem_cons.mp member with same | later
    · exact same ▸ ⟨named, reads_plain v first⟩
    · exact reads_fields fields others entry later

end

theorem parse_render (v : Json) (plain : v.isPlain = true) : parse v.render = some v := by
  have read := reads_plain v plain (v.letters.length + 1) [] (by simp [Ends]) (Nat.lt_succ_self _)
  rw [List.append_nil] at read
  rw [parse, render, ← letters, read]
  rfl

end Json

end DistFs
