import Ctadl.Cir.Path
import Mathlib.Algebra.Group.Int.Defs
import Mathlib.Algebra.Group.Nat.Defs
import Mathlib.Algebra.GroupWithZero.Nat
import Mathlib.Data.List.TakeWhile

/-! # The path grammar: parser and printer

The one textual encoding of a path. A segment is printed after a `.`; an offset stands in brackets in
decimal, `deref` and `#value` are words, and a field escapes what would end it or be read as another
kind of segment. The parser runs over the characters of the text and carries the byte offset it has
reached, which is what its errors report.

Escaping and tokenising meet in `scanSymbol_escaped`: a printed name is read up to the text that
follows it, and whether anything in it was escaped is exactly what keeps a field named like a keyword
apart from the keyword.
-/

namespace Ctadl.Cir

/-- The spelling of `PathSegment.deref`. -/
def DEREF : List Char := ['d', 'e', 'r', 'e', 'f']

/-- The spelling of `PathSegment.value`. -/
def VALUE : List Char := ['#', 'v', 'a', 'l', 'u', 'e']

/-- Why a text is not a path. -/
inductive PathSyntaxErrorKind where
  /-- A segment not preceded by `.`. -/
  | missingLeadingDot
  /-- `..`, or a trailing `.`. -/
  | emptySegment
  /-- `[42` with no closing `]`. -/
  | unterminatedOffset
  /-- What stands in the brackets is no decimal offset. -/
  | invalidOffset (contents : List Char)
  /-- The path ends in a lone `\`. -/
  | trailingEscape
deriving DecidableEq, Repr

/-- Where and why a text is not a path; `pos` is a byte offset. -/
structure PathSyntaxError where
  pos : ℕ
  kind : PathSyntaxErrorKind
deriving DecidableEq, Repr

/-- The length of a text in bytes. -/
def utf8Len (text : List Char) : ℕ := (text.map Char.utf8Size).sum

/-- Decimal 64-bit offset with an optional sign, and nothing else. -/
def parseI64 (text : List Char) : Option Int64 :=
  let digits := if text.head? = some '+' ∨ text.head? = some '-' then text.tail else text
  if digits.isEmpty || !digits.all Char.isDigit then none
  else
    let magnitude : ℤ := Nat.ofDigitChars 10 digits 0
    let number := if text.head? = some '-' then -magnitude else magnitude
    if -2 ^ 63 ≤ number ∧ number < 2 ^ 63 then some (Int64.ofInt number) else none

/-- The loop over a symbol, from byte `pos`: it stops at an unescaped `.`, and records whether any
character was escaped. -/
def scanSymbol (name : List Char) (escapedAny : Bool) (pos : ℕ) :
    List Char → Except PathSyntaxError (List Char × Bool × List Char × ℕ)
  | [] => .ok (name, escapedAny, [], pos)
  | ch :: rest =>
    if ch = '.' then .ok (name, escapedAny, ch :: rest, pos)
    else if ch = '\\' then
      match rest with
      | [] => .error ⟨pos, .trailingEscape⟩
      | next :: rest => scanSymbol (name ++ [next]) true (pos + 1 + next.utf8Size) rest
    else scanSymbol (name ++ [ch]) escapedAny (pos + ch.utf8Size) rest

/-- The segment a symbol spells: an unescaped keyword is not a field. -/
def symbolSegment (name : List Char) (escapedAny : Bool) : PathSegment :=
  if name = DEREF ∧ !escapedAny then .deref
  else if name = VALUE ∧ !escapedAny then .value
  else .field (String.ofList name)

/-- Parses an offset whose `[` stands at byte `pos`; `rest` is the text after it. -/
def parseOffset (pos : ℕ) (rest : List Char) : Except PathSyntaxError (PathSegment × List Char × ℕ) :=
  let contents := rest.takeWhile (· ≠ ']')
  match rest.dropWhile (· ≠ ']') with
  | [] => .error ⟨pos, .unterminatedOffset⟩
  | _ :: after =>
    match parseI64 contents with
    | none => .error ⟨pos, .invalidOffset contents⟩
    | some value =>
      let stop := pos + 1 + utf8Len contents + 1
      -- `]` must end the segment: `.[1]x` is not a path.
      if after.head?.all (· = '.') then .ok (.offset value, after, stop)
      else .error ⟨stop, .missingLeadingDot⟩

/-- Parses the segment at byte `pos`, its leading `.` already consumed, and returns it with the text
after it and where that starts. -/
def parseSegmentAt (pos : ℕ) (text : List Char) : Except PathSyntaxError (PathSegment × List Char × ℕ) :=
  match text with
  | [] => .error ⟨pos, .emptySegment⟩
  | ch :: rest =>
    if ch = '.' then .error ⟨pos, .emptySegment⟩
    else if ch = '[' then parseOffset pos rest
    else
      (scanSymbol [] false pos text).map fun scanned =>
        (symbolSegment scanned.1 scanned.2.1, scanned.2.2.1, scanned.2.2.2)

theorem length_scanSymbol {name : List Char} {escapedAny : Bool} {pos : ℕ} {text : List Char}
    {scanned : List Char × Bool × List Char × ℕ}
    (read : scanSymbol name escapedAny pos text = .ok scanned) : scanned.2.2.1.length ≤ text.length := by
  fun_induction scanSymbol name escapedAny pos text with
  | case1 => cases read; exact le_rfl
  | case2 => cases read; exact le_rfl
  | case3 => cases read
  | case4 _ _ _ next rest _ ih => exact (ih read).trans (by simp only [List.length_cons]; omega)
  | case5 _ _ _ ch rest _ _ ih => exact (ih read).trans (by simp)

/-- An offset that parses ends at the first `]`. -/
theorem parseOffset_eq_ok {pos : ℕ} {rest : List Char} {seg : PathSegment} {after : List Char} {stop : ℕ}
    (read : parseOffset pos rest = .ok (seg, after, stop)) :
    (∃ value, seg = .offset value) ∧ ∃ contents, rest = contents ++ ']' :: after := by
  unfold parseOffset at read
  cases found : rest.dropWhile (· ≠ ']') with
  | nil => simp only [found, reduceCtorEq] at read
  | cons close tail =>
    have ends := List.head?_dropWhile_not (· ≠ ']') rest
    simp only [found] at read ends
    obtain rfl : close = ']' := by simpa using ends
    split at read
    · cases read
    · split_ifs at read
      cases read
      refine ⟨⟨_, rfl⟩, rest.takeWhile (· ≠ ']'), ?_⟩
      rw [← found, List.takeWhile_append_dropWhile]

/-- What is left after a segment is no longer than what was there. -/
theorem length_parseSegmentAt {pos : ℕ} {text : List Char} {seg : PathSegment} {after : List Char} {stop : ℕ}
    (read : parseSegmentAt pos text = .ok (seg, after, stop)) : after.length ≤ text.length := by
  cases text with
  | nil => cases read
  | cons ch rest =>
    simp only [parseSegmentAt] at read
    split_ifs at read with dot bracket
    · obtain ⟨-, contents, rfl⟩ := parseOffset_eq_ok read
      simp only [List.length_cons, List.length_append]
      omega
    · cases scan : scanSymbol [] false pos (ch :: rest) with
      | error e => rw [scan] at read; cases read
      | ok scanned =>
        rw [scan] at read
        cases read
        exact length_scanSymbol scan

/-- Parses the segments from byte `pos` on; each must be introduced by a `.`. -/
def parseSegmentsFrom (pos : ℕ) : List Char → Except PathSyntaxError (List PathSegment)
  | [] => .ok []
  | ch :: rest =>
    if ch = '.' then
      match _read : parseSegmentAt (pos + 1) rest with
      | .error e => .error e
      | .ok (seg, after, next) => (parseSegmentsFrom next after).map (seg :: ·)
    else .error ⟨pos, .missingLeadingDot⟩
termination_by text => text.length
decreasing_by
  have := length_parseSegmentAt _read
  simp only [List.length_cons]
  omega

/-- Parses a whole path into segments, as written. -/
def parseSegments (text : List Char) : Except PathSyntaxError (List PathSegment) := parseSegmentsFrom 0 text

/-- Parses a whole path and puts it in normal form. -/
def parsePath (text : List Char) : Except PathSyntaxError (List PathSegment) := (parseSegments text).map normalize

/-- An error of a parse that started `shift` bytes into the text. -/
def PathSyntaxError.shift (shift : ℕ) (e : PathSyntaxError) : PathSyntaxError := { e with pos := e.pos + shift }

/-- Parses `$name` followed by a path, into the global's name and the path in normal form; `none` when
the text does not begin with `$`. -/
def parseGlobalAccessPath :
    List Char → Except PathSyntaxError (Option (String × List PathSegment))
  | '$' :: rest =>
    match parseSegmentAt 0 rest with
    | .error e => .error (e.shift 1)
    | .ok (seg, after, stop) =>
      let name : Except PathSyntaxError String :=
        match seg with
        | .field name => .ok name
        | .deref => .ok (String.ofList DEREF)
        | .value => .ok (String.ofList VALUE)
        | .offset _ => .error ⟨1, .invalidOffset (rest.take (rest.length - after.length))⟩
      name.bind fun name =>
        match parsePath after with
        | .error e => .error (e.shift (1 + stop))
        | .ok path => .ok (some (name, path))
  | _ => .ok none

/-- A 64-bit offset in decimal. -/
def decimal (value : Int64) : List Char :=
  match value.toInt with
  | .ofNat n => Nat.toDigits 10 n
  | .negSucc n => '-' :: Nat.toDigits 10 (n + 1)

/-- One character of a field name; `keyword` says that the whole name is spelled like a segment. -/
def escapeChar (first keyword : Bool) (ch : Char) : List Char :=
  if first ∧ keyword then ['\\', ch]
  else if ch = '\\' ∨ ch = '.' then ['\\', ch]
  -- Only a leading `[` is ambiguous with an offset.
  else if ch = '[' ∧ first then ['\\', '[']
  else [ch]

/-- Prints a field name. -/
def writeField (name : List Char) : List Char :=
  let keyword : Bool := name = DEREF ∨ name = VALUE
  match name with
  | [] => []
  | ch :: rest => escapeChar true keyword ch ++ rest.flatMap (escapeChar false keyword)

/-- Prints one segment, without a leading `.`. -/
def writeSegment : PathSegment → List Char
  | .offset value => '[' :: decimal value ++ [']']
  | .deref => DEREF
  | .value => VALUE
  | .field name => writeField name.toList

/-- Prints a global's name as it follows the `$`. -/
def writeSymbol (name : String) : List Char := writeSegment (.field name)

/-- Prints a whole path: a `.` before each segment. -/
def pathToString (segs : List PathSegment) : List Char := segs.flatMap fun seg => '.' :: writeSegment seg

@[simp] theorem utf8Len_nil : utf8Len [] = 0 := rfl

@[simp] theorem utf8Len_cons (ch : Char) (text : List Char) : utf8Len (ch :: text) = ch.utf8Size + utf8Len text := rfl

@[simp] theorem utf8Len_append (l r : List Char) : utf8Len (l ++ r) = utf8Len l + utf8Len r := by
  simp [utf8Len]

/-- The text after a segment: nothing, or the `.` of the next one. -/
def Stops (text : List Char) : Prop := text.head?.all (· = '.')

theorem scanSymbol_escape (name : List Char) (escapedAny : Bool) (pos : ℕ) (ch : Char) (text : List Char) :
    scanSymbol name escapedAny pos ('\\' :: ch :: text) =
      scanSymbol (name ++ [ch]) true (pos + 1 + ch.utf8Size) text := by
  rw [scanSymbol]
  simp

theorem scanSymbol_plain (name : List Char) (escapedAny : Bool) (pos : ℕ) {ch : Char} (text : List Char)
    (dot : ch ≠ '.') (backslash : ch ≠ '\\') :
    scanSymbol name escapedAny pos (ch :: text) = scanSymbol (name ++ [ch]) escapedAny (pos + ch.utf8Size) text := by
  conv_lhs => unfold scanSymbol
  simp [dot, backslash]

theorem scanSymbol_stops {name : List Char} {escapedAny : Bool} {pos : ℕ} {text : List Char} (stops : Stops text) :
    scanSymbol name escapedAny pos text = .ok (name, escapedAny, text, pos) := by
  cases text with
  | nil => rfl
  | cons ch rest =>
    obtain rfl : ch = '.' := by simpa [Stops] using stops
    unfold scanSymbol
    rfl

/-- A word without `.` and `\` is read as it stands. -/
theorem scanSymbol_word (word : List Char) (plain : ∀ ch ∈ word, ch ≠ '.' ∧ ch ≠ '\\') {text : List Char}
    (stops : Stops text) (name : List Char) (escapedAny : Bool) (pos : ℕ) :
    scanSymbol name escapedAny pos (word ++ text) = .ok (name ++ word, escapedAny, text, pos + utf8Len word) := by
  induction word generalizing name pos with
  | nil => simpa using scanSymbol_stops stops
  | cons ch rest ih =>
    obtain ⟨dot, backslash⟩ := plain ch List.mem_cons_self
    rw [List.cons_append, scanSymbol_plain name escapedAny pos _ dot backslash,
      ih fun c mem => plain c (List.mem_cons_of_mem ch mem)]
    simp [Nat.add_assoc]

/-- Whether a character of a name is printed behind a `\`. -/
def isEscaped (first keyword : Bool) (ch : Char) : Bool := (escapeChar first keyword ch).head? = some '\\'

/-- One printed character is read back as that character. -/
theorem scanSymbol_escapeChar (first keyword : Bool) (ch : Char) (name : List Char) (escapedAny : Bool) (pos : ℕ)
    (text : List Char) :
    scanSymbol name escapedAny pos (escapeChar first keyword ch ++ text) =
      scanSymbol (name ++ [ch]) (escapedAny || isEscaped first keyword ch)
        (pos + utf8Len (escapeChar first keyword ch)) text := by
  have backslash : ('\\' : Char).utf8Size = 1 := by decide
  unfold isEscaped escapeChar
  split_ifs with opening special bracket
  · simp [scanSymbol_escape, backslash, Nat.add_assoc]
  · simp [scanSymbol_escape, backslash, Nat.add_assoc]
  · simp [scanSymbol_escape, backslash, bracket.1, Nat.add_assoc]
  · obtain ⟨backslash, dot⟩ := not_or.mp special
    simp [scanSymbol_plain _ _ _ _ dot backslash, backslash]

theorem scanSymbol_flatMap (keyword : Bool) (chars name : List Char) (escapedAny : Bool) (pos : ℕ) (text : List Char) :
    scanSymbol name escapedAny pos (chars.flatMap (escapeChar false keyword) ++ text) =
      scanSymbol (name ++ chars) (escapedAny || chars.any (isEscaped false keyword))
        (pos + utf8Len (chars.flatMap (escapeChar false keyword))) text := by
  induction chars generalizing name escapedAny pos with
  | nil => simp
  | cons ch rest ih =>
    rw [List.flatMap_cons, List.append_assoc, scanSymbol_escapeChar, ih]
    simp [Bool.or_assoc, Nat.add_assoc]

/-- Escaping and tokenising agree: a printed name is read up to the text after it, and a keyword is
read as escaped. -/
theorem scanSymbol_writeField {name : List Char} (named : name ≠ []) {text : List Char} (stops : Stops text) (pos : ℕ) :
    ∃ escapedAny : Bool, scanSymbol [] false pos (writeField name ++ text) =
        .ok (name, escapedAny, text, pos + utf8Len (writeField name)) ∧
      (name = DEREF ∨ name = VALUE → escapedAny = true) := by
  obtain ⟨ch, rest, rfl⟩ := List.exists_cons_of_ne_nil named
  let keyword : Bool := ch :: rest = DEREF ∨ ch :: rest = VALUE
  have printed : writeField (ch :: rest) = escapeChar true keyword ch ++ rest.flatMap (escapeChar false keyword) := rfl
  refine ⟨isEscaped true keyword ch || rest.any (isEscaped false keyword), ?_, fun spelled => ?_⟩
  · rw [printed, List.append_assoc, utf8Len_append, ← Nat.add_assoc, scanSymbol_escapeChar, scanSymbol_flatMap,
      scanSymbol_stops stops]
    rfl
  · have same : keyword = true := decide_eq_true spelled
    simp [isEscaped, escapeChar, same]

theorem symbolSegment_field {name : List Char} {escapedAny : Bool}
    (escaped : name = DEREF ∨ name = VALUE → escapedAny = true) :
    symbolSegment name escapedAny = .field (String.ofList name) := by
  unfold symbolSegment
  rw [if_neg, if_neg]
  · exact fun plain => by simp [escaped (.inr plain.1)] at plain
  · exact fun plain => by simp [escaped (.inl plain.1)] at plain

/-- A printed name begins neither a new segment nor an offset. -/
theorem head_writeField {name : List Char} (named : name ≠ []) :
    ∃ ch rest, writeField name = ch :: rest ∧ ch ≠ '.' ∧ ch ≠ '[' := by
  obtain ⟨ch, rest, rfl⟩ := List.exists_cons_of_ne_nil named
  simp only [writeField, escapeChar]
  split_ifs with opening special bracket
  · exact ⟨_, _, rfl, by decide, by decide⟩
  · exact ⟨_, _, rfl, by decide, by decide⟩
  · exact ⟨_, _, rfl, by decide, by decide⟩
  · exact ⟨_, _, rfl, fun dot => special (.inr dot), fun open' => bracket ⟨open', trivial⟩⟩

/-- A decimal number is its digits, behind a `-` where it is negative. -/
theorem decimal_eq (value : Int64) :
    decimal value = (if value.toInt < 0 then ['-'] else []) ++ Nat.toDigits 10 value.toInt.natAbs := by
  unfold decimal
  cases sign : value.toInt with
  | ofNat n => simp
  | negSucc n => simp [Int.negSucc_lt_zero]

theorem digit_of_mem_toDigits {n : ℕ} {ch : Char} (mem : ch ∈ Nat.toDigits 10 n) : ch.isDigit :=
  Nat.isDigit_of_mem_toDigits (by decide) (by decide) mem

theorem parseI64_decimal (value : Int64) : parseI64 (decimal value) = some value := by
  have low := value.le_toInt
  have high := value.toInt_lt
  obtain ⟨first, rest, digits⟩ := List.exists_cons_of_ne_nil (Nat.toDigits_ne_nil (n := value.toInt.natAbs) (b := 10))
  have isDigit : first.isDigit := digit_of_mem_toDigits (n := value.toInt.natAbs) (by simp [digits])
  have plus : first ≠ '+' := fun same => by simp [same] at isDigit
  have minus : first ≠ '-' := fun same => by simp [same] at isDigit
  have allDigits : (first :: rest).all Char.isDigit :=
    List.all_eq_true.mpr fun ch mem => digit_of_mem_toDigits (digits ▸ mem)
  have read : Nat.ofDigitChars 10 (first :: rest) 0 = value.toInt.natAbs := digits ▸ Nat.ofDigitChars_ten_toDigits
  rw [decimal_eq, digits]
  by_cases negative : value.toInt < 0
  · have same : -(value.toInt.natAbs : ℤ) = value.toInt := by omega
    simp only [parseI64, if_pos negative, List.singleton_append, List.head?_cons, List.tail_cons, or_true, if_true,
      allDigits, read, same, low, high]
    simp
  · have same : (value.toInt.natAbs : ℤ) = value.toInt := by omega
    simp only [parseI64, if_neg negative, List.nil_append, List.head?_cons, Option.some.injEq, plus, minus, or_self,
      if_false, allDigits, read, same, low, high]
    simp

theorem not_bracket_decimal {value : Int64} {ch : Char} (mem : ch ∈ decimal value) : ch ≠ ']' := by
  rintro rfl
  rw [decimal_eq, List.mem_append] at mem
  rcases mem with sign | digit
  · split_ifs at sign <;> simp at sign
  · exact absurd (digit_of_mem_toDigits digit) (by decide)

theorem parseSegmentAt_symbol {ch : Char} {rest : List Char} {pos : ℕ} (dot : ch ≠ '.') (bracket : ch ≠ '[')
    {name : List Char} {escapedAny : Bool} {after : List Char} {stop : ℕ}
    (read : scanSymbol [] false pos (ch :: rest) = .ok (name, escapedAny, after, stop)) :
    parseSegmentAt pos (ch :: rest) = .ok (symbolSegment name escapedAny, after, stop) := by
  simp [parseSegmentAt, dot, bracket, read, Except.map]

/-- Every segment but a field without a name is read back from its print, whatever follows it. -/
theorem parseSegmentAt_writeSegment (seg : PathSegment) (named : seg ≠ .field "") {text : List Char}
    (stops : Stops text) (pos : ℕ) :
    parseSegmentAt pos (writeSegment seg ++ text) = .ok (seg, text, pos + utf8Len (writeSegment seg)) := by
  cases seg with
  | offset value =>
    have inside : ∀ ch ∈ decimal value, decide (ch ≠ ']') = true := by
      simpa using fun ch (mem : ch ∈ decimal value) => not_bracket_decimal mem
    have contents : (decimal value ++ ']' :: text).takeWhile (· ≠ ']') = decimal value := by
      rw [List.takeWhile_append_of_pos inside, List.takeWhile_cons_of_neg (by simp), List.append_nil]
    have close : (decimal value ++ ']' :: text).dropWhile (· ≠ ']') = ']' :: text := by
      rw [List.dropWhile_append_of_pos inside, List.dropWhile_cons_of_neg (by simp)]
    have width : utf8Len (writeSegment (.offset value)) = 1 + utf8Len (decimal value) + 1 := by
      simp [writeSegment, show '['.utf8Size = 1 by decide, show ']'.utf8Size = 1 by decide, Nat.add_assoc]
    have bracket : writeSegment (.offset value) ++ text = '[' :: (decimal value ++ ']' :: text) := by
      simp [writeSegment]
    rw [bracket, width]
    simp only [parseSegmentAt, parseOffset, contents, close, parseI64_decimal]
    rw [if_neg (by decide), if_pos trivial, if_pos (show text.head?.all (· = '.') from stops)]
    simp only [Nat.add_assoc]
  | deref =>
    have read := scanSymbol_word DEREF (by simp [DEREF]) stops [] false pos
    exact parseSegmentAt_symbol (by decide) (by decide) read
  | value =>
    have read := scanSymbol_word VALUE (by simp [VALUE]) stops [] false pos
    exact parseSegmentAt_symbol (by decide) (by decide) read
  | field name =>
    have nonempty : name.toList ≠ [] := fun empty => named (by simpa using empty)
    obtain ⟨ch, rest, printed, dot, bracket⟩ := head_writeField nonempty
    obtain ⟨escapedAny, read, escaped⟩ := scanSymbol_writeField nonempty stops pos
    change parseSegmentAt pos (writeField name.toList ++ text) = .ok (_, _, pos + utf8Len (writeField name.toList))
    have scanned := symbolSegment_field escaped
    rw [String.ofList_toList] at scanned
    rw [printed, List.cons_append] at read ⊢
    rw [parseSegmentAt_symbol dot bracket read, scanned]

theorem pathToString_cons (seg : PathSegment) (segs : List PathSegment) :
    pathToString (seg :: segs) = '.' :: (writeSegment seg ++ pathToString segs) := rfl

theorem stops_pathToString (segs : List PathSegment) : Stops (pathToString segs) := by
  cases segs with
  | nil => rfl
  | cons seg segs => rfl

theorem parseSegmentsFrom_pathToString {segs : List PathSegment} (named : ∀ seg ∈ segs, seg ≠ .field "") (pos : ℕ) :
    parseSegmentsFrom pos (pathToString segs) = .ok segs := by
  induction segs generalizing pos with
  | nil => simp [pathToString, parseSegmentsFrom]
  | cons seg segs ih =>
    have first := parseSegmentAt_writeSegment seg (named seg List.mem_cons_self) (stops_pathToString segs) (pos + 1)
    have others := ih (fun other mem => named other (List.mem_cons_of_mem seg mem))
    rw [pathToString_cons, parseSegmentsFrom, if_pos rfl]
    split
    · next read => cases first.symm.trans read
    · next read =>
      cases first.symm.trans read
      rw [others]
      rfl

theorem parseSegments_pathToString {segs : List PathSegment} (named : ∀ seg ∈ segs, seg ≠ .field "") :
    parseSegments (pathToString segs) = .ok segs := parseSegmentsFrom_pathToString named 0

/-- A symbol scan only extends the name. -/
theorem isPrefix_of_scanSymbol {name : List Char} {escapedAny : Bool} {pos : ℕ} {text : List Char}
    {scanned : List Char × Bool × List Char × ℕ}
    (read : scanSymbol name escapedAny pos text = .ok scanned) : name <+: scanned.1 := by
  fun_induction scanSymbol name escapedAny pos text with
  | case1 => cases read; exact List.prefix_rfl
  | case2 => cases read; exact List.prefix_rfl
  | case3 => cases read
  | case4 _ _ _ next rest _ ih => exact (List.prefix_append _ _).trans (ih read)
  | case5 _ _ _ ch rest _ _ ih => exact (List.prefix_append _ _).trans (ih read)

/-- A symbol that begins with something else than `.` has a name. -/
theorem ne_nil_of_scanSymbol {escapedAny : Bool} {pos : ℕ} {ch : Char} {rest : List Char} (dot : ch ≠ '.')
    {scanned : List Char × Bool × List Char × ℕ}
    (read : scanSymbol [] escapedAny pos (ch :: rest) = .ok scanned) : scanned.1 ≠ [] := by
  have grown : ∃ c : Char, [c] <+: scanned.1 := by
    by_cases backslash : ch = '\\'
    · subst backslash
      cases rest with
      | nil => rw [scanSymbol] at read; simp at read
      | cons next rest =>
        rw [scanSymbol_escape] at read
        exact ⟨next, isPrefix_of_scanSymbol read⟩
    · rw [scanSymbol_plain _ _ _ _ dot backslash] at read
      exact ⟨ch, isPrefix_of_scanSymbol read⟩
  obtain ⟨c, short⟩ := grown
  intro empty
  simp [empty] at short

/-- No segment that parses is a field without a name. -/
theorem named_of_parseSegmentAt {pos : ℕ} {text : List Char} {seg : PathSegment} {after : List Char} {stop : ℕ}
    (read : parseSegmentAt pos text = .ok (seg, after, stop)) : seg ≠ .field "" := by
  cases text with
  | nil => cases read
  | cons ch rest =>
    simp only [parseSegmentAt] at read
    split_ifs at read with dot bracket
    · obtain ⟨⟨value, rfl⟩, -⟩ := parseOffset_eq_ok read
      simp
    · cases scan : scanSymbol [] false pos (ch :: rest) with
      | error e => rw [scan] at read; cases read
      | ok scanned =>
        have nonempty := ne_nil_of_scanSymbol dot scan
        rw [scan] at read
        cases read
        unfold symbolSegment
        split_ifs <;> simp [nonempty]

theorem named_of_parseSegmentsFrom {pos : ℕ} {text : List Char} {segs : List PathSegment}
    (read : parseSegmentsFrom pos text = .ok segs) : ∀ seg ∈ segs, seg ≠ .field "" := by
  fun_induction parseSegmentsFrom pos text generalizing segs with
  | case1 => cases read; simp
  | case2 => cases read
  | case3 pos rest seg after next first ih =>
    cases later : parseSegmentsFrom next after with
    | error e => rw [later] at read; cases read
    | ok others =>
      rw [later] at read
      cases read
      have named := ih later
      simpa using ⟨by simpa using named_of_parseSegmentAt first, by simpa using named⟩
  | case4 => cases read

/-- A global is read back from its print, with its path in normal form. -/
theorem parseGlobalAccessPath_writeSymbol {name : String} (nonempty : name ≠ "") {segs : List PathSegment}
    (named : ∀ seg ∈ segs, seg ≠ .field "") :
    parseGlobalAccessPath ('$' :: (writeSymbol name ++ pathToString segs)) = .ok (some (name, normalize segs)) := by
  have first := parseSegmentAt_writeSegment (.field name) (by simpa using nonempty) (stops_pathToString segs) 0
  have path : parsePath (pathToString segs) = .ok (normalize segs) := by
    rw [parsePath, parseSegments_pathToString named]
    rfl
  rw [writeSymbol, parseGlobalAccessPath, first]
  simp only [path]
  rfl

/-- The grammar round-trips: a printed path is read back, what is accepted is printed to a text with the
same segments, and a printed global is read back with its path in normal form. -/
theorem path_syntax_round_trip :
    (∀ segs : List PathSegment, (∀ seg ∈ segs, seg ≠ .field "") → parseSegments (pathToString segs) = .ok segs) ∧
    (∀ (text : List Char) (segs : List PathSegment), parseSegments text = .ok segs →
      parseSegments (pathToString segs) = .ok segs) ∧
    ∀ name : String, name ≠ "" → ∀ segs : List PathSegment, (∀ seg ∈ segs, seg ≠ .field "") →
      parseGlobalAccessPath ('$' :: (writeSymbol name ++ pathToString segs)) = .ok (some (name, normalize segs)) := by
  refine ⟨fun segs named => parseSegments_pathToString named, fun text segs read => ?_,
    fun name nonempty segs named => parseGlobalAccessPath_writeSymbol nonempty named⟩
  exact parseSegments_pathToString (named_of_parseSegmentsFrom read)

/-- A field and a global named like a keyword, beside the keyword. -/
theorem path_syntax_round_trip_keyword :
    parseSegments (pathToString [.deref, .field "deref", .offset (-8)]) = .ok [.deref, .field "deref", .offset (-8)] ∧
    parseGlobalAccessPath ('$' :: (writeSymbol "deref" ++ pathToString [.deref])) =
      .ok (some ("deref", normalize [.deref])) :=
  ⟨path_syntax_round_trip.1 _ (by decide), path_syntax_round_trip.2.2 _ (by decide) _ (by decide)⟩

/-- The empty symbol has no spelling, and a path that is not in normal form comes back in normal form. -/
theorem global_print_not_inverted :
    parseGlobalAccessPath ('$' :: (writeSymbol "" ++ pathToString [])) ≠ .ok (some ("", [])) ∧
    parseGlobalAccessPath ('$' :: (writeSymbol "g" ++ pathToString [.offset 1, .offset 2])) ≠
      .ok (some ("g", [.offset 1, .offset 2])) := by
  refine ⟨by decide, ?_⟩
  rw [parseGlobalAccessPath_writeSymbol (by decide) (by decide)]
  decide

end Ctadl.Cir
