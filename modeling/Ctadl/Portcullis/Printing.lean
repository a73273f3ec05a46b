import Ctadl.Cir.PathAlgebra
import Ctadl.Portcullis.Grammar

/-! # Printed ports read back

The migrator prints a path after a port, one segment behind the other, and quotes a field whose name the
grammar would not read as that field. What is printed reads back, up to the text that follows: a bare name
runs on over the characters of an arrow, so before an arrow it has to be set off.
-/

namespace Ctadl.Portcullis

open Cir Collections.Peg

/-! ## The printer -/

def quoteChar (c : Char) : List Char :=
  if c = '"' then ['\\', '"']
  else if c = '\\' then ['\\', '\\']
  else if c = '\n' then ['\\', 'n']
  else if c = '\t' then ['\\', 't']
  else [c]

/-- A string literal. -/
def quote (s : List Char) : List Char := '"' :: (s.flatMap quoteChar ++ ['"'])

/-- A name that is printed bare: it is not spelled like a segment, and is made of these characters. -/
def isPlain (name : List Char) : Bool :=
  name ≠ [] ∧ name ≠ DEREF ∧ name ≠ VALUE ∧ name ≠ ['*'] ∧
    name.all fun c => c.isAlphanum || "_$-%*#<>".toList.contains c

/-- One path segment. -/
def segmentText : PathSegment → List Char
  | .offset off => '.' :: '[' :: (decimal off ++ [']'])
  | .deref => '.' :: DEREF
  | .value => '.' :: VALUE
  | .field name => '.' :: if isPlain name.toList then name.toList else quote name.toList

def pathText (path : List PathSegment) : List Char := path.flatMap segmentText

/-- What the grammar is to read of a printed segment. -/
def rawSegment : PathSegment → RawPathSeg
  | .offset off => .offset (decimal off)
  | .deref => .symbol DEREF false
  | .value => .symbol VALUE false
  | .field name => .symbol name.toList (!isPlain name.toList)

/-- The segment is printed without brackets or quotes. -/
def isBare : PathSegment → Bool
  | .offset _ => false
  | .deref | .value => true
  | .field name => isPlain name.toList

/-- A path in normal form, every field named, `#value` at most last. -/
structure Printable (path : List PathSegment) : Prop where
  normal : Clear path
  named : PathSegment.field "" ∉ path
  value_last : .value ∉ path.dropLast

/-- A bare last segment is not run into the text after the path. -/
def SetOff (path : List PathSegment) (rest : List Char) : Prop :=
  path.getLast?.any isBare → ∀ c ∈ rest.head?, Grammar.isSegChar c = false

namespace Grammar

section Strings

theorem unescape_cons {c : Char} (plain : c ≠ '\\') (rest : List Char) : unescape (c :: rest) = c :: unescape rest := by
  rw [unescape]
  exact fun _ _ same => absurd same plain

theorem unescape_quoteChar (c : Char) (rest : List Char) : unescape (quoteChar c ++ rest) = c :: unescape rest := by
  unfold quoteChar
  split_ifs with quotes backslash newline tab
  · subst quotes
    rfl
  · subst backslash
    rfl
  · subst newline
    rfl
  · subst tab
    rfl
  · exact unescape_cons backslash rest

/-- Escapes are undone. -/
theorem unescape_flatMap (s : List Char) : unescape (s.flatMap quoteChar) = s := by
  induction s with
  | nil => rfl
  | cons c s ih => rw [List.flatMap_cons, unescape_quoteChar, ih]

theorem stringElement_plain {c : Char} (quotes : c ≠ '"') (backslash : c ≠ '\\') (rest : List Char) :
    stringElement (c :: rest) = some ((), rest) := by
  apply orElse_of_some
  have free : satisfy (fun c => c = '"' ∨ c = '\\') (c :: rest) = none := by
    simp [satisfy, quotes, backslash]
  rw [bind_of_some (notAhead_of_none free)]
  rfl

theorem stringElement_escape (c : Char) (rest : List Char) : stringElement ('\\' :: c :: rest) = some ((), rest) := rfl

theorem stringElement_quote (rest : List Char) : stringElement ('"' :: rest) = none := rfl

/-- What is printed of one character is one element. -/
theorem stringElement_quoteChar (c : Char) (rest : List Char) :
    stringElement (quoteChar c ++ rest) = some ((), rest) := by
  unfold quoteChar
  split_ifs with quotes backslash newline tab
  · exact stringElement_escape _ _
  · exact stringElement_escape _ _
  · exact stringElement_escape _ _
  · exact stringElement_escape _ _
  · exact stringElement_plain quotes backslash rest

theorem length_quoteChar (c : Char) : 0 < (quoteChar c).length := by
  unfold quoteChar
  split_ifs <;> simp

theorem reads_stringElement (s rest : List Char) :
    Reads stringElement (s.flatMap quoteChar ++ '"' :: rest) (s.map fun _ => ()) ('"' :: rest) := by
  induction s with
  | nil => exact .done (stringElement_quote rest)
  | cons c s ih =>
    have nonempty := length_quoteChar c
    rw [List.flatMap_cons, List.append_assoc]
    refine .item (stringElement_quoteChar c _) ?_ ih
    simp only [List.length_append]
    omega

/-- A printed string reads back, whatever follows it. -/
theorem string_quote (s rest : List Char) : string (quote s ++ rest) = some (s, rest) := by
  have inside := consumed_append (many_of_reads (reads_stringElement s rest))
  have opened : quote s ++ rest = "\"".toList ++ (s.flatMap quoteChar ++ '"' :: rest) := by simp [quote]
  rw [string, opened, word, bind_of_some (token_append _ _), bind_of_some inside]
  change some (unescape (s.flatMap quoteChar), rest) = _
  rw [unescape_flatMap]

end Strings

section Segments

variable {text rest next : List Char} {c : Char}

/-- Nothing is skipped before a character that opens neither whitespace nor a comment. -/
theorem blank_of_solid (solid : ∀ c ∈ text.head?, c ≠ ' ' ∧ c ≠ '\t' ∧ c ≠ '\r' ∧ c ≠ '\n' ∧ c ≠ '/') :
    blank text = some ((), text) := by
  refine bind_of_some (many_of_none ?_)
  cases text with
  | nil => rfl
  | cons c rest =>
    obtain ⟨space, tab, ret, newline, slash⟩ := solid c rfl
    have noSpace : satisfy (fun c => c = ' ' ∨ c = '\t' ∨ c = '\r' ∨ c = '\n') (c :: rest) = none := by
      simp [satisfy, space, tab, ret, newline]
    have noLine : word "//" (c :: rest) = none := token_cons_none (Ne.symm slash)
    have noBlock : word "/*" (c :: rest) = none := token_cons_none (Ne.symm slash)
    rw [orElse_of_none (bind_of_none noSpace), orElse_of_none (bind_of_none noLine)]
    exact bind_of_none noBlock

/-- The printer's set of plain characters is the grammar's. -/
theorem isSegChar_eq (c : Char) : isSegChar c = (c.isAlphanum || "_$-%*#<>".toList.contains c) := by
  have chars : "_$-%*#<>".toList = ['_', '$', '-', '%', '*', '#', '<', '>'] := rfl
  rw [Bool.eq_iff_iff, chars]
  delta Char.isAlphanum
  delta Char.isAlpha
  delta Char.isUpper Char.isLower
  simp only [isSegChar, Char.isDigit, Char.le_def, decide_eq_true_eq, Bool.or_eq_true, Bool.and_eq_true, List.contains_cons, List.contains_nil, beq_iff_eq, ge_iff_le,
    Bool.false_eq_true, or_false]
  rw [or_left_comm, or_assoc, or_assoc]

theorem digit_eq : digit = satisfy Char.isDigit := by
  have same (c : Char) : decide ('0' ≤ c ∧ c ≤ '9') = c.isDigit := by
    rw [Bool.eq_iff_iff]
    simp [Char.isDigit, Char.le_def]
  rw [digit, funext same]

/-- A printed offset reads up to what follows its digits. -/
theorem int_decimal (value : Int64) (stops : ∀ c ∈ rest.head?, c.isDigit = false) :
    int (decimal value ++ rest) = some (decimal value, rest) := by
  obtain ⟨first, digits, printed⟩ := List.exists_cons_of_ne_nil
    (Nat.toDigits_ne_nil (n := value.toInt.natAbs) (b := 10))
  have isDigit : ∀ c ∈ first :: digits, c.isDigit := fun c mem => digit_of_mem_toDigits (printed ▸ mem)
  have read := many1_of_reads (reads_satisfy isDigit stops)
  apply consumed_append
  rw [decimal_eq, printed]
  split_ifs with negative
  · rw [bind_of_some (maybe_of_some rfl), digit_eq]
    exact bind_of_some read
  · have here := isDigit first List.mem_cons_self
    have plus : first ≠ '+' := fun same => by simp [same] at here
    have minus : first ≠ '-' := fun same => by simp [same] at here
    have unsigned : satisfy (fun c => c = '+' ∨ c = '-') (first :: digits ++ rest) = none := by
      simp [satisfy, plus, minus]
    rw [List.nil_append, bind_of_some (maybe_of_none unsigned), digit_eq]
    exact bind_of_some read

/-- A decimal number begins with a sign or a digit. -/
theorem blank_decimal (value : Int64) (rest : List Char) :
    blank (decimal value ++ rest) = some ((), decimal value ++ rest) := by
  obtain ⟨first, digits, printed⟩ := List.exists_cons_of_ne_nil
    (Nat.toDigits_ne_nil (n := value.toInt.natAbs) (b := 10))
  have isDigit : first.isDigit := digit_of_mem_toDigits (printed ▸ List.mem_cons_self)
  apply blank_of_solid
  rw [decimal_eq, printed]
  split_ifs with negative
  · simp
  · rintro c same
    cases same
    refine ⟨?_, ?_, ?_, ?_, ?_⟩ <;>
      exact fun same => by simp [same] at isDigit

theorem pathSeg_offset (value : Int64) (rest : List Char) :
    pathSeg (segmentText (.offset value) ++ rest) = some (.offset (decimal value), rest) := by
  have text : segmentText (.offset value) ++ rest = '.' :: '[' :: (decimal value ++ ']' :: rest) := by
    simp [segmentText]
  have dot : maybe (do word "."; blank) ('.' :: '[' :: (decimal value ++ ']' :: rest)) =
      some (some (), '[' :: (decimal value ++ ']' :: rest)) :=
    maybe_of_some ((bind_of_some rfl).trans (blank_of_solid (by simp)))
  have bracket (rest : List Char) : word "[" ('[' :: rest) = some ((), rest) := rfl
  have number : int (decimal value ++ ']' :: rest) = some (decimal value, ']' :: rest) := int_decimal value (by simp)
  have close : blank (']' :: rest) = some ((), ']' :: rest) := blank_of_solid (by simp)
  rw [text]
  apply orElse_of_some
  rw [bind_of_some dot, bind_of_some (bracket _), bind_of_some (blank_decimal value _), bind_of_some number,
    bind_of_some close]
  rfl

/-- The text after a `.` that opens a symbol is no offset. -/
theorem pathSeg_dot {c : Char} {text : List Char} (solid : c ≠ ' ' ∧ c ≠ '\t' ∧ c ≠ '\r' ∧ c ≠ '\n' ∧ c ≠ '/')
    (bracket : c ≠ '[') : pathSeg ('.' :: c :: text) =
      ((do return .symbol (← string) true) <|> (do return .symbol (← consumed (many1 segChar)) false) : Reader Char _)
        (c :: text) := by
  have skip : blank (c :: text) = some ((), c :: text) := blank_of_solid (by simpa using solid)
  have dot : maybe (do word "."; blank) ('.' :: c :: text) = some (some (), c :: text) :=
    maybe_of_some ((bind_of_some rfl).trans skip)
  have open' : word "[" (c :: text) = none := token_cons_none (Ne.symm bracket)
  have first : word "." ('.' :: c :: text) = some ((), c :: text) := rfl
  rw [pathSeg, orElse_of_none ((bind_of_some dot).trans (bind_of_none open')), bind_of_some first, bind_of_some skip]

theorem solid_of_isSegChar (holds : isSegChar c) :
    (c ≠ ' ' ∧ c ≠ '\t' ∧ c ≠ '\r' ∧ c ≠ '\n' ∧ c ≠ '/') ∧ c ≠ '[' ∧ c ≠ '"' := by
  refine ⟨⟨?_, ?_, ?_, ?_, ?_⟩, ?_, ?_⟩ <;>
    exact fun same => absurd (same ▸ holds) (by decide)

theorem pathSeg_bare {name : List Char} (nonempty : name ≠ []) (holds : ∀ c ∈ name, isSegChar c)
    (stops : ∀ c ∈ rest.head?, isSegChar c = false) :
    pathSeg ('.' :: (name ++ rest)) = some (.symbol name false, rest) := by
  obtain ⟨c, tail, rfl⟩ := List.exists_cons_of_ne_nil nonempty
  obtain ⟨solid, bracket, quotes⟩ := solid_of_isSegChar (holds c List.mem_cons_self)
  have noString : string (c :: (tail ++ rest)) = none := bind_of_none (token_cons_none (Ne.symm quotes))
  have read := consumed_append (many1_of_reads (reads_satisfy holds stops))
  rw [List.cons_append, pathSeg_dot solid bracket, orElse_of_none (bind_of_none noString)]
  exact bind_of_some read

theorem pathSeg_quoted (name rest : List Char) :
    pathSeg ('.' :: (quote name ++ rest)) = some (.symbol name true, rest) := by
  have read := string_quote name rest
  rw [quote, List.cons_append] at read ⊢
  rw [pathSeg_dot (by decide) (by decide)]
  apply orElse_of_some
  exact bind_of_some read

/-- A printed segment reads back, up to a text that a bare one does not run into. -/
theorem pathSeg_segmentText {seg : PathSegment} (stops : isBare seg → ∀ c ∈ rest.head?, isSegChar c = false) :
    pathSeg (segmentText seg ++ rest) = some (rawSegment seg, rest) := by
  cases seg with
  | offset value => exact pathSeg_offset value rest
  | deref => exact pathSeg_bare (by decide) (List.all_eq_true.mp rfl) (stops rfl)
  | value => exact pathSeg_bare (by decide) (List.all_eq_true.mp rfl) (stops rfl)
  | field name =>
    simp only [segmentText, rawSegment, List.cons_append]
    cases plain : isPlain name.toList with
    | true =>
      obtain ⟨nonempty, -, -, -, chars⟩ : _ ∧ _ ∧ _ ∧ _ ∧ _ := by simpa [isPlain] using plain
      refine pathSeg_bare (by simpa using nonempty) (fun c mem => ?_) (stops plain)
      rw [isSegChar_eq]
      simpa using chars c mem
    | false => exact pathSeg_quoted name.toList rest

theorem pathSeg_of_head (other : ∀ c ∈ text.head?, c ≠ '.' ∧ c ≠ '[') : pathSeg text = none := by
  have dot : word "." text = none := by
    cases text with
    | nil => rfl
    | cons c rest => exact token_cons_none (other c rfl).1.symm
  have bracket : word "[" text = none := by
    cases text with
    | nil => rfl
    | cons c rest => exact token_cons_none (other c rfl).2.symm
  have skipped : maybe (do word "."; blank) text = some (none, text) := maybe_of_none (bind_of_none dot)
  rw [pathSeg, orElse_of_none ((bind_of_some skipped).trans (bind_of_none bracket)), bind_of_none dot]

/-- A printed path is read segment by segment, up to a text where no segment begins. -/
theorem reads_pathText {path : List PathSegment} (setOff : SetOff path rest)
    (finished : (do blank; pathSeg : Reader Char RawPathSeg) rest = none) :
    Reads (do blank; pathSeg) (pathText path ++ rest) (path.map rawSegment) rest := by
  induction path with
  | nil => exact .done finished
  | cons seg path ih =>
    have onward : SetOff path rest := by
      cases path with
      | nil => exact fun bare => absurd bare (by simp)
      | cons other path => simpa [SetOff] using setOff
    have stops : isBare seg → ∀ c ∈ (pathText path ++ rest).head?, isSegChar c = false := by
      intro bare
      cases path with
      | nil => exact setOff bare
      | cons other path => cases other <;> simp [pathText, segmentText, isSegChar]
    obtain ⟨tail, dotted⟩ : ∃ tail, segmentText seg = '.' :: tail := by
      cases seg <;> exact ⟨_, rfl⟩
    have skip : blank (segmentText seg ++ (pathText path ++ rest)) =
        some ((), segmentText seg ++ (pathText path ++ rest)) :=
      blank_of_solid (by simp [dotted])
    have read : (do blank; pathSeg : Reader Char RawPathSeg) (segmentText seg ++ (pathText path ++ rest)) =
        some (rawSegment seg, pathText path ++ rest) :=
      (bind_of_some skip).trans (pathSeg_segmentText stops)
    rw [pathText, List.flatMap_cons, List.append_assoc]
    refine .item read ?_ (ih onward)
    simp only [pathText, dotted, List.length_append, List.length_cons]
    omega

end Segments

section Ports

variable {text rest next : List Char} {anchor : Option Term} {base : RawPortBase} {path : List PathSegment}

/-- A port with a printed path is read to the end of the path. -/
theorem portExpr_pathText (front : portHead text = some ((anchor, base), pathText path ++ rest))
    (setOff : SetOff path rest) (skip : blank rest = some ((), next)) (closed : ∀ c ∈ next.head?, c ≠ '.' ∧ c ≠ '[') :
    portExpr text = some (⟨anchor, base, path.map rawSegment⟩, rest) := by
  have ends : (do blank; pathSeg : Reader Char RawPathSeg) rest = none :=
    (bind_of_some skip).trans (pathSeg_of_head closed)
  have read := many_of_reads (reads_pathText setOff ends)
  rw [portExpr, bind_of_some front]
  exact bind_of_some read

/-- A word that a relation's or attribute's name may begin with. -/
def isWord : List Char → Bool
  | c :: tail => (('a' ≤ c ∧ c ≤ 'z') ∨ c = '_') ∧ tail.all isNameChar
  | [] => false

/-- No attribute begins with a word that is neither followed by `=` nor goes on as a name. -/
theorem headAttr_of_word {w : List Char} (spelled : isWord w) (stops : nameChar text = none)
    (skip : blank text = some ((), next))
    (other : ∀ c rest, next = c :: rest → c ≠ '=' ∧ (c = '-' → many1 nameChar rest = none)) :
    headAttr (w ++ text) = none := by
  obtain ⟨c, tail, rfl⟩ : ∃ c tail, w = c :: tail := by
    cases w with
    | nil => cases spelled
    | cons c tail => exact ⟨c, tail, rfl⟩
  obtain ⟨first, named⟩ : (('a' ≤ c ∧ c ≤ 'z') ∨ c = '_') ∧ ∀ c ∈ tail, isNameChar c := by
    simpa [isWord] using spelled
  have dash : (do word "-"; let _ ← many1 nameChar : Reader Char Unit) text = none := by
    cases text with
    | nil => rfl
    | cons d rest =>
      rcases eq_or_ne d '-' with rfl | differs
      · have same : next = '-' :: rest := by
          rw [blank_of_solid (by simp)] at skip
          cases skip
          rfl
        have first : word "-" ('-' :: rest) = some ((), rest) := rfl
        rw [bind_of_some first, bind_of_none ((other _ _ same).2 rfl)]
      · exact bind_of_none (token_cons_none differs.symm)
  have name : lname (c :: tail ++ text) = some (c :: tail, text) := by
    apply consumed_append
    have start : satisfy (fun c => ('a' ≤ c ∧ c ≤ 'z') ∨ c = '_') (c :: tail ++ text) = some (c, tail ++ text) :=
      satisfy_cons (by simpa using first)
    have run := many_of_reads (reads_satisfy named (satisfy_eq_none.mp stops))
    rw [bind_of_some start]
    exact (bind_of_some run).trans (bind_of_some (many_of_none dash))
  have equals : word "=" next = none := by
    cases next with
    | nil => rfl
    | cons c rest => exact token_cons_none (other c rest rfl).1.symm
  rw [headAttr, bind_of_some name, bind_of_some skip, bind_of_none equals]

theorem headAttr_of_head (other : ∀ c ∈ text.head?, ¬ (('a' ≤ c ∧ c ≤ 'z') ∨ c = '_')) : headAttr text = none := by
  refine bind_of_none (consumed_of_none (bind_of_none ?_))
  rw [satisfy_eq_none]
  exact fun c here => by simpa using other c here

/-- A number begins with a sign or a digit. -/
theorem head_int {w : List Char} (read : int text = some (w, rest)) : ∃ c tail, text = c :: tail ∧
    (c = '+' ∨ c = '-' ∨ '0' ≤ c ∧ c ≤ '9') := by
  obtain ⟨_, inside⟩ := exists_of_consumed read
  obtain ⟨_, r, sign, unsigned⟩ := bind_eq_some.mp inside
  rcases maybe_eq_some sign with ⟨c, signed, -⟩ | ⟨-, rfl, -⟩
  · obtain ⟨rfl, kind⟩ := satisfy_eq_some.mp signed
    have kind : c = '+' ∨ c = '-' := by simpa using kind
    exact ⟨c, r, rfl, by tauto⟩
  · obtain ⟨_, _, digits, -⟩ := bind_eq_some.mp unsigned
    obtain ⟨c, r, first, -⟩ := bind_eq_some.mp digits
    obtain ⟨rfl, kind⟩ := satisfy_eq_some.mp first
    have kind : '0' ≤ c ∧ c ≤ '9' := by simpa using kind
    exact ⟨c, r, rfl, by tauto⟩

theorem word_eq_some {w : String} : word w text = some ((), rest) ↔ text = w.toList ++ rest := token_eq_some

theorem notAhead_nameChar (read : notAhead nameChar text = some ((), rest)) : rest = text ∧ nameChar rest = none := by
  obtain ⟨free, rfl⟩ := notAhead_eq_some.mp read
  exact ⟨rfl, free⟩

/-- A term begins with no attribute's name, or is one word. -/
theorem term_cases {t : Term} (read : term text = some (t, rest)) :
    (∃ c tail, text = c :: tail ∧ ¬ (('a' ≤ c ∧ c ≤ 'z') ∨ c = '_')) ∨
      ∃ w ∈ ["true".toList, "false".toList, "_".toList], text = w ++ rest ∧ nameChar rest = none := by
  rw [term, orElse_eq_some, orElse_eq_some] at read
  rcases read with lit | ⟨-, name | ⟨-, wild⟩⟩
  · obtain ⟨l, r, lit, same⟩ := bind_eq_some.mp lit
    cases same
    rw [literal, orElse_eq_some, orElse_eq_some] at lit
    rcases lit with str | ⟨-, num | ⟨-, truth⟩⟩
    · obtain ⟨_, _, str, -⟩ := bind_eq_some.mp str
      obtain ⟨_, tail, quotes, -⟩ := bind_eq_some.mp str
      exact .inl ⟨'"', tail, word_eq_some.mp quotes, by decide⟩
    · obtain ⟨_, _, num, -⟩ := bind_eq_some.mp num
      obtain ⟨c, tail, rfl, kind⟩ := head_int num
      refine .inl ⟨c, tail, rfl, ?_⟩
      rintro (⟨low, -⟩ | rfl)
      · rcases kind with rfl | rfl | ⟨-, high⟩
        · exact absurd low (by decide)
        · exact absurd low (by decide)
        · exact absurd (Char.le_trans low high) (by decide)
      · exact absurd kind (by decide)
    · obtain ⟨b, r, spelled, onward⟩ := bind_eq_some.mp truth
      obtain ⟨_, r', stops, same⟩ := bind_eq_some.mp onward
      cases same
      obtain ⟨rfl, free⟩ := notAhead_nameChar stops
      rcases orElse_eq_some.mp spelled with yes | ⟨-, no⟩
      · obtain ⟨_, _, yes, same⟩ := bind_eq_some.mp yes
        cases same
        exact .inr ⟨_, .head _, word_eq_some.mp yes, free⟩
      · obtain ⟨_, _, no, same⟩ := bind_eq_some.mp no
        cases same
        exact .inr ⟨_, .tail _ (.head _), word_eq_some.mp no, free⟩
  · obtain ⟨v, _, name, -⟩ := bind_eq_some.mp name
    obtain ⟨_, inside⟩ := exists_of_consumed name
    obtain ⟨c, tail, first, -⟩ := bind_eq_some.mp inside
    obtain ⟨rfl, kind⟩ := satisfy_eq_some.mp first
    obtain ⟨-, high⟩ : 'A' ≤ c ∧ c ≤ 'Z' := by simpa using kind
    refine .inl ⟨c, tail, rfl, ?_⟩
    rintro (⟨low, -⟩ | rfl)
    · exact absurd (Char.le_trans low high) (by decide)
    · exact absurd high (by decide)
  · obtain ⟨_, r, wild, same⟩ := bind_eq_some.mp wild
    cases same
    obtain ⟨_, tail, underscore, stops⟩ := bind_eq_some.mp wild
    obtain ⟨rfl, free⟩ := notAhead_nameChar stops
    exact .inr ⟨_, .tail _ (.tail _ (.head _)), word_eq_some.mp underscore, free⟩

/-- A port begins with a word. -/
theorem portBase_cases {base : RawPortBase} (read : portBase text = some (base, rest)) :
    (∃ w ∈ ["return".toList, "self".toList], text = w ++ rest ∧ nameChar rest = none) ∨
      ∃ w ∈ ["arg".toList, "param".toList, "local".toList], ∃ r tail, text = w ++ r ∧ nameChar r = none ∧
        blank r = some ((), '(' :: tail) := by
  rw [portBase, orElse_eq_some, orElse_eq_some, orElse_eq_some] at read
  rcases read with ret | ⟨-, arg | ⟨-, loc | ⟨-, glob⟩⟩⟩
  · obtain ⟨_, r, spelled, onward⟩ := bind_eq_some.mp ret
    obtain ⟨_, r', stops, same⟩ := bind_eq_some.mp onward
    cases same
    obtain ⟨rfl, free⟩ := notAhead_nameChar stops
    exact .inl ⟨_, .head _, word_eq_some.mp spelled, free⟩
  · obtain ⟨_, r, spelled, onward⟩ := bind_eq_some.mp arg
    obtain ⟨_, r', stops, skipped⟩ := bind_eq_some.mp onward
    obtain ⟨rfl, free⟩ := notAhead_nameChar stops
    obtain ⟨_, next, skip, bracketed⟩ := bind_eq_some.mp skipped
    obtain ⟨_, tail, opened, -⟩ := bind_eq_some.mp bracketed
    obtain rfl := word_eq_some.mp opened
    rcases orElse_eq_some.mp spelled with arg | ⟨-, param⟩
    · exact .inr ⟨_, .head _, _, tail, word_eq_some.mp arg, free, skip⟩
    · exact .inr ⟨_, .tail _ (.head _), _, tail, word_eq_some.mp param, free, skip⟩
  · obtain ⟨_, r, spelled, onward⟩ := bind_eq_some.mp loc
    obtain ⟨_, r', stops, skipped⟩ := bind_eq_some.mp onward
    obtain ⟨rfl, free⟩ := notAhead_nameChar stops
    obtain ⟨_, next, skip, bracketed⟩ := bind_eq_some.mp skipped
    obtain ⟨_, tail, opened, -⟩ := bind_eq_some.mp bracketed
    obtain rfl := word_eq_some.mp opened
    exact .inr ⟨_, .tail _ (.tail _ (.head _)), _, tail, word_eq_some.mp spelled, free, skip⟩
  · obtain ⟨_, r, spelled, onward⟩ := bind_eq_some.mp glob
    obtain ⟨_, r', stops, same⟩ := bind_eq_some.mp onward
    cases same
    obtain ⟨rfl, free⟩ := notAhead_nameChar stops
    exact .inl ⟨_, .tail _ (.head _), word_eq_some.mp spelled, free⟩

/-- No attribute begins where a port does. -/
theorem headAttr_of_portHead (front : portHead text = some ((anchor, base), rest)) (skip : blank rest = some ((), next))
    (other : ∀ c rest, next = c :: rest → c ≠ '=' ∧ (c = '-' → many1 nameChar rest = none)) : headAttr text = none := by
  have termWord : ∀ w ∈ ["true".toList, "false".toList, "_".toList], isWord w := by decide
  have bareWord : ∀ w ∈ ["return".toList, "self".toList], isWord w := by decide
  have callWord : ∀ w ∈ ["arg".toList, "param".toList, "local".toList], isWord w := by decide
  -- The word is followed by something that is not `=`: what the port needs there, or what follows the port.
  obtain ⟨a, r, anchored, onward⟩ := bind_eq_some.mp front
  rcases maybe_eq_some anchored with ⟨t, anchored, -⟩ | ⟨-, rfl, -⟩
  · obtain ⟨_, r₁, anchored, -⟩ := bind_eq_some.mp anchored
    obtain ⟨_, r₂, read, colons⟩ := bind_eq_some.mp anchored
    obtain ⟨_, r₃, skipped, colons⟩ := bind_eq_some.mp colons
    obtain ⟨_, r₄, colons, -⟩ := bind_eq_some.mp colons
    obtain rfl := word_eq_some.mp colons
    rcases term_cases read with ⟨c, tail, rfl, first⟩ | ⟨w, mem, rfl, stops⟩
    · exact headAttr_of_head (by simpa using first)
    · refine headAttr_of_word (termWord w mem) stops skipped ?_
      rintro c rest same
      cases same
      exact ⟨by decide, fun dash => absurd dash (by decide)⟩
  · obtain ⟨b, r₁, read, same⟩ := bind_eq_some.mp onward
    cases same
    rcases portBase_cases read with ⟨w, mem, rfl, stops⟩ | ⟨w, mem, u, tail, rfl, stops, skipped⟩
    · exact headAttr_of_word (bareWord w mem) stops skip other
    · refine headAttr_of_word (callWord w mem) stops skipped ?_
      rintro c rest same
      cases same
      exact ⟨by decide, fun dash => absurd dash (by decide)⟩

end Ports

end Grammar

namespace Builder

theorem pathSeg_rawSegment {seg : PathSegment} (named : seg ≠ .field "") : pathSeg (rawSegment seg) = pure (some seg) := by
  cases seg with
  | offset value => simp only [rawSegment, pathSeg, parseI64_decimal]
  | deref => rfl
  | value => rfl
  | field name =>
    have nonempty : name.toList.isEmpty = false := by
      have : name.toList ≠ [] := fun empty => named (by simpa using empty)
      simpa using this
    simp only [rawSegment, pathSeg, nonempty, Bool.false_eq_true, if_false, String.ofList_toList]
    cases plain : isPlain name.toList with
    | false => simp
    | true =>
      obtain ⟨-, deref, value, star, -⟩ : _ ∧ _ ∧ _ ∧ _ ∧ _ := by simpa [isPlain] using plain
      rw [if_neg (by simp [star]), if_neg (by simp [deref]), if_neg (by simp [value])]

theorem pathSegs_rawSegment {path : List PathSegment} (named : PathSegment.field "" ∉ path) :
    pathSegs (path.map rawSegment) = pure path := by
  induction path with
  | nil => rfl
  | cons seg path ih =>
    obtain ⟨first, rest⟩ := not_or.mp (List.mem_cons.not.mp named)
    rw [List.map_cons, pathSegs, pathSeg_rawSegment (Ne.symm first), ih rest]
    rfl

/-- The builder keeps a printable path as it is, and reports nothing. -/
theorem portExpr_rawSegment {anchor : Option Term} {raw : RawPortBase} {base : PortBase} {path : List PathSegment}
    (built : portBase raw = pure (some base)) (printable : Printable path) :
    portExpr ⟨anchor, raw, path.map rawSegment⟩ = pure (some ⟨anchor, base, path⟩) := by
  have last : (path.findIdx? (·.isValue)).any (· + 1 ≠ path.length) = false := by
    cases found : path.findIdx? (·.isValue) with
    | none => rfl
    | some i =>
      obtain ⟨inside, isValue, -⟩ := List.findIdx?_eq_some_iff_getElem.mp found
      have value : path[i] = .value := by
        cases seg : path[i] <;> simp_all [PathSegment.isValue]
      have ends : i + 1 = path.length := by
        by_contra early
        refine printable.value_last (List.mem_iff_getElem.mpr ⟨i, ?_, ?_⟩)
        · rw [List.length_dropLast]
          omega
        · rw [List.getElem_dropLast, value]
      simp [ends]
  rw [portExpr, built, pathSegs_rawSegment printable.named]
  simp only [pure_bind, last, Bool.false_eq_true, if_false, Option.map_some, normalize_of_clear printable.normal]

end Builder

/-- A text begins with a port whose path is printed, up to the rest. -/
structure PortText (text : List Char) (port : PortExpr) (rest : List Char) : Prop where
  front : ∃ raw, Grammar.portHead text = some ((port.anchor, raw), pathText port.port.path ++ rest) ∧
    Builder.portBase raw = pure (some port.port.base)
  printable : Printable port.port.path

/-- The text goes on to the end of an argument. -/
def Closes (rest : List Char) : Prop :=
  ∃ next, Grammar.blank rest = some ((), next) ∧ (next.head? = some ')' ∨ next.head? = some ',')

/-- The text goes on with an arrow. -/
def Arrow (text : List Char) (op : FlowOp) (next : List Char) : Prop :=
  ∃ start after, Grammar.blank text = some ((), start) ∧ Grammar.flowOp start = some (op, after) ∧
    Grammar.blank after = some ((), next)

/-- The text is read as this argument of a head, up to the rest, and nothing is reported. -/
def ReadsAs (text : List Char) (arg : HeadArg) (rest : List Char) : Prop :=
  ∃ raw, Grammar.headArg text = some (raw, rest) ∧ Builder.headArg raw = pure (some arg)

section ReadBack

open Grammar

variable {text middle next rest : List Char} {port : PortExpr} {flow : Flow}

/-- A bare name does not run on over the end of an argument. -/
theorem setOff_of_closes {path : List PathSegment} (closes : Closes rest) : SetOff path rest := by
  rintro - c here
  obtain ⟨next, skip, ends⟩ := closes
  obtain ⟨tail, rfl⟩ : ∃ tail, rest = c :: tail := by
    cases rest with
    | nil => cases here
    | cons d tail =>
      cases here
      exact ⟨tail, rfl⟩
  by_contra runs
  have runs : isSegChar c = true := by simpa using runs
  have solid := (solid_of_isSegChar runs).1
  rw [blank_of_solid (by simpa using solid)] at skip
  cases skip
  rcases ends with same | same <;>
    exact absurd runs (by cases same; decide)

/-- A port at the end of an argument is read with its whole path. -/
theorem portExpr_of_portText (start : PortText text port rest) (setOff : SetOff port.port.path rest)
    (skip : blank rest = some ((), next)) (closed : ∀ c ∈ next.head?, c ≠ '.' ∧ c ≠ '[') :
    ∃ raw, portExpr text = some (raw, rest) ∧ Builder.portExpr raw = pure (some port) := by
  obtain ⟨⟨raw, front, built⟩, printable⟩ := start
  exact ⟨_, portExpr_pathText front setOff skip closed, Builder.portExpr_rawSegment built printable⟩

theorem headAttr_of_portText (start : PortText text port rest) (skip : blank rest = some ((), next))
    (other : ∀ c rest, next = c :: rest → c ≠ '=' ∧ (c = '-' → many1 nameChar rest = none)) : headAttr text = none := by
  obtain ⟨⟨raw, front, -⟩, -⟩ := start
  cases shape : port.port.path with
  | nil =>
    rw [shape] at front
    exact headAttr_of_portHead front skip other
  | cons seg path =>
    obtain ⟨tail, dotted⟩ : ∃ tail, pathText (seg :: path) ++ rest = '.' :: tail := by
      cases seg <;> exact ⟨_, rfl⟩
    rw [shape, dotted] at front
    refine headAttr_of_portHead front (blank_of_solid (by simp)) ?_
    rintro c rest same
    cases same
    exact ⟨by decide, fun dash => absurd dash (by decide)⟩

theorem flowOp_cases {op : FlowOp} (read : flowOp text = some (op, rest)) :
    ∃ tail, text = '<' :: '-' :: tail ∨ text = '-' :: '>' :: tail := by
  rw [flowOp, orElse_eq_some, orElse_eq_some] at read
  rcases read with both | ⟨-, left | ⟨-, right⟩⟩
  · obtain ⟨_, r, spelled, -⟩ := bind_eq_some.mp both
    exact ⟨_, .inl (word_eq_some.mp spelled)⟩
  · obtain ⟨_, r, spelled, -⟩ := bind_eq_some.mp left
    exact ⟨_, .inl (word_eq_some.mp spelled)⟩
  · obtain ⟨_, r, spelled, -⟩ := bind_eq_some.mp right
    exact ⟨_, .inr (word_eq_some.mp spelled)⟩

/-- A lone port is read as that port. -/
theorem readsAs_port (start : PortText text port rest) (closes : Closes rest) : ReadsAs text (.port port) rest := by
  obtain ⟨next, skip, ends⟩ := closes
  have head {c : Char} {tail : List Char} (same : next = c :: tail) : c = ')' ∨ c = ',' := by
    simpa [same] using ends
  have attr : headAttr text = none := by
    refine headAttr_of_portText start skip fun c tail same => ?_
    rcases head same with rfl | rfl <;>
      exact ⟨by decide, fun dash => absurd dash (by decide)⟩
  have closed : ∀ c ∈ next.head?, c ≠ '.' ∧ c ≠ '[' := by
    rintro c here
    rcases ends with same | same <;>
    · rw [same] at here
      cases here
      exact ⟨by decide, by decide⟩
  obtain ⟨raw, read, built⟩ := portExpr_of_portText start (setOff_of_closes ⟨next, skip, ends⟩) skip closed
  have noFlow : Grammar.flow text = none := by
    have noOp : flowOp next = none := by
      refine Option.eq_none_iff_forall_ne_some.mpr ?_
      rintro ⟨op, after⟩ arrow
      obtain ⟨tail, rfl | rfl⟩ := flowOp_cases arrow
      · rcases head rfl with same | same <;> exact absurd same (by decide)
      · rcases head rfl with same | same <;> exact absurd same (by decide)
    rw [Grammar.flow, bind_of_some read, bind_of_some skip, bind_of_none noOp]
  refine ⟨.port raw, ?_, ?_⟩
  · rw [headArg, orElse_of_none attr, orElse_of_none (bind_of_none noFlow)]
    exact orElse_of_some (bind_of_some read)
  · rw [Builder.headArg, built]
    rfl

/-- A flow between two ports is read as that flow, where the left path is set off from the arrow. -/
theorem readsAs_flow (left : PortText text flow.left middle) (setOff : SetOff flow.left.port.path middle)
    (arrow : Arrow middle flow.op next) (right : PortText next flow.right rest) (closes : Closes rest) :
    ReadsAs text (.flow flow) rest := by
  obtain ⟨begin, after, skip, op, skipAfter⟩ := arrow
  have attr : headAttr text = none := by
    refine headAttr_of_portText left skip fun c tail same => ?_
    obtain ⟨more, here | here⟩ := flowOp_cases op
    · cases same.symm.trans here
      exact ⟨by decide, fun dash => absurd dash (by decide)⟩
    · cases same.symm.trans here
      exact ⟨by decide, fun _ => rfl⟩
  have closed : ∀ c ∈ begin.head?, c ≠ '.' ∧ c ≠ '[' := by
    obtain ⟨more, rfl | rfl⟩ := flowOp_cases op <;>
      simp
  obtain ⟨rawLeft, readLeft, builtLeft⟩ := portExpr_of_portText left setOff skip closed
  obtain ⟨final, skipRest, ends⟩ := closes
  have overRest : ∀ c ∈ final.head?, c ≠ '.' ∧ c ≠ '[' := by
    rintro c here
    rcases ends with same | same <;>
    · rw [same] at here
      cases here
      exact ⟨by decide, by decide⟩
  obtain ⟨rawRight, readRight, builtRight⟩ :=
    portExpr_of_portText right (setOff_of_closes ⟨final, skipRest, ends⟩) skipRest overRest
  have read : Grammar.flow text = some (⟨rawLeft, flow.op, rawRight⟩, rest) := by
    rw [Grammar.flow, bind_of_some readLeft, bind_of_some skip, bind_of_some op, bind_of_some skipAfter,
      bind_of_some readRight]
    rfl
  refine ⟨.flow ⟨rawLeft, flow.op, rawRight⟩, ?_, ?_⟩
  · rw [headArg, orElse_of_none attr]
    exact orElse_of_some (bind_of_some read)
  · rw [Builder.headArg, Builder.flow, builtLeft, pure_bind]
    simp only [builtRight, pure_bind]
    rfl

/-- Printed text reads back: a string whatever follows it, a port at the end of an argument, and a flow
whose left path is set off from the arrow. -/
theorem printed_reads_back :
    (∀ s rest : List Char, string (quote s ++ rest) = some (s, rest)) ∧
    (∀ text port rest, PortText text port rest → Closes rest → ReadsAs text (.port port) rest) ∧
    (∀ text flow middle next rest, PortText text flow.left middle → SetOff flow.left.port.path middle →
      Arrow middle flow.op next → PortText next flow.right rest → Closes rest → ReadsAs text (.flow flow) rest) :=
  ⟨string_quote, fun _ _ _ => readsAs_port, fun _ _ _ _ _ => readsAs_flow⟩

/-- `F::arg(0).f <- G::return`, with the arrow set off from the path or not. -/
def fieldFlow : Flow :=
  ⟨⟨some (.var "F"), ⟨.arg 0, [.field "f"]⟩⟩, ⟨some (.var "G"), ⟨.ret, []⟩⟩, .toLeft⟩

theorem left_fieldFlow (text : List Char) (front : portHead text =
    some ((some (.var "F"), .arg (.int ['0'])), pathText [.field "f"] ++ rest)) :
    PortText text fieldFlow.left rest := by
  refine ⟨⟨_, front, ?_⟩, ⟨?_, ?_, ?_⟩⟩
  · simp [Builder.portBase, Builder.intValue, Nat.ofDigitChars, fieldFlow]
  · simp [fieldFlow, Clear]
  · simp [fieldFlow]
  · simp [fieldFlow]

theorem right_fieldFlow : PortText "G::return)".toList fieldFlow.right ")".toList := by
  have front : portHead "G::return)".toList = some ((some (.var "G"), .ret), ")".toList) := by decide +kernel
  refine ⟨⟨_, front, rfl⟩, ⟨?_, ?_, ?_⟩⟩ <;>
    simp [fieldFlow, Clear]

theorem closes_paren : Closes ")".toList := ⟨_, blank_of_solid (by simp), .inl rfl⟩

/-- Without a blank before the arrow, the field's name runs on over it. -/
theorem not_reads_back_of_run_on : ¬ ∀ text flow middle next rest, PortText text flow.left middle →
    Arrow middle flow.op next → PortText next flow.right rest → Closes rest → ReadsAs text (.flow flow) rest := by
  intro reads
  have arrow : Arrow "<-G::return)".toList .toLeft "G::return)".toList :=
    ⟨"<-G::return)".toList, "G::return)".toList, by decide +kernel, by decide +kernel, by decide +kernel⟩
  obtain ⟨raw, read, -⟩ := reads "F::arg(0).f<-G::return)".toList fieldFlow _ _ _
    (left_fieldFlow _ (by decide +kernel)) arrow right_fieldFlow closes_paren
  have elsewhere : (headArg "F::arg(0).f<-G::return)".toList).map Prod.snd = some "::return)".toList := by
    decide +kernel
  rw [read, Option.map_some, Option.some.injEq] at elsewhere
  have differ : ")".toList ≠ "::return)".toList := by decide
  exact differ elsewhere

/-- With a blank it reads back. -/
theorem fieldFlow_reads_back :
    ReadsAs "F::arg(0).f <- G::return)".toList (.flow fieldFlow) ")".toList := by
  have setOff : SetOff fieldFlow.left.port.path " <- G::return)".toList := by
    rintro - c ⟨⟩
    rfl
  have arrow : Arrow " <- G::return)".toList .toLeft "G::return)".toList :=
    ⟨"<- G::return)".toList, " G::return)".toList, by decide +kernel, by decide +kernel, by decide +kernel⟩
  exact printed_reads_back.2.2 _ fieldFlow _ _ _ (left_fieldFlow _ (by decide +kernel)) setOff arrow right_fieldFlow
    closes_paren

end ReadBack

end Ctadl.Portcullis
