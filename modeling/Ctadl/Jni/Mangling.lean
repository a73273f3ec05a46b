import Ctadl.Collections.Utf16
import Mathlib.Data.List.Chain
import Mathlib.Tactic.IntervalCases

/-! # The symbol names of native methods

The runtime finds the implementation of a native method by a symbol made of its class, its name and, where the name is
overloaded, its parameter types. All three are mangled, and the separator, the lead of an escape and the mark of the
long form are the same character. What was mangled can be read back unless a separator stands before a digit that would
make it an escape.
-/

namespace Ctadl.Jni

open Collections

section Mangling

/-- A digit, as `x` formats it. -/
def hexDigit (n : ℕ) : Char := if n < 10 then Char.ofNat (48 + n) else Char.ofNat (87 + n)

/-- The escape of a code unit. -/
def escape (unit : UInt16) : List Char :=
  ['_', '0', hexDigit (unit.toNat / 0x1000), hexDigit (unit.toNat / 0x100 % 0x10), hexDigit (unit.toNat / 0x10 % 0x10),
    hexDigit (unit.toNat % 0x10)]

def mangleChar (c : Char) : List Char :=
  if c = '/' then ['_']
  else if c = '_' then ['_', '1']
  else if c = ';' then ['_', '2']
  else if c = '[' then ['_', '3']
  else if c.isAlphanum then [c]
  else (Utf16.encodeChar c).flatMap escape

def mangle (cs : List Char) : List Char := cs.flatMap mangleChar

def mangleComponent (s : String) : String := String.ofList (mangle s.toList)

def shortName (classInternal method : String) : String :=
  "Java_" ++ mangleComponent classInternal ++ "_" ++ mangleComponent method

def longName (classInternal method paramDescriptor : String) : String :=
  shortName classInternal method ++ "__" ++ mangleComponent paramDescriptor

end Mangling

section Descriptors

/-- A class name up to and with the semicolon that ends it, and what follows. -/
def className : List Char → Option (List Char × List Char)
  | [] => none
  | c :: rest => if c = ';' then some ([c], rest) else (className rest).map fun found => (c :: found.1, found.2)

/-- The descriptor of one type, and what follows. -/
def fieldType : List Char → Option (List Char × List Char)
  | [] => none
  | c :: rest =>
    if c = '[' then (fieldType rest).map fun found => (c :: found.1, found.2)
    else if c = 'L' then (className rest).map fun found => (c :: found.1, found.2)
    else if c ∈ ['Z', 'B', 'C', 'S', 'I', 'J', 'F', 'D'] then some ([c], rest)
    else none

variable {cs text rest : List Char}

theorem append_of_className (found : className cs = some (text, rest)) : text ++ rest = cs := by
  induction cs generalizing text with
  | nil => exact nomatch found
  | cons c cs ih =>
    unfold className at found
    split_ifs at found
    · obtain ⟨rfl, rfl⟩ := Prod.mk.inj (Option.some.inj found)
      rfl
    · obtain ⟨⟨text', rest'⟩, inner, same⟩ := Option.map_eq_some_iff.mp found
      obtain ⟨rfl, rfl⟩ := Prod.mk.inj same
      exact congrArg (c :: ·) (ih inner)

theorem append_of_fieldType (found : fieldType cs = some (text, rest)) : text ++ rest = cs := by
  induction cs generalizing text with
  | nil => exact nomatch found
  | cons c cs ih =>
    unfold fieldType at found
    split_ifs at found
    · obtain ⟨⟨text', rest'⟩, inner, same⟩ := Option.map_eq_some_iff.mp found
      obtain ⟨rfl, rfl⟩ := Prod.mk.inj same
      exact congrArg (c :: ·) (ih inner)
    · obtain ⟨⟨text', rest'⟩, inner, same⟩ := Option.map_eq_some_iff.mp found
      obtain ⟨rfl, rfl⟩ := Prod.mk.inj same
      exact congrArg (c :: ·) (append_of_className inner)
    · obtain ⟨rfl, rfl⟩ := Prod.mk.inj (Option.some.inj found)
      rfl

/-- A descriptor starts with no digit. -/
theorem head_of_fieldType (found : fieldType cs = some (text, rest)) : ∃ c tail, text = c :: tail ∧ c.isDigit = false := by
  cases cs with
  | nil => exact nomatch found
  | cons c cs =>
    unfold fieldType at found
    split_ifs at found with array reference primitive
    · obtain ⟨⟨text', rest'⟩, inner, same⟩ := Option.map_eq_some_iff.mp found
      exact ⟨c, text', (Prod.mk.inj same).1.symm, array ▸ by decide⟩
    · obtain ⟨⟨text', rest'⟩, inner, same⟩ := Option.map_eq_some_iff.mp found
      exact ⟨c, text', (Prod.mk.inj same).1.symm, reference ▸ by decide⟩
    · have letters : ∀ letter ∈ ['Z', 'B', 'C', 'S', 'I', 'J', 'F', 'D'], letter.isDigit = false := by simp
      exact ⟨c, [], (Prod.mk.inj (Option.some.inj found)).1.symm, letters c primitive⟩

theorem rest_lt_of_fieldType (found : fieldType cs = some (text, rest)) : rest.length < cs.length := by
  obtain ⟨c, tail, rfl, -⟩ := head_of_fieldType found
  rw [← append_of_fieldType found, List.length_append, List.length_cons]
  omega

/-- The descriptors up to the parenthesis that ends the list. -/
def paramsOf (cs : List Char) : Option (List (List Char)) :=
  if cs.head? = some ')' then some []
  else match _found : fieldType cs with
    | none => none
    | some (text, rest) => (paramsOf rest).map (text :: ·)
termination_by cs.length
decreasing_by exact rest_lt_of_fieldType _found

/-- The descriptors start with no digit. -/
theorem head_paramsOf {params : List (List Char)} {first : Char} (parsed : paramsOf cs = some params)
    (leading : first ∈ params.flatten.head?) : first.isDigit = false := by
  rw [paramsOf] at parsed
  split_ifs at parsed
  · obtain rfl := Option.some.inj parsed
    exact nomatch leading
  · split at parsed
    · exact nomatch parsed
    · rename_i text rest found
      obtain ⟨others, -, rfl⟩ := Option.map_eq_some_iff.mp parsed
      obtain ⟨c, tail, rfl, plain⟩ := head_of_fieldType found
      obtain rfl : c = first := Option.some.inj leading
      exact plain

def descriptorParams (descriptor : String) : Option (List String) :=
  match descriptor.toList with
  | [] => none
  | c :: inner => if c = '(' then (paramsOf inner).map fun params => params.map String.ofList else none

def paramDescriptor (descriptor : String) : Option String := (descriptorParams descriptor).map String.join

end Descriptors

section Demangling

def hexValue (c : Char) : ℕ := if c.toNat < 58 then c.toNat - 48 else c.toNat - 87

def unescape (a b c d : Char) : UInt16 :=
  UInt16.ofNat (((hexValue a * 0x10 + hexValue b) * 0x10 + hexValue c) * 0x10 + hexValue d)

/-- Reads a mangled name back, as the code units of what was mangled. -/
def demangle : List Char → List UInt16
  | [] => []
  | '_' :: '0' :: a :: b :: c :: d :: rest => unescape a b c d :: demangle rest
  | '_' :: '1' :: rest => 0x5F :: demangle rest
  | '_' :: '2' :: rest => 0x3B :: demangle rest
  | '_' :: '3' :: rest => 0x5B :: demangle rest
  | '_' :: rest => 0x2F :: demangle rest
  | c :: rest => UInt16.ofNat c.toNat :: demangle rest

/-- The digits that make an escape of an underscore before them. -/
def escapes (c : Char) : Bool := c = '0' || c = '1' || c = '2' || c = '3'

/-- The next character does not make an escape of a separator before it. -/
def Apart (c next : Char) : Prop := c = '/' → escapes next = false

variable {c : Char} {cs rest : List Char} {unit : UInt16}

private theorem hexValue_hexDigit {n : ℕ} (bound : n < 16) : hexValue (hexDigit n) = n := by
  interval_cases n <;> decide

theorem demangle_escape : demangle (escape unit ++ rest) = unit :: demangle rest := by
  have bound := unit.toNat_lt
  have value : ((unit.toNat / 0x1000 * 0x10 + unit.toNat / 0x100 % 0x10) * 0x10 + unit.toNat / 0x10 % 0x10) * 0x10 +
      unit.toNat % 0x10 = unit.toNat := by
    omega
  simp only [escape, List.cons_append, List.nil_append, demangle, unescape]
  rw [hexValue_hexDigit (by omega), hexValue_hexDigit (by omega), hexValue_hexDigit (by omega),
    hexValue_hexDigit (by omega), value, UInt16.ofNat_toNat]

theorem demangle_escapes {units : List UInt16} : demangle (units.flatMap escape ++ rest) = units ++ demangle rest := by
  induction units with
  | nil => rfl
  | cons unit units ih => rw [List.flatMap_cons, List.append_assoc, demangle_escape, ih, List.cons_append]

/-- An underscore that makes no escape is a separator. -/
theorem demangle_separator (apart : ∀ next ∈ rest.head?, escapes next = false) :
    demangle ('_' :: rest) = 0x2F :: demangle rest := by
  cases rest with
  | nil => rfl
  | cons next rest =>
    have plain := apart next rfl
    simp only [escapes, Bool.or_eq_false_iff, decide_eq_false_iff_not] at plain
    obtain ⟨⟨⟨zero, one⟩, two⟩, three⟩ := plain
    rw [demangle]
    · intro a b c d _ same
      exact zero (List.cons.inj same).1
    · intro _ same
      exact one (List.cons.inj same).1
    · intro _ same
      exact two (List.cons.inj same).1
    · intro _ same
      exact three (List.cons.inj same).1

theorem demangle_cons (plain : c ≠ '_') : demangle (c :: rest) = UInt16.ofNat c.toNat :: demangle rest := by
  rw [demangle]
  all_goals intros; contradiction

/-- What a character was mangled to is read back, whatever follows that keeps apart from a separator. -/
theorem demangle_mangleChar (apart : ∀ next ∈ rest.head?, Apart c next) :
    demangle (mangleChar c ++ rest) = Utf16.encodeChar c ++ demangle rest := by
  unfold mangleChar
  split_ifs with separator underscore semicolon bracket plain
  · subst separator
    exact demangle_separator fun next first => apart next first rfl
  · subst underscore
    rfl
  · subst semicolon
    rfl
  · subst bracket
    rfl
  · have narrow : c.toNat < 0x10000 := by
      replace plain : (c.isUpper || c.isLower || c.isDigit) = true := plain
      delta Char.isUpper Char.isLower at plain
      simp only [Char.isDigit, Bool.or_eq_true, decide_eq_true_eq, Bool.and_eq_true, ge_iff_le, UInt32.le_iff_toNat_le] at plain
      change c.val.toNat < 0x10000
      have upper : 'Z'.val.toNat = 90 := rfl
      have lower : 'z'.val.toNat = 122 := rfl
      have digit : '9'.val.toNat = 57 := rfl
      omega
    rw [List.singleton_append, demangle_cons underscore, Utf16.encodeChar, if_pos narrow, List.singleton_append]
  · exact demangle_escapes

/-- A character other than a separator stays what it was at the front, or an underscore is put there. -/
theorem head_mangle {next : Char} (first : next ∈ (mangle cs).head?) : next = '_' ∨ next ∈ cs.head? := by
  cases cs with
  | nil => exact nomatch first
  | cons c cs =>
    rw [mangle, List.flatMap_cons] at first
    unfold mangleChar at first
    split_ifs at first
    · exact .inl (Option.some.inj first).symm
    · exact .inl (Option.some.inj first).symm
    · exact .inl (Option.some.inj first).symm
    · exact .inl (Option.some.inj first).symm
    · exact .inr first
    · left
      unfold Utf16.encodeChar at first
      split_ifs at first <;> exact (Option.some.inj first).symm

/-- Mangling loses nothing, where no separator stands before a digit that makes an escape of it. -/
theorem demangle_mangle (apart : cs.IsChain Apart) : demangle (mangle cs) = Utf16.encode cs := by
  induction cs with
  | nil => rfl
  | cons c cs ih =>
    have following : ∀ next ∈ (mangle cs).head?, Apart c next := by
      intro next first separator
      rcases head_mangle first with rfl | first
      · rfl
      · cases cs with
        | nil => exact nomatch first
        | cons c' cs =>
          obtain rfl : c' = next := Option.some.inj first
          exact (List.isChain_cons_cons.mp apart).1 separator
    rw [mangle, List.flatMap_cons, Utf16.encode, List.flatMap_cons]
    change demangle (mangleChar c ++ mangle cs) = Utf16.encodeChar c ++ Utf16.encode cs
    rw [demangle_mangleChar following, ih apart.of_cons]

theorem mangle_inj {cs' : List Char} (apart : cs.IsChain Apart) (apart' : cs'.IsChain Apart)
    (same : mangle cs = mangle cs') : cs = cs' := by
  apply Utf16.encode_injective
  rw [← demangle_mangle apart, ← demangle_mangle apart', same]

end Demangling

section Names

/-- A component of a name: not empty, no separator in it, no digit at its front. -/
def isIdentifier (name : List Char) : Bool := !name.contains '/' && name.head?.any fun c => !c.isDigit

/-- A class and the name of a method in it. -/
structure MethodName where
  classInternal : String
  simpleName : String
  components : ∀ component ∈ classInternal.toList.splitOn '/', isIdentifier component
  identifier : isIdentifier simpleName.toList

/-- The parameters of a method descriptor, no component of whose class names starts with a digit that makes an escape. -/
structure ParamDescriptor where
  text : String
  parsed : ∃ descriptor, paramDescriptor descriptor = some text
  apart : text.toList.IsChain Apart

def MethodName.shortName (name : MethodName) : String := Jni.shortName name.classInternal name.simpleName

def MethodName.longName (name : MethodName) (params : ParamDescriptor) : String :=
  Jni.longName name.classInternal name.simpleName params.text

/-- What the short name mangles. -/
def MethodName.path (name : MethodName) : List Char := name.classInternal.toList ++ '/' :: name.simpleName.toList

/-- What the long name mangles. -/
def MethodName.qualified (name : MethodName) (params : ParamDescriptor) : List Char :=
  name.path ++ '/' :: '/' :: params.text.toList

variable {name name' : MethodName} {params params' : ParamDescriptor} {cs : List Char}

theorem not_escapes_of_not_isDigit {c : Char} (plain : c.isDigit = false) : escapes c = false := by
  simp only [escapes, Bool.or_eq_false_iff, decide_eq_false_iff_not]
  refine ⟨⟨⟨?_, ?_⟩, ?_⟩, ?_⟩ <;> (rintro rfl; contradiction)

theorem not_escapes_of_isIdentifier (identifier : isIdentifier cs) : ∀ c ∈ cs.head?, escapes c = false := by
  intro c first
  simp only [isIdentifier, Bool.and_eq_true, Option.mem_def.mp first, Option.any_some, Bool.not_eq_true'] at identifier
  exact not_escapes_of_not_isDigit identifier.2

theorem not_mem_of_isIdentifier (identifier : isIdentifier cs) : '/' ∉ cs := by
  simp only [isIdentifier, Bool.and_eq_true, Bool.not_eq_true', List.contains_eq_mem, decide_eq_false_iff_not] at identifier
  exact identifier.1

theorem ne_nil_of_isIdentifier (identifier : isIdentifier cs) : cs ≠ [] := by
  rintro rfl
  exact nomatch identifier

/-- A component comes after every separator. -/
private theorem head_splitOn {next : Char} (first : next ∈ cs.head?) (plain : next ≠ '/') :
    ∃ component ∈ cs.splitOn '/', next ∈ component.head? := by
  cases cs with
  | nil => exact nomatch first
  | cons c cs =>
    obtain rfl : c = next := Option.some.inj first
    obtain ⟨component, others, split⟩ := List.exists_cons_of_ne_nil (List.splitOn_ne_nil '/' cs)
    refine ⟨c :: component, ?_, rfl⟩
    rw [List.splitOn_cons_eq_if_modifyHead, if_neg (by simpa using plain), split]
    exact List.mem_cons_self

theorem isChain_of_splitOn (apart : ∀ component ∈ cs.splitOn '/', ∀ c ∈ component.head?, escapes c = false) :
    cs.IsChain Apart := by
  have later : ∀ cs : List Char, (∀ component ∈ (cs.splitOn '/').tail, ∀ c ∈ component.head?, escapes c = false) →
      cs.IsChain Apart := by
    intro cs
    induction cs with
    | nil => exact fun _ => .nil
    | cons c cs ih =>
      intro apart
      rw [List.splitOn_cons_eq_if_modifyHead] at apart
      rw [List.isChain_cons]
      rcases eq_or_ne c '/' with rfl | plain
      · rw [if_pos (by decide)] at apart
        refine ⟨fun next first _ => ?_, ih fun component inside => apart component (List.mem_of_mem_tail inside)⟩
        rcases eq_or_ne next '/' with rfl | plain
        · rfl
        · obtain ⟨component, inside, leading⟩ := head_splitOn first plain
          exact apart component inside next leading
      · rw [if_neg (by simpa using plain)] at apart
        exact ⟨fun _ _ separator => absurd separator plain, ih fun component inside => apart component (by simpa using inside)⟩
  exact later cs fun component inside => apart component (List.mem_of_mem_tail inside)

theorem splitOn_path : name.path.splitOn '/' = name.classInternal.toList.splitOn '/' ++ [name.simpleName.toList] := by
  rw [MethodName.path, List.splitOn_append_cons_self, List.splitOn_eq_singleton (not_mem_of_isIdentifier name.identifier)]

theorem isIdentifier_of_mem_path : ∀ component ∈ name.path.splitOn '/', isIdentifier component := by
  intro component inside
  rw [splitOn_path, List.mem_append, List.mem_singleton] at inside
  rcases inside with inside | rfl
  · exact name.components component inside
  · exact name.identifier

theorem splitOn_qualified : (name.qualified params).splitOn '/' =
    name.path.splitOn '/' ++ [] :: params.text.toList.splitOn '/' := by
  rw [MethodName.qualified, List.splitOn_append_cons_self, List.splitOn_cons_eq_if_modifyHead, if_pos (by decide)]

theorem isChain_path : name.path.IsChain Apart :=
  isChain_of_splitOn fun component inside => not_escapes_of_isIdentifier (isIdentifier_of_mem_path component inside)

/-- Parameters start with no digit. -/
theorem head_paramDescriptor {c : Char} (first : c ∈ params.text.toList.head?) : escapes c = false := by
  obtain ⟨descriptor, parsed⟩ := params.parsed
  obtain ⟨types, split, joined⟩ := Option.map_eq_some_iff.mp parsed
  unfold descriptorParams at split
  split at split
  · cases split
  · split_ifs at split
    obtain ⟨texts, found, rfl⟩ := Option.map_eq_some_iff.mp split
    rw [← joined, String.toList_join, List.flatMap_map] at first
    simp only [String.toList_ofList, List.flatMap_id'] at first
    exact not_escapes_of_not_isDigit (head_paramsOf found first)

theorem isChain_qualified : (name.qualified params).IsChain Apart := by
  rw [MethodName.qualified, List.isChain_append]
  refine ⟨isChain_path, ?_, ?_⟩
  · rw [List.isChain_cons_cons, List.isChain_cons]
    exact ⟨fun _ => rfl, fun c first _ => head_paramDescriptor first, params.apart⟩
  · intro _ _ next first _
    obtain rfl : '/' = next := Option.some.inj first
    rfl

theorem toList_shortName : name.shortName.toList = "Java_".toList ++ mangle name.path := by
  simp [MethodName.shortName, Jni.shortName, mangleComponent, MethodName.path, mangle, mangleChar]

theorem toList_longName : (name.longName params).toList = "Java_".toList ++ mangle (name.qualified params) := by
  simp [MethodName.longName, longName, Jni.shortName, mangleComponent, MethodName.qualified, MethodName.path, mangle, mangleChar]

/-- The path tells the class and the method apart. -/
theorem path_inj (same : name.path = name'.path) : name = name' := by
  have split := congrArg (List.splitOn '/') same
  rw [splitOn_path, splitOn_path] at split
  obtain ⟨classes, methods⟩ := List.append_inj' split rfl
  have sameClass : name.classInternal = name'.classInternal := by
    have joined := congrArg (List.intercalate ['/']) classes
    rw [List.intercalate_splitOn, List.intercalate_splitOn] at joined
    exact String.toList_inj.mp joined
  have sameMethod : name.simpleName = name'.simpleName := String.toList_inj.mp (List.singleton_inj.mp methods)
  cases name
  cases name'
  cases sameClass
  cases sameMethod
  rfl

/-- The empty component, which no name has, is where the parameters start. -/
theorem qualified_inj (same : name.qualified params = name'.qualified params') :
    name.path = name'.path ∧ params.text = params'.text := by
  have named : ∀ name : MethodName, ∀ component ∈ name.path.splitOn '/', (!component.isEmpty) = true := by
    intro name component inside
    simpa using ne_nil_of_isIdentifier (isIdentifier_of_mem_path component inside)
  have split := congrArg (List.splitOn '/') same
  rw [splitOn_qualified, splitOn_qualified] at split
  have components := congrArg (List.takeWhile fun component => !component.isEmpty) split
  rw [List.takeWhile_append_of_pos (named name), List.takeWhile_append_of_pos (named name'),
    List.takeWhile_cons_of_neg (by decide), List.takeWhile_cons_of_neg (by decide), List.append_nil, List.append_nil] at components
  have paths : name.path = name'.path := by
    have joined := congrArg (List.intercalate ['/']) components
    rwa [List.intercalate_splitOn, List.intercalate_splitOn] at joined
  refine ⟨paths, ?_⟩
  rw [MethodName.qualified, MethodName.qualified, paths] at same
  have following := List.append_cancel_left same
  exact String.toList_inj.mp (List.cons.inj (List.cons.inj following).2).2

theorem qualified_ne_path : name.qualified params ≠ name'.path := by
  intro same
  have empty : [] ∈ (name.qualified params).splitOn '/' := by
    rw [splitOn_qualified]
    exact List.mem_append_right _ List.mem_cons_self
  rw [same] at empty
  exact ne_nil_of_isIdentifier (isIdentifier_of_mem_path [] empty) rfl

theorem shortName_inj (same : name.shortName = name'.shortName) : name = name' := by
  have texts := congrArg String.toList same
  rw [toList_shortName, toList_shortName] at texts
  exact path_inj (mangle_inj isChain_path isChain_path (List.append_cancel_left texts))

theorem longName_inj (same : name.longName params = name'.longName params') : name = name' ∧ params.text = params'.text := by
  have texts := congrArg String.toList same
  rw [toList_longName, toList_longName] at texts
  have parts := qualified_inj (mangle_inj isChain_qualified isChain_qualified (List.append_cancel_left texts))
  exact ⟨path_inj parts.1, parts.2⟩

theorem longName_ne_shortName : name.longName params ≠ name'.shortName := by
  intro same
  have texts := congrArg String.toList same
  rw [toList_longName, toList_shortName] at texts
  exact qualified_ne_path (mangle_inj isChain_qualified isChain_path (List.append_cancel_left texts))

end Names

end Ctadl.Jni
