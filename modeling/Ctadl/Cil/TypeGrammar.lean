import Ctadl.Cil.TypeNames
import Ctadl.Collections.Fallible
import Mathlib.Tactic.Linarith

/-! # The grammar of reflection type names

The recursive descent that the parser of type names unrolls: a name, as many arguments as its arity says if a bracket opens
them, its suffixes, and the assembly if the name is fully qualified. It has no bound on the arguments.

The parser answers what the descent does, and nothing if the descent opens too many arguments. The one way to panic is an
array with 2 ^ 32 or more dimensions.
-/

namespace Ctadl.Cil

open Collections

section Integers

/-- The value of some digits. -/
def digitsValue (value : ℕ) (digits : List Char) : ℕ := digits.foldl (fun value c => value * 10 + digit c) value

/-- An integer of 32 bits. -/
def int32 (s : List Char) : Option Int :=
  let (negative, digits) := splitSign (trim isWhite (trimEnd (· = Char.ofNat 0) s))
  if digits.isEmpty || !digits.all Char.isDigit then none
  else
    let value : Int := digitsValue 0 digits
    let signed := if negative then -value else value
    if -0x80000000 ≤ signed ∧ signed < 0x80000000 then some signed else none

theorem le_digitsValue (value : ℕ) (digits : List Char) : value ≤ digitsValue value digits := by
  induction digits generalizing value with
  | nil => exact le_rfl
  | cons c digits ih =>
    have rest : value * 10 + digit c ≤ digitsValue value (c :: digits) := ih _
    omega

theorem digit_lt {c : Char} (isDigit : c.isDigit = true) : digit c < 10 := by
  simp only [Char.isDigit, Bool.and_eq_true, decide_eq_true_eq, UInt32.le_iff_toNat_le] at isDigit
  have upper : c.toNat ≤ 57 := isDigit.2
  have zero : '0'.toNat = 48 := rfl
  unfold digit
  omega

theorem checkI64_of_lt {n : ℕ} (bound : n < 0x8000000000000000) : checkI64 (n : Int) = .ok (n : Int) := if_pos (by omega)

theorem readDigits_cons {value : ℕ} {c : Char} {digits : List Char} (bound : value ≤ 0x80000000) (small : digit c < 10) :
    readDigits value (c :: digits) = if ((value * 10 + digit c : ℕ) : Int) > 0x80000000 then .ok none
      else readDigits ((value * 10 + digit c : ℕ) : Int) digits := by
  have shifted : checkI64 ((value : Int) * 10) = .ok ((value * 10 : ℕ) : Int) := by
    have same : (value : Int) * 10 = ((value * 10 : ℕ) : Int) := by
      push_cast
      rfl
    rw [same]
    exact checkI64_of_lt (by omega)
  have added : checkI64 (((value * 10 : ℕ) : Int) + digit c) = .ok ((value * 10 + digit c : ℕ) : Int) := by
    rw [← Int.natCast_add]
    exact checkI64_of_lt (by omega)
  rw [readDigits, bind_of_ok shifted, bind_of_ok added]
  split_ifs with large
  · rfl
  · rfl

/-- The digits are read without overflow, as far as they stay in range. -/
theorem readDigits_eq {value : ℕ} {digits : List Char} (bound : value ≤ 0x80000000) (all : ∀ c ∈ digits, c.isDigit = true) :
    readDigits value digits = .ok (if digitsValue value digits ≤ 0x80000000 then some (digitsValue value digits : Int) else none) := by
  induction digits generalizing value with
  | nil =>
    have same : digitsValue value [] = value := rfl
    rw [readDigits, same, if_pos bound]
  | cons c digits ih =>
    have same : digitsValue value (c :: digits) = digitsValue (value * 10 + digit c) digits := rfl
    have above := le_digitsValue (value * 10 + digit c) digits
    have rest : ∀ c ∈ digits, c.isDigit = true := fun c inside => all c (List.mem_cons_of_mem _ inside)
    rw [readDigits_cons bound (digit_lt (all c List.mem_cons_self)), same]
    split_ifs with large small small
    · omega
    · rfl
    · rw [ih (by omega) rest, if_pos small]
    · rw [ih (by omega) rest, if_neg small]

/-- An integer is read without overflow. -/
theorem parseInt32_eq (s : List Char) : parseInt32 s = .ok (int32 s) := by
  unfold parseInt32 int32
  generalize splitSign (trim isWhite (trimEnd (· = Char.ofNat 0) s)) = split
  obtain ⟨negative, digits⟩ := split
  dsimp only
  by_cases bad : (digits.isEmpty || !digits.all Char.isDigit) = true
  · rw [if_pos bad, if_pos bad]
    rfl
  · rw [if_neg bad, if_neg bad]
    have all : ∀ c ∈ digits, c.isDigit = true := by
      simp only [Bool.or_eq_true, Bool.not_eq_true', not_or, Bool.not_eq_false] at bad
      exact List.all_eq_true.mp bad.2
    have read : readDigits 0 digits = _ := @readDigits_eq 0 digits (Nat.zero_le _) all
    rw [bind_of_ok read]
    generalize digitsValue 0 digits = value
    by_cases small : value ≤ 0x80000000
    · rw [if_pos small]
      rfl
    · rw [if_neg small, if_neg]
      · rfl
      · split <;> omega

end Integers

section Parts

variable (chars : List Char)

/-- The sum of the arities of the names, as 32 bits hold it. -/
def nameArity (names : List (List Char)) : Int :=
  names.foldl (fun arity name => match (behindBacktick name).bind int32 with
    | none => arity
    | some n => (arity + n).bmod 0x100000000) 0

def readName (pos : ℕ) : TypeName × ℕ :=
  let fullname := parsePart chars pos
  let nested := parseNested chars fullname.2
  ({ fullname := fullname.1, nestedNames := nested.1, arity := nameArity (fullname.1 :: nested.1) }, nested.2)

/-- The suffixes of a type, of any rank. -/
def readSpecs (pos : ℕ) : List Spec × ℕ :=
  match _ : specAt chars pos with
  | none => ([], pos)
  | some (spec, next) =>
    let rest := readSpecs next
    (spec :: rest.1, rest.2)
termination_by chars.length - pos
decreasing_by
  have := lt_of_specAt chars ‹specAt chars pos = some (spec, next)›
  omega

def readAssembly (pos : ℕ) : List Char × ℕ :=
  if chars[pos]? = some ',' then
    let start := skipWhitespace chars (pos + 1)
    let stop := skip chars (fun c => c ≠ '[' && c ≠ ']') start
    ((chars.take stop).drop start, stop)
  else ([], pos)

theorem addArity_eq (arity : Int) (name : List Char) : addArity arity name =
    .ok (match (behindBacktick name).bind int32 with
      | none => arity
      | some n => (arity + n).bmod 0x100000000) := by
  unfold addArity
  cases behindBacktick name with
  | none => rfl
  | some digits =>
    dsimp only [Option.bind_some]
    rw [bind_of_ok (parseInt32_eq digits)]
    cases int32 digits with
    | none => rfl
    | some n => rfl

theorem foldlM_addArity (names : List (List Char)) (arity : Int) : names.foldlM addArity arity =
    .ok (names.foldl (fun arity name => match (behindBacktick name).bind int32 with
      | none => arity
      | some n => (arity + n).bmod 0x100000000) arity) := by
  induction names generalizing arity with
  | nil => rfl
  | cons name names ih => rw [List.foldlM_cons, bind_of_ok (addArity_eq arity name), ih, List.foldl_cons]

/-- A name is read without overflow. -/
theorem parseName_eq (pos : ℕ) : parseName chars pos = .ok (readName chars pos) :=
  bind_of_ok (foldlM_addArity _ 0)

/-- Whether 32 bits hold the rank of an array. -/
def Spec.Fits : Spec → Prop
  | array rank => rank < 0x100000000
  | ptr | byRef | szArray => True

instance (spec : Spec) : Decidable spec.Fits := by
  cases spec <;> unfold Spec.Fits <;> infer_instance

theorem parseSpecs_of_none {pos : ℕ} (nothing : specAt chars pos = none) : parseSpecs chars pos = .ok ([], pos) := by
  rw [parseSpecs]
  split
  · rfl
  · rename_i found
    rw [nothing] at found
    cases found

theorem parseSpecs_of_some {pos next : ℕ} {spec : Spec} (found : specAt chars pos = some (spec, next)) :
    parseSpecs chars pos = if spec.Fits then (parseSpecs chars next).map fun rest => (spec :: rest.1, rest.2)
      else .error .overflow := by
  rw [parseSpecs]
  split
  · rename_i nothing
    rw [nothing] at found
    cases found
  · rename_i spec' next' same
    obtain ⟨rfl, rfl⟩ := Prod.mk.inj (Option.some.inj (same.symm.trans found))
    cases spec' with
    | array rank =>
      by_cases fits : rank < 0x100000000
      · rw [if_pos (show Spec.Fits (.array rank) from fits)]
        dsimp only
        rw [checkU32, if_pos fits]
        cases parseSpecs chars next' <;> rfl
      · rw [if_neg (show ¬ Spec.Fits (.array rank) from fits)]
        dsimp only
        rw [checkU32, if_neg fits]
        rfl
    | ptr | byRef | szArray =>
      rw [if_pos (by trivial)]
      cases parseSpecs chars next' <;> rfl

/-- The suffixes are read as far as 32 bits hold every rank. -/
theorem parseSpecs_eq (pos : ℕ) : parseSpecs chars pos =
    if ∀ spec ∈ (readSpecs chars pos).1, spec.Fits then .ok (readSpecs chars pos) else .error .overflow := by
  fun_induction readSpecs chars pos with
  | case1 pos nothing => rw [parseSpecs_of_none chars nothing, if_pos nofun]
  | case2 pos spec next found rest ih =>
    rw [parseSpecs_of_some chars found, ih]
    by_cases fits : spec.Fits
    · rw [if_pos fits]
      by_cases others : ∀ spec ∈ (readSpecs chars next).1, spec.Fits
      · rw [if_pos others, if_pos (List.forall_mem_cons.mpr ⟨fits, others⟩)]
        rfl
      · rw [if_neg others, if_neg fun all => others (List.forall_mem_cons.mp all).2]
        rfl
    · rw [if_neg fits, if_neg fun all => fits (List.forall_mem_cons.mp all).1]

theorem skip_le {p : Char → Bool} {pos : ℕ} (inside : pos ≤ chars.length) : skip chars p pos ≤ chars.length := by
  have rest : ((chars.drop pos).takeWhile p).length ≤ (chars.drop pos).length := (List.takeWhile_prefix p).length_le
  rw [List.length_drop] at rest
  unfold skip
  omega

theorem slice_eq {start stop : ℕ} (ordered : start ≤ stop) (inside : stop ≤ chars.length) :
    slice chars start stop = .ok ((chars.take stop).drop start) := if_pos ⟨ordered, inside⟩

/-- An assembly is read from inside the name. -/
theorem parseAssemblyName_eq (pos : ℕ) : parseAssemblyName chars pos = .ok (readAssembly chars pos) := by
  unfold parseAssemblyName readAssembly
  split_ifs with comma
  · have inside : pos + 1 ≤ chars.length := lt_of_getElem? chars comma
    have start : skipWhitespace chars (pos + 1) ≤ chars.length := skip_le chars inside
    exact bind_of_ok (slice_eq chars (le_skip chars _ _) (skip_le chars start))
  · rfl

end Parts

section Descent

variable (chars : List Char)

theorem le_parseNested (pos : ℕ) : pos ≤ (parseNested chars pos).2 := by
  fun_induction parseNested chars pos with
  | case1 pos found part rest ih =>
    have behind : pos + 1 ≤ part.2 := le_parsePart chars (pos + 1)
    have last : part.2 ≤ rest.2 := ih
    exact Nat.le_of_succ_le (behind.trans last)
  | case2 pos _ => exact le_rfl

theorem le_readName (pos : ℕ) : pos ≤ (readName chars pos).2 :=
  (le_parsePart chars pos).trans (le_parseNested chars _)

theorem le_readSpecs (pos : ℕ) : pos ≤ (readSpecs chars pos).2 := by
  fun_induction readSpecs chars pos with
  | case1 pos _ => exact le_rfl
  | case2 pos spec next found rest ih =>
    have behind := (lt_of_specAt chars found).1
    have last : next ≤ rest.2 := ih
    exact behind.le.trans last

theorem le_readAssembly (pos : ℕ) : pos ≤ (readAssembly chars pos).2 := by
  unfold readAssembly
  split_ifs
  · have start : pos + 1 ≤ skipWhitespace chars (pos + 1) := le_skip ..
    exact Nat.le_of_succ_le (start.trans (le_skip ..))
  · exact le_rfl

/-- The suffixes behind a type, and its assembly if its name is fully qualified. -/
def readBehind (fqName : Bool) (ty : ParsedType) (pos : ℕ) : ParsedType × ℕ :=
  let specs := readSpecs chars pos
  if fqName then
    let assembly := readAssembly chars specs.2
    (finish ty specs.1 (some assembly.1), assembly.2)
  else (finish ty specs.1 none, specs.2)

theorem le_readBehind (fqName : Bool) (ty : ParsedType) (pos : ℕ) : pos ≤ (readBehind chars fqName ty pos).2 := by
  unfold readBehind
  dsimp only
  split_ifs
  · exact (le_readSpecs chars pos).trans (le_readAssembly chars _)
  · exact le_readSpecs chars pos

/-- What was read from a position on. -/
structure Reading (α : Type) (pos : ℕ) where
  value : α
  /-- The arity of all the argument lists that were opened. -/
  opened : ℕ
  position : ℕ
  later : pos ≤ position

/-- Behind an argument: its bracket, and a comma. -/
def behindArgument (bracket : Bool) (pos : ℕ) : ℕ :=
  skipWhitespace chars (tryParse chars ',' (if bracket then (tryParse chars ']' pos).2 else pos)).2

theorem le_behindArgument (bracket : Bool) (pos : ℕ) : pos ≤ behindArgument chars bracket pos := by
  have comma : pos ≤ if bracket then (tryParse chars ']' pos).2 else pos := by
    split_ifs
    · exact le_tryParse chars ']' pos
    · exact le_rfl
  exact (comma.trans (le_tryParse chars ',' _)).trans (le_skip ..)

mutual

/-- The type whose name starts at the position. -/
def descend (fqName : Bool) (pos : ℕ) : Reading ParsedType pos :=
  let name := readName chars pos
  if opens : name.1.arity > 0 ∧ chars[name.2]? = some '[' then
    let arguments := readArguments name.1.arity.toNat (name.2 + 1)
    let close := (tryParse chars ']' arguments.position).2
    let behind := readBehind chars fqName (.node name.1 arguments.value) close
    { value := behind.1, opened := name.1.arity.toNat + arguments.opened, position := behind.2
      later := by
        have start : pos ≤ name.2 := le_readName chars pos
        have inside := arguments.later
        have bracket : arguments.position ≤ close := le_tryParse ..
        have last : close ≤ behind.2 := le_readBehind ..
        exact ((Nat.le_of_succ_le (start.trans_lt (Nat.lt_of_succ_le inside))).trans bracket).trans last }
  else
    let behind := readBehind chars fqName (.node name.1 []) name.2
    { value := behind.1, opened := 0, position := behind.2
      later := (le_readName chars pos).trans (le_readBehind chars fqName _ _) }
termination_by (chars.length - pos, 0)
decreasing_by
  have start : pos ≤ (readName chars pos).2 := le_readName chars pos
  have inside : (readName chars pos).2 < chars.length := lt_of_getElem? chars opens.2
  exact Prod.Lex.left _ _ (by omega)

/-- So many arguments, each wrapped in brackets if its name is fully qualified. -/
def readArguments (count : ℕ) (pos : ℕ) : Reading (List ParsedType) pos :=
  match count with
  | 0 => ⟨[], 0, pos, le_rfl⟩
  | count + 1 =>
    let bracket := tryParse chars '[' pos
    let argument := descend bracket.1 bracket.2
    let rest := readArguments count (behindArgument chars bracket.1 argument.position)
    { value := argument.value :: rest.value, opened := argument.opened + rest.opened, position := rest.position
      later := by
        have first : pos ≤ argument.position := (le_tryParse chars '[' pos).trans argument.later
        exact (first.trans (le_behindArgument chars bracket.1 argument.position)).trans rest.later }
termination_by (chars.length - pos, count)
decreasing_by
  · have start : pos ≤ bracket.2 := le_tryParse chars '[' pos
    exact Prod.Lex.right' _ (Nat.sub_le_sub_left start _) (Nat.succ_pos count)
  · have first : pos ≤ argument.position := (le_tryParse chars '[' pos).trans argument.later
    have behind := first.trans (le_behindArgument chars bracket.1 argument.position)
    exact Prod.Lex.right' _ (Nat.sub_le_sub_left behind _) (Nat.lt_succ_self count)

end

variable {chars} {fqName : Bool} {pos : ℕ}

theorem readArguments_succ (count : ℕ) {argument : Reading ParsedType (tryParse chars '[' pos).2}
    (read : argument = descend chars (tryParse chars '[' pos).1 (tryParse chars '[' pos).2) :
    let rest := readArguments chars count (behindArgument chars (tryParse chars '[' pos).1 argument.position)
    (readArguments chars (count + 1) pos).value = argument.value :: rest.value ∧
      (readArguments chars (count + 1) pos).opened = argument.opened + rest.opened ∧
      (readArguments chars (count + 1) pos).position = rest.position := by
  subst read
  rw [readArguments]
  exact ⟨rfl, rfl, rfl⟩

theorem readArguments_zero : (readArguments chars 0 pos).value = [] ∧ (readArguments chars 0 pos).opened = 0 ∧
    (readArguments chars 0 pos).position = pos := by
  rw [readArguments]
  exact ⟨rfl, rfl, rfl⟩

theorem descend_of_opens (opens : (readName chars pos).1.arity > 0 ∧ chars[(readName chars pos).2]? = some '[')
    {arguments : Reading (List ParsedType) ((readName chars pos).2 + 1)}
    (read : arguments = readArguments chars (readName chars pos).1.arity.toNat ((readName chars pos).2 + 1)) :
    let behind := readBehind chars fqName (.node (readName chars pos).1 arguments.value) (tryParse chars ']' arguments.position).2
    (descend chars fqName pos).value = behind.1 ∧
      (descend chars fqName pos).opened = (readName chars pos).1.arity.toNat + arguments.opened ∧
      (descend chars fqName pos).position = behind.2 := by
  subst read
  rw [descend, dif_pos opens]
  exact ⟨rfl, rfl, rfl⟩

theorem descend_of_plain (plain : ¬ ((readName chars pos).1.arity > 0 ∧ chars[(readName chars pos).2]? = some '[')) :
    let behind := readBehind chars fqName (.node (readName chars pos).1 []) (readName chars pos).2
    (descend chars fqName pos).value = behind.1 ∧ (descend chars fqName pos).opened = 0 ∧
      (descend chars fqName pos).position = behind.2 := by
  rw [descend, dif_neg plain]
  exact ⟨rfl, rfl, rfl⟩

end Descent

/-- Whether 32 bits hold the ranks of all arrays in a type. -/
def Fits (ty : ParsedType) : Prop := ty.All fun name => ∀ spec ∈ name.specs, spec.Fits

theorem fits_readBehind {chars : List Char} {fqName : Bool} {pos : ℕ} {name : TypeName} {arguments : List ParsedType} :
    Fits (readBehind chars fqName (.node name arguments) pos).1 ↔
      (∀ spec ∈ (readSpecs chars pos).1, spec.Fits) ∧ ∀ ty ∈ arguments, Fits ty := by
  cases fqName with
  | false => exact Collections.Tree.all_node
  | true => exact Collections.Tree.all_node

/-- From one state the parser goes on to another, unless the arguments opened on the way are too many or an array on the way
has a rank too large. -/
structure Covers (chars : List Char) (arguments opened : ℕ) (fits : Prop) (st st' : ParseState) : Prop where
  leads : fits → arguments + opened ≤ 65535 → Leads (parseStep chars) st st'
  full : fits → 65535 < arguments + opened → Answers (parseStep chars) st (.ok none)
  panics : ¬ fits → arguments + opened ≤ 65535 → Answers (parseStep chars) st (.error .overflow)

section Covers

variable {chars : List Char} {arguments opened opened' : ℕ} {fits fits' : Prop} {st st' st'' : ParseState}

theorem Covers.of_step (next : parseStep chars st = .inl st') (few : arguments ≤ 65535) : Covers chars arguments 0 True st st' where
  leads _ _ := .single next
  full _ many := absurd few (Nat.not_le_of_lt many)
  panics never := absurd trivial never

theorem Covers.trans (first : Covers chars arguments opened fits st st')
    (second : arguments + opened ≤ 65535 → Covers chars (arguments + opened) opened' fits' st' st'') :
    Covers chars arguments (opened + opened') (fits ∧ fits') st st'' where
  leads both few :=
    (first.leads both.1 (by omega)).trans ((second (by omega)).leads both.2 (by omega))
  full both many := by
    rcases Nat.lt_or_ge 65535 (arguments + opened) with early | late
    · exact first.full both.1 early
    · exact (first.leads both.1 late).answers ((second late).full both.2 (by omega))
  panics bad few := by
    by_cases good : fits
    · have bad' : ¬ fits' := fun good' => bad ⟨good, good'⟩
      exact (first.leads good (by omega)).answers ((second (by omega)).panics bad' (by omega))
    · exact first.panics good (by omega)

theorem Covers.congr (covers : Covers chars arguments opened fits st st') (same : fits' ↔ fits) :
    Covers chars arguments opened fits' st st' := by
  rwa [propext same]

end Covers

section Steps

variable {chars : List Char} {fqName : Bool} {pos arguments : ℕ} {opened : List OpenType}

/-- Reading a name without arguments. -/
theorem parseStep_of_plain
    (plain : ¬ ((readName chars pos).1.arity > 0 ∧ chars[(readName chars pos).2]? = some '[')) :
    parseStep chars ⟨pos, arguments, opened, .reading fqName⟩ =
      .inl ⟨(readName chars pos).2, arguments, opened, .closing (.node (readName chars pos).1 []) fqName⟩ := by
  have read : readingStep chars ⟨pos, arguments, opened, .reading fqName⟩ fqName =
      .ok (some ⟨(readName chars pos).2, arguments, opened, .closing (.node (readName chars pos).1 []) fqName⟩) := by
    unfold readingStep
    rw [bind_of_ok (parseName_eq chars pos)]
    exact if_neg plain
  unfold parseStep
  dsimp only
  rw [read]

theorem readingStep_of_opens {st : ParseState} (opens : (readName chars st.position).1.arity > 0 ∧
      chars[(readName chars st.position).2]? = some '[') : readingStep chars st fqName =
    checkI32 (maxArguments - st.arguments) >>= fun left =>
      if (readName chars st.position).1.arity > left then .ok none
      else checkI32 (st.arguments + (readName chars st.position).1.arity) >>= fun arguments =>
        let bracket := tryParse chars '[' ((readName chars st.position).2 + 1)
        .ok (some ⟨bracket.2, arguments, ⟨.node (readName chars st.position).1 [], fqName, bracket.1⟩ :: st.opened,
          .reading bracket.1⟩) := by
  unfold readingStep
  rw [bind_of_ok (parseName_eq chars st.position)]
  exact if_pos opens

/-- Reading a name with arguments. -/
theorem covers_opening (few : arguments ≤ 65535)
    (opens : (readName chars pos).1.arity > 0 ∧ chars[(readName chars pos).2]? = some '[') :
    Covers chars arguments (readName chars pos).1.arity.toNat True ⟨pos, arguments, opened, .reading fqName⟩
      ⟨(tryParse chars '[' ((readName chars pos).2 + 1)).2, (arguments + (readName chars pos).1.arity.toNat : ℕ),
        ⟨.node (readName chars pos).1 [], fqName, (tryParse chars '[' ((readName chars pos).2 + 1)).1⟩ :: opened,
        .reading (tryParse chars '[' ((readName chars pos).2 + 1)).1⟩ := by
  have positive := opens.1
  have left : checkI32 (maxArguments - (arguments : Int)) = .ok (65535 - arguments : Int) :=
    if_pos (by unfold maxArguments; omega)
  have read := @readingStep_of_opens chars fqName ⟨pos, arguments, opened, .reading fqName⟩ opens
  dsimp only at read
  rw [bind_of_ok left] at read
  constructor
  · intro _ fits
    have added : checkI32 ((arguments : Int) + (readName chars pos).1.arity) =
        .ok ((arguments + (readName chars pos).1.arity.toNat : ℕ) : Int) := by
      have same : (arguments : Int) + (readName chars pos).1.arity =
          ((arguments + (readName chars pos).1.arity.toNat : ℕ) : Int) := by omega
      rw [same]
      exact if_pos (by omega)
    rw [if_neg (by omega), bind_of_ok added] at read
    refine .single ?_
    unfold parseStep
    dsimp only
    rw [read]
  · intro _ many
    rw [if_pos (by omega)] at read
    refine .intro ?_
    unfold parseStep
    dsimp only
    rw [read]
  · exact fun never => absurd trivial never

/-- Reading what stands behind a type. -/
theorem covers_closing (few : arguments ≤ 65535) (ty : ParsedType) :
    Covers chars arguments 0 (∀ spec ∈ (readSpecs chars pos).1, spec.Fits) ⟨pos, arguments, opened, .closing ty fqName⟩
      ⟨(readBehind chars fqName ty pos).2, arguments, opened, .closed (readBehind chars fqName ty pos).1⟩ := by
  have read := parseSpecs_eq chars pos
  constructor
  · intro fits _
    rw [if_pos fits] at read
    refine .single ?_
    have closing : closingStep chars ⟨pos, arguments, opened, .closing ty fqName⟩ ty fqName =
        .ok ⟨(readBehind chars fqName ty pos).2, arguments, opened, .closed (readBehind chars fqName ty pos).1⟩ := by
      unfold closingStep
      rw [bind_of_ok read]
      unfold readBehind
      cases fqName with
      | false => rfl
      | true =>
        dsimp only
        rw [if_pos rfl, bind_of_ok (parseAssemblyName_eq chars _)]
        rfl
    unfold parseStep
    dsimp only
    rw [closing]
  · exact fun _ many => absurd few (Nat.not_le_of_lt many)
  · intro bad _
    rw [if_neg bad] at read
    refine .intro ?_
    have closing : closingStep chars ⟨pos, arguments, opened, .closing ty fqName⟩ ty fqName = .error .overflow := by
      unfold closingStep
      rw [read]
      rfl
    unfold parseStep
    dsimp only
    rw [closing]

/-- Attaching an argument that is not the last. -/
theorem parseStep_of_next {argument : ParsedType} {head : TypeName} {done : List ParsedType} {bracket : Bool}
    (more : done.length + 1 < head.arity.toNat) :
    parseStep chars ⟨pos, arguments, ⟨.node head done, fqName, bracket⟩ :: opened, .closed argument⟩ =
      .inl ⟨(tryParse chars '[' (behindArgument chars bracket pos)).2, arguments,
        ⟨.node head (done ++ [argument]), fqName, (tryParse chars '[' (behindArgument chars bracket pos)).1⟩ :: opened,
        .reading (tryParse chars '[' (behindArgument chars bracket pos)).1⟩ := by
  have long : (done ++ [argument]).length < head.arity.toNat := by rwa [List.length_append, List.length_singleton]
  exact congrArg Sum.inl (if_pos long)

/-- Attaching the last argument. -/
theorem parseStep_of_last {argument : ParsedType} {head : TypeName} {done : List ParsedType} {bracket : Bool}
    (last : done.length + 1 = head.arity.toNat) :
    parseStep chars ⟨pos, arguments, ⟨.node head done, fqName, bracket⟩ :: opened, .closed argument⟩ =
      .inl ⟨(tryParse chars ']' (behindArgument chars bracket pos)).2, arguments, opened,
        .closing (.node head (done ++ [argument])) fqName⟩ := by
  have full : ¬ (done ++ [argument]).length < head.arity.toNat := by
    rw [List.length_append, List.length_singleton]
    omega
  exact congrArg Sum.inl (if_neg full)

end Steps

section Simulation

variable {chars : List Char}

/-- Reading the type at a position leads to the type that the descent finds there. -/
def Simulates (chars : List Char) (pos : ℕ) : Prop :=
  ∀ (fqName : Bool) (arguments : ℕ) (opened : List OpenType), arguments ≤ 65535 →
    Covers chars arguments (descend chars fqName pos).opened (Fits (descend chars fqName pos).value)
      ⟨pos, arguments, opened, .reading fqName⟩
      ⟨(descend chars fqName pos).position, (arguments + (descend chars fqName pos).opened : ℕ), opened,
        .closed (descend chars fqName pos).value⟩

theorem covers_arguments {pos₀ : ℕ} (simulates : ∀ pos ≥ pos₀, Simulates chars pos) (count : ℕ) {pos arguments : ℕ}
    {head : TypeName} {done : List ParsedType} {fqName : Bool} {opened : List OpenType} (behind : pos₀ ≤ pos)
    (left : done.length + (count + 1) = head.arity.toNat) (few : arguments ≤ 65535) :
    Covers chars arguments (readArguments chars (count + 1) pos).opened (∀ ty ∈ (readArguments chars (count + 1) pos).value, Fits ty)
      ⟨(tryParse chars '[' pos).2, arguments, ⟨.node head done, fqName, (tryParse chars '[' pos).1⟩ :: opened,
        .reading (tryParse chars '[' pos).1⟩
      ⟨(tryParse chars ']' (readArguments chars (count + 1) pos).position).2,
        (arguments + (readArguments chars (count + 1) pos).opened : ℕ), opened,
        .closing (.node head (done ++ (readArguments chars (count + 1) pos).value)) fqName⟩ := by
  induction count generalizing pos arguments done with
  | zero =>
    obtain ⟨argument, read⟩ : ∃ argument, argument = descend chars (tryParse chars '[' pos).1 (tryParse chars '[' pos).2 := ⟨_, rfl⟩
    obtain ⟨value, total, position⟩ := readArguments_succ 0 read
    obtain ⟨value', total', position'⟩ := @readArguments_zero chars
      (behindArgument chars (tryParse chars '[' pos).1 argument.position)
    have first := simulates _ (behind.trans (le_tryParse chars '[' pos)) (tryParse chars '[' pos).1 arguments
      (⟨.node head done, fqName, (tryParse chars '[' pos).1⟩ :: opened) few
    rw [← read] at first
    have step := first.trans fun few => .of_step (parseStep_of_last left) few
    rw [value, total, position, value', total', position']
    exact step.congr (by simp)
  | succ count ih =>
    obtain ⟨argument, read⟩ : ∃ argument, argument = descend chars (tryParse chars '[' pos).1 (tryParse chars '[' pos).2 := ⟨_, rfl⟩
    obtain ⟨value, total, position⟩ := readArguments_succ (count + 1) read
    have first := simulates _ (behind.trans (le_tryParse chars '[' pos)) (tryParse chars '[' pos).1 arguments
      (⟨.node head done, fqName, (tryParse chars '[' pos).1⟩ :: opened) few
    rw [← read] at first
    have later : pos₀ ≤ behindArgument chars (tryParse chars '[' pos).1 argument.position :=
      ((behind.trans (le_tryParse chars '[' pos)).trans argument.later).trans (le_behindArgument ..)
    have step := first.trans fun few => .of_step (parseStep_of_next (by omega)) few
    have longer : (done ++ [argument.value]).length + (count + 1) = head.arity.toNat := by
      rw [List.length_append, List.length_singleton]
      omega
    have all := step.trans fun few => @ih _ _ (done ++ [argument.value]) later longer few
    rw [Nat.add_zero, Nat.add_assoc, List.append_assoc, List.singleton_append] at all
    rw [value, total, position]
    exact all.congr (by simp)

/-- The parser unrolls the descent. -/
theorem simulates (pos : ℕ) : Simulates chars pos := by
  induction left : chars.length - pos using Nat.strong_induction_on generalizing pos with
  | _ left' ih =>
    subst left
    intro fqName arguments opened few
    by_cases opens : (readName chars pos).1.arity > 0 ∧ chars[(readName chars pos).2]? = some '['
    · obtain ⟨args, read⟩ : ∃ args, args = readArguments chars (readName chars pos).1.arity.toNat ((readName chars pos).2 + 1) :=
        ⟨_, rfl⟩
      obtain ⟨value, total, position⟩ := @descend_of_opens chars fqName pos opens args read
      obtain ⟨count, arity⟩ : ∃ count, (readName chars pos).1.arity.toNat = count + 1 :=
        ⟨(readName chars pos).1.arity.toNat - 1, by have := opens.1; omega⟩
      have inside := lt_of_getElem? chars opens.2
      have start := le_readName chars pos
      have below : ∀ q ≥ (readName chars pos).2 + 1, Simulates chars q := fun q behind =>
        ih (chars.length - q) (by omega) q rfl
      have opening := @covers_opening chars fqName pos arguments opened few opens
      have step := opening.trans fun few => @covers_arguments chars _ below count _ _ (readName chars pos).1 [] fqName opened
        le_rfl (by rw [arity, List.length_nil, Nat.zero_add]) few
      rw [← arity, ← read, List.nil_append, Nat.add_assoc] at step
      have all := step.trans fun few => covers_closing few (.node (readName chars pos).1 args.value)
      rw [value, total, position]
      exact all.congr (by rw [fits_readBehind, true_and, and_comm])
    · obtain ⟨value, total, position⟩ := @descend_of_plain chars fqName pos opens
      have plain := Covers.of_step (@parseStep_of_plain chars fqName pos arguments opened opens) few
      have step := plain.trans fun few => covers_closing few (.node (readName chars pos).1 [])
      rw [value, total, position]
      exact step.congr (by rw [fits_readBehind, true_and]; simp)

end Simulation

section Answers

variable {chars : List Char} {answer : Except Panic (Option ParsedType)}

theorem parses_of_nonempty (some' : chars ≠ []) (answers : Answers (parseStep chars) ⟨0, 0, [], .reading true⟩ answer)
    (r : Except Panic (Option ParsedType)) : Parses chars r ↔ r = answer := by
  rw [Parses, if_neg some']
  exact ⟨fun other => other.unique answers, fun same => same ▸ answers⟩

theorem parses_of_fits (some' : chars ≠ []) (fits : Fits (descend chars true 0).value) (r : Except Panic (Option ParsedType)) :
    Parses chars r ↔
      r = .ok (if (descend chars true 0).opened ≤ maxArguments then some (descend chars true 0).value else none) := by
  have covers := @simulates chars 0 true 0 [] (Nat.zero_le _)
  apply parses_of_nonempty some'
  split_ifs with few
  · have bound : (descend chars true 0).opened ≤ 65535 := by
      unfold maxArguments at few
      omega
    exact (covers.leads fits (by omega)).answers (.intro rfl)
  · have bound : ¬ (descend chars true 0).opened ≤ 65535 := by
      unfold maxArguments at few
      omega
    exact covers.full fits (by omega)

theorem parses_of_not_fits (some' : chars ≠ []) (large : ¬ Fits (descend chars true 0).value)
    (few : (descend chars true 0).opened ≤ maxArguments) (r : Except Panic (Option ParsedType)) :
    Parses chars r ↔ r = .error .overflow := by
  have covers := @simulates chars 0 true 0 [] (Nat.zero_le _)
  have bound : (descend chars true 0).opened ≤ 65535 := by
    unfold maxArguments at few
    omega
  exact parses_of_nonempty some' (covers.panics large (by omega)) r

/-- A rank counts characters of the name. -/
theorem fits_specAt (short : chars.length < 0x100000000) {pos next : ℕ} {spec : Spec}
    (found : specAt chars pos = some (spec, next)) : spec.Fits := by
  have inside := (lt_of_specAt chars found).2
  have behind : skip chars (· = ',') (pos + 1) ≤ chars.length := skip_le chars inside
  unfold specAt at found
  split at found
  · cases found
    trivial
  · cases found
    trivial
  · split at found
    · cases found
      trivial
    · cases found
      change 1 < 0x100000000
      omega
    · cases found
      change 1 + (skip chars (· = ',') (pos + 1) - (pos + 1)) < 0x100000000
      omega
  · exact nomatch found

theorem fits_readSpecs (short : chars.length < 0x100000000) (pos : ℕ) : ∀ spec ∈ (readSpecs chars pos).1, spec.Fits := by
  fun_induction readSpecs chars pos with
  | case1 pos _ => exact nofun
  | case2 pos spec next found rest ih => exact List.forall_mem_cons.mpr ⟨fits_specAt short found, ih⟩

theorem fits_readArguments {pos₀ : ℕ} (below : ∀ pos ≥ pos₀, ∀ fqName, Fits (descend chars fqName pos).value) (count : ℕ)
    {pos : ℕ} (behind : pos₀ ≤ pos) : ∀ ty ∈ (readArguments chars count pos).value, Fits ty := by
  induction count generalizing pos with
  | zero =>
    rw [(@readArguments_zero chars pos).1]
    exact nofun
  | succ count ih =>
    obtain ⟨argument, read⟩ : ∃ argument, argument = descend chars (tryParse chars '[' pos).1 (tryParse chars '[' pos).2 := ⟨_, rfl⟩
    have start := behind.trans (le_tryParse chars '[' pos)
    rw [(readArguments_succ count read).1]
    refine List.forall_mem_cons.mpr ⟨?_, ih ((start.trans argument.later).trans (le_behindArgument ..))⟩
    rw [read]
    exact below _ start _

/-- No rank is too large in a name that is short enough. -/
theorem fits_descend (short : chars.length < 0x100000000) (fqName : Bool) (pos : ℕ) : Fits (descend chars fqName pos).value := by
  induction left : chars.length - pos using Nat.strong_induction_on generalizing fqName pos with
  | _ left' ih =>
    subst left
    by_cases opens : (readName chars pos).1.arity > 0 ∧ chars[(readName chars pos).2]? = some '['
    · have inside := lt_of_getElem? chars opens.2
      have start := le_readName chars pos
      have below : ∀ q ≥ (readName chars pos).2 + 1, ∀ fqName, Fits (descend chars fqName q).value := fun q behind fqName =>
        ih (chars.length - q) (by omega) fqName q rfl
      rw [(descend_of_opens opens rfl).1, fits_readBehind]
      exact ⟨fits_readSpecs short _, fits_readArguments below _ le_rfl⟩
    · rw [(descend_of_plain opens).1, fits_readBehind]
      exact ⟨fits_readSpecs short _, nofun⟩

end Answers

section Names

def specText : Spec → List Char
  | .ptr => ['*']
  | .byRef => ['&']
  | .szArray => ['[', ']']
  | .array rank => '[' :: (List.replicate (rank - 1) ',' ++ [']'])

/-- The name of a type without its arguments and suffixes. -/
def ownName (name : TypeName) : List Char := name.fullname ++ name.nestedNames.flatMap ('/' :: ·)

/-- What a visit adds to the name of a type. -/
def nameVisit (s : List Char) : Collections.Tree.Visit TypeName → Except Empty (List Char)
  | .opening ty => .ok (s ++ ownName ty.value ++ if ty.children.isEmpty then [] else ['<'])
  | .between => .ok (s ++ [','])
  | .closing ty => .ok (s ++ (if ty.children.isEmpty then [] else ['>']) ++ ty.value.specs.flatMap specText)

mutual

/-- The name of a type: nested names behind slashes, arguments between angle brackets, then the suffixes. -/
def cecilFullName : ParsedType → List Char
  | .node name arguments =>
    ownName name ++ (if arguments.isEmpty then [] else '<' :: (argumentNames arguments ++ ['>'])) ++ name.specs.flatMap specText

def argumentNames : List ParsedType → List Char
  | [] => []
  | [ty] => cecilFullName ty
  | ty :: ty' :: tys => cecilFullName ty ++ ',' :: argumentNames (ty' :: tys)

end

/-- The visits of a type add its name. -/
theorem foldlM_visits (ty : ParsedType) (s : List Char) : ty.visits.foldlM nameVisit s = .ok (s ++ cecilFullName ty) := by
  induction ty using Collections.Tree.induct generalizing s with
  | node name arguments ih =>
    have below : ∀ s, (Collections.Tree.visitsBelow arguments).foldlM nameVisit s = .ok (s ++ argumentNames arguments) := by
      induction arguments with
      | nil =>
        intro s
        rw [Collections.Tree.visitsBelow, argumentNames, List.append_nil]
        rfl
      | cons ty tys rest =>
        intro s
        cases tys with
        | nil =>
          rw [Collections.Tree.visitsBelow, argumentNames]
          exact ih ty List.mem_cons_self s
        | cons ty' tys =>
          have others := rest fun t inside => ih t (List.mem_cons_of_mem _ inside)
          rw [Collections.Tree.visitsBelow, List.foldlM_append, bind_of_ok (ih ty List.mem_cons_self s), List.foldlM_cons, argumentNames]
          refine (bind_of_ok (show nameVisit _ .between = .ok _ from rfl)).trans ?_
          rw [others]
          simp only [List.append_assoc, List.singleton_append]
    rw [Collections.Tree.visits, List.foldlM_cons, cecilFullName]
    refine (bind_of_ok (show nameVisit _ (.opening _) = .ok _ from rfl)).trans ?_
    rw [List.foldlM_append, bind_of_ok (below _)]
    refine (bind_of_ok (show nameVisit _ (.closing _) = .ok _ from rfl)).trans ?_
    cases arguments with
    | nil =>
      rw [argumentNames]
      simp [Collections.Tree.value_node]
      rfl
    | cons ty tys =>
      simp [Collections.Tree.value_node]
      rfl

end Names

/-- The parse of every name ends. It has no answer for an empty name and for one that opens too many arguments, and answers
what the descent finds for any other, unless an array has a rank of more than 32 bits, which takes a name of as many
characters. The loops that copy a type, compare two and render its name do what the recursion over the type does. -/
theorem typeNames_parsed (chars : List Char) :
    (chars = [] → ∀ r, Parses chars r ↔ r = .ok none) ∧
    (chars ≠ [] → Fits (descend chars true 0).value → ∀ r, Parses chars r ↔
      r = .ok (if (descend chars true 0).opened ≤ maxArguments then some (descend chars true 0).value else none)) ∧
    (chars ≠ [] → ¬ Fits (descend chars true 0).value → (descend chars true 0).opened ≤ maxArguments →
      ∀ r, Parses chars r ↔ r = .error .overflow) ∧
    (chars.length < 0x100000000 → Fits (descend chars true 0).value) ∧
    (∀ ty : ParsedType, Answers Collections.Tree.copyStep ((ty, ty.bare), []) ty) ∧
    (∀ a b : ParsedType, ∃ r, Answers Collections.Tree.sameStep [(a, b)] r ∧ (r = true ↔ a = b)) ∧
    ∀ ty : ParsedType, Answers (Collections.Tree.visitStep nameVisit) ([.opening ty], []) (.ok (cecilFullName ty)) := by
  refine ⟨fun empty r => ?_, fun some' fits => parses_of_fits some' fits, fun some' large few =>
    parses_of_not_fits some' large few, fun short => fits_descend short true 0, Collections.Tree.answers_copy, Collections.Tree.answers_same, fun ty => ?_⟩
  · rw [Parses, if_pos empty]
  · have visited := Collections.Tree.answers_visits nameVisit ty []
    rwa [foldlM_visits] at visited

section Commas

/-- A bracket with so many commas behind it. -/
def commas (n : ℕ) : List Char := '[' :: List.replicate n ','

theorem specAt_commas (n : ℕ) : ∃ next, specAt (commas n) 0 = some (.array (1 + n), next) := by
  have step : specAt (commas n) 0 = some (.array (1 + (skip (commas n) (· = ',') 1 - 1)),
      (tryParse (commas n) ']' (skip (commas n) (· = ',') 1)).2) := by
    cases n with
    | zero => rfl
    | succ n => rfl
  have behind : skip (commas n) (· = ',') 1 = 1 + n := by
    change 1 + ((List.replicate n ',').takeWhile (· = ',')).length = 1 + n
    rw [List.takeWhile_replicate, if_pos (by decide), List.length_replicate]
  rw [step, behind, Nat.add_sub_cancel_left]
  exact ⟨_, rfl⟩

theorem readName_commas (n : ℕ) : readName (commas n) 0 = ({ fullname := [], nestedNames := [], arity := 0 }, 0) := by
  have part : parsePart (commas n) 0 = ([], 0) := by
    rw [parsePart]
    split
    · rfl
    · rename_i c found
      obtain rfl : '[' = c := Option.some.inj found
      exact if_pos (by decide)
  have nested : parseNested (commas n) 0 = ([], 0) := by
    rw [parseNested]
    exact dif_neg (by simp [commas])
  rw [readName, part, nested]
  rfl

/-- A name of a bracket and commas overflows the rank. -/
theorem commas_overflow : Parses (commas 0xffffffff) (.error .overflow) ∧ ¬ ∃ ty, Parses (commas 0xffffffff) (.ok ty) := by
  generalize count : 0xffffffff = n
  have plain : ¬ ((readName (commas n) 0).1.arity > 0 ∧ (commas n)[(readName (commas n) 0).2]? = some '[') := by
    rw [readName_commas]
    exact fun opens => absurd opens.1 (by decide)
  obtain ⟨value, total, -⟩ := @descend_of_plain (commas n) true 0 plain
  have large : ¬ Fits (descend (commas n) true 0).value := by
    rw [value, fits_readBehind, readName_commas]
    obtain ⟨next, found⟩ := specAt_commas n
    rintro ⟨all, -⟩
    rw [readSpecs] at all
    split at all
    · rename_i nothing
      rw [found] at nothing
      exact nomatch nothing
    · rename_i spec next' same
      obtain ⟨rfl, -⟩ := Prod.mk.inj (Option.some.inj (found.symm.trans same))
      have rank : 1 + n < 0x100000000 := (List.forall_mem_cons.mp all).1
      omega
  have few : ((descend (commas n) true 0).opened : Int) ≤ maxArguments := by
    rw [total]
    decide
  have some' : commas n ≠ [] := List.cons_ne_nil _ _
  have answer := parses_of_not_fits some' large few
  exact ⟨(answer _).mpr rfl, fun ⟨ty, other⟩ => nomatch (answer _).mp other⟩

end Commas

end Ctadl.Cil
