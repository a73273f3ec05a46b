import Ctadl.Pcode.ConstantPropagation

/-! # Executions of Pcode and what propagated constants say of them

A state gives varnodes their 64-bit values, and an operation writes its outputs. A MULTIEQUAL or INDIRECT takes the value of
one of its inputs, and an operation outside the analysis writes anything. The rows are right wherever the analysis follows the
values it has rows for: a varnode it has no row for counts as unreachable, so a choice of such a varnode goes unnoticed.
-/

namespace Ctadl.Pcode

open Datalog

/-- The values of the varnodes written so far. -/
abbrev Env := PcodeVarnode → Option Int64

/-- Where the function starts. A stack varnode stands for its address, and the stack pointer is presumed to be the top of the
stack. -/
structure Entry (facts : PcodeFacts) (env : Env) : Prop where
  stackTop : (env stackTopVn).isSome
  const : ∀ {v data c}, (v, data) ∈ facts.vnodeFacts → data.space = some "const" → data.constant? = some c → env v = some c
  stack : ∀ {v data c}, (v, data) ∈ facts.vnodeFacts → data.space = some "stack" → data.constant? = some c →
    ∃ top, env stackTopVn = some top ∧ env v = some (top + c)
  stackPointer : ∀ {v data addr}, (v, data) ∈ facts.vnodeFacts → data.space = some "register" → data.address = some addr →
    addr ∈ facts.spOffsets → v ∉ facts.definedVars → env v = env stackTopVn
  unwritten : ∀ {v data}, (v, data) ∈ facts.vnodeFacts → v ∉ facts.definedVars → (env v).isSome
  written : ∀ {v}, v ∈ facts.definedVars → v ≠ stackTopVn →
    (∀ data, (v, data) ∈ facts.vnodeFacts → data.space = some "const" ∨ data.space = some "stack" → data.constant? = none) →
    env v = none

/-- The operations the analysis has a rule for. -/
def Modelled (pcode : PcodeData) : Prop :=
  (pcode.mnemonic ∈ copyMnemonics ∨ pcode.mnemonic ∈ choiceMnemonics) ∧ 1 ≤ pcode.inputs.length ∨
    pcode.mnemonic ∈ ["INT_ADD", "INT_SUB", "PTRSUB"] ∧ 2 ≤ pcode.inputs.length ∨
    pcode.mnemonic = "PTRADD" ∧ 3 ≤ pcode.inputs.length

instance : DecidablePred Modelled := fun _ => inferInstanceAs (Decidable (_ ∨ _))

/-- What an operation may write to its first output, and the varnodes the value comes from. -/
inductive Produces (env : Env) (pcode : PcodeData) : List PcodeVarnode → Int64 → Prop
  | copy {input : PcodeVarnode} {rest : List PcodeVarnode} {x : Int64} : pcode.mnemonic ∈ copyMnemonics →
      pcode.inputs = input :: rest → env input = some x → Produces env pcode [input] x
  | choice {input : PcodeVarnode} {x : Int64} : pcode.mnemonic ∈ choiceMnemonics → input ∈ pcode.inputs →
      env input = some x → Produces env pcode [input] x
  | add {in1 in2 : PcodeVarnode} {rest : List PcodeVarnode} {x y : Int64} : pcode.mnemonic = "INT_ADD" →
      pcode.inputs = in1 :: in2 :: rest → env in1 = some x → env in2 = some y → Produces env pcode [in1, in2] (x + y)
  | sub {in1 in2 : PcodeVarnode} {rest : List PcodeVarnode} {x y : Int64} : pcode.mnemonic = "INT_SUB" →
      pcode.inputs = in1 :: in2 :: rest → env in1 = some x → env in2 = some y → Produces env pcode [in1, in2] (x - y)
  | ptradd {base index size : PcodeVarnode} {rest : List PcodeVarnode} {x y z : Int64} : pcode.mnemonic = "PTRADD" →
      pcode.inputs = base :: index :: size :: rest → env base = some x → env index = some y → env size = some z →
      Produces env pcode [base, index] (x + y * z)
  | ptrsub {base offset : PcodeVarnode} {rest : List PcodeVarnode} {x y : Int64} : pcode.mnemonic = "PTRSUB" →
      pcode.inputs = base :: offset :: rest → env base = some x → env offset = some y →
      Produces env pcode [base, offset] (x + y)
  | free {x : Int64} : ¬ Modelled pcode → Produces env pcode [] x

/-- One execution of one operation, in any order the values are there for. -/
structure Step (facts : PcodeFacts) (env next : Env) (pcode : PcodeData) (reads : List PcodeVarnode) : Prop where
  op : pcode ∈ facts.pcodeFacts
  writes : ∃ out others x, pcode.outputs = out :: others ∧ Produces env pcode reads x ∧ next out = some x ∧
    ∀ other ∈ others, (next other).isSome
  frame : ∀ v ∉ pcode.outputs, next v = env v

/-- The varnodes whose values the analysis follows: what starts with a value, and what an operation with a rule makes of
such varnodes. -/
inductive Tracked (facts : PcodeFacts) : PcodeVarnode → Prop
  | stackTop : Tracked facts stackTopVn
  | start {v : PcodeVarnode} {data : VnodeData} : (v, data) ∈ facts.vnodeFacts → (startingValue facts v data).isSome →
      Tracked facts v
  | copy {pcode : PcodeData} {out input : PcodeVarnode} : pcode ∈ facts.pcodeFacts → pcode.outputs.head? = some out →
      pcode.mnemonic ∈ copyMnemonics ∨ pcode.mnemonic ∈ choiceMnemonics → input ∈ pcode.inputs → Tracked facts input →
      Tracked facts out
  | binary {pcode : PcodeData} {out in1 in2 : PcodeVarnode} {rest : List PcodeVarnode} : pcode ∈ facts.pcodeFacts →
      pcode.outputs.head? = some out → pcode.mnemonic ∈ ["INT_ADD", "INT_SUB", "PTRSUB"] →
      pcode.inputs = in1 :: in2 :: rest → Tracked facts in1 → Tracked facts in2 → Tracked facts out
  | ptradd {pcode : PcodeData} {out base index size : PcodeVarnode} {rest : List PcodeVarnode} {addr : Int64} :
      pcode ∈ facts.pcodeFacts → pcode.outputs.head? = some out → pcode.mnemonic = "PTRADD" →
      pcode.inputs = base :: index :: size :: rest → (facts.vnodeFacts.lookup size).bind VnodeData.address = some addr →
      Tracked facts base → Tracked facts index → Tracked facts out

/-- The step follows tracked values only: it leaves the stack top alone, and what it writes to a tracked varnode an operation
with a rule makes of tracked ones. A PTRADD multiplies by the address of its size, as a constant's value is its address. -/
structure Followed (facts : PcodeFacts) (env : Env) (pcode : PcodeData) (reads : List PcodeVarnode) : Prop where
  stackTop : stackTopVn ∉ pcode.outputs
  others : ∀ other ∈ pcode.outputs.tail, ¬ Tracked facts other
  modelled : ∀ out, pcode.outputs.head? = some out → Tracked facts out → Modelled pcode ∧ ∀ read ∈ reads, Tracked facts read
  size : ∀ out, pcode.outputs.head? = some out → Tracked facts out → pcode.mnemonic = "PTRADD" →
    ∀ size, pcode.inputs[2]? = some size → ∃ addr, (facts.vnodeFacts.lookup size).bind VnodeData.address = some addr ∧
      env size = some addr

/-- Executions, of any operations in any order. -/
abbrev Execution (facts : PcodeFacts) : Env → Env → Prop :=
  Relation.ReflTransGen fun env next => ∃ pcode reads, Step facts env next pcode reads

/-- Executions all of whose steps follow tracked values. -/
abbrev FollowedExecution (facts : PcodeFacts) : Env → Env → Prop :=
  Relation.ReflTransGen fun env next => ∃ pcode reads, Step facts env next pcode reads ∧ Followed facts env pcode reads

/-- Each varnode is the output of at most one operation. -/
def Ssa (facts : PcodeFacts) : Prop := facts.definedVars.Nodup

instance : DecidablePred Ssa := fun facts => inferInstanceAs (Decidable facts.definedVars.Nodup)

/-- The rows are right in a state. -/
def RowsRight (facts : PcodeFacts) (env : Env) : Prop :=
  ∀ v x, env v = some x →
    (∀ y c, computeConstantPropagation facts v = SymbolicProp.value (some y) c → ∃ b, env y = some b ∧ x = b + c) ∧
      ∀ c, computeConstantPropagation facts v = SymbolicProp.value none c → x = c

/-- What a row's value says of a number, with the bases as they are at entry. -/
def Means (entry : Env) (x : Int64) : SymbolicProp → Prop
  | .bottom => False
  | .value none c => x = c
  | .value (some y) c => ∃ b, entry y = some b ∧ x = b + c
  | .top => True

section Meaning

variable {entry : Env} {x y : Int64} {p q : SymbolicProp}

theorem Means.mono (means : Means entry x p) (below : p ≤ q) : Means entry x q := by
  rcases SymbolicProp.le_cases below with rfl | rfl | rfl
  · exact means.elim
  · exact means
  · trivial

theorem Means.add (first : Means entry x p) (second : Means entry y q) : Means entry (x + y) (p.add q) := by
  match p, q, first, second with
  | .top, _, _, _ => trivial
  | .value _ _, .top, _, _ => trivial
  | .value none c, .value none d, first, second =>
    subst first second
    rfl
  | .value none c, .value (some v) d, first, second =>
    obtain ⟨b, here, rfl⟩ := second
    subst first
    exact ⟨b, here, by grind⟩
  | .value (some v) c, .value none d, first, second =>
    obtain ⟨b, here, rfl⟩ := first
    subst second
    exact ⟨b, here, by grind⟩
  | .value (some v) c, .value (some w) d, _, _ => trivial

theorem Means.sub (first : Means entry x p) (second : Means entry y q) : Means entry (x - y) (p.sub q) := by
  match p, q, first, second with
  | .top, _, _, _ => trivial
  | .value _ _, .top, _, _ => trivial
  | .value none c, .value none d, first, second =>
    subst first second
    rfl
  | .value none c, .value (some v) d, first, second => trivial
  | .value (some v) c, .value none d, first, second =>
    obtain ⟨b, here, rfl⟩ := first
    subst second
    exact ⟨b, here, by grind⟩
  | .value (some v) c, .value (some w) d, first, second =>
    obtain ⟨b, here, rfl⟩ := first
    obtain ⟨b', there, rfl⟩ := second
    rw [SymbolicProp.sub, if_neg (by simp)]
    split_ifs with same
    · obtain rfl := Option.some.inj same
      obtain rfl := Option.some.inj (here.symm.trans there)
      change b + c - (b + d) = c - d
      grind
    · trivial

theorem Means.ptradd {size : Int64} (first : Means entry x p) (second : Means entry y q) :
    Means entry (x + y * size) (p.ptradd q size) := by
  match p, q, first, second with
  | .top, _, _, _ => trivial
  | .value _ _, .top, _, _ => trivial
  | .value none c, .value none d, first, second =>
    subst first second
    rfl
  | .value (some v) c, .value none d, first, second =>
    obtain ⟨b, here, rfl⟩ := first
    subst second
    exact ⟨b, here, by grind⟩
  | .value none c, .value (some v) d, _, _ => trivial
  | .value (some v) c, .value (some w) d, _, _ => trivial

/-- The row's value says so of the number, where there is a row. -/
def Holds (entry : Env) (x : Int64) (row : WithBot SymbolicProp) : Prop := ∃ p : SymbolicProp, row = p ∧ Means entry x p

theorem Holds.mono {row row' : WithBot SymbolicProp} (holds : Holds entry x row) (below : row ≤ row') :
    Holds entry x row' := by
  obtain ⟨p, rfl, means⟩ := holds
  obtain ⟨q, rfl, le⟩ := WithBot.coe_le_iff.mp below
  exact ⟨q, rfl, means.mono le⟩

theorem Holds.map₂ {f : SymbolicProp → SymbolicProp → SymbolicProp} {g : Int64 → Int64 → Int64} {row row' : WithBot SymbolicProp}
    (sound : ∀ {p q}, Means entry x p → Means entry y q → Means entry (g x y) (f p q)) (first : Holds entry x row)
    (second : Holds entry y row') : Holds entry (g x y) (WithBot.map₂ f row row') := by
  obtain ⟨p, rfl, means⟩ := first
  obtain ⟨q, rfl, means'⟩ := second
  exact ⟨f p q, rfl, sound means means'⟩

end Meaning

section Rows

variable {facts : PcodeFacts} {v y : PcodeVarnode} {c : Int64} {p : SymbolicProp}

theorem mem_initialValue (initial : (v, p) ∈ initialValue facts) :
    (v = stackTopVn ∧ p = .value (some stackTopVn) 0) ∨
      ∃ data, (v, data) ∈ facts.vnodeFacts ∧ startingValue facts v data = some p := by
  rcases List.mem_cons.mp initial with same | member
  · exact .inl (Prod.mk.inj same)
  · obtain ⟨⟨v', data⟩, inside, starts⟩ := List.mem_filterMap.mp member
    obtain ⟨p', value, same⟩ := Option.map_eq_some_iff.mp starts
    obtain ⟨rfl, rfl⟩ := Prod.mk.inj same
    exact .inr ⟨data, inside, value⟩

/-- The rows of an operation, by its mnemonic. -/
inductive RowOf (facts : PcodeFacts) (pcode : PcodeData) : OpRow → Prop
  | copyOp {out input : PcodeVarnode} : pcode.outputs.head? = some out →
      pcode.mnemonic ∈ copyMnemonics ∨ pcode.mnemonic ∈ choiceMnemonics → input ∈ pcode.inputs →
      RowOf facts pcode (.copyOp out input)
  | addOp {out in1 in2 : PcodeVarnode} {rest : List PcodeVarnode} : pcode.outputs.head? = some out →
      pcode.mnemonic = "INT_ADD" → pcode.inputs = in1 :: in2 :: rest → RowOf facts pcode (.addOp out in1 in2)
  | subOp {out in1 in2 : PcodeVarnode} {rest : List PcodeVarnode} : pcode.outputs.head? = some out →
      pcode.mnemonic = "INT_SUB" → pcode.inputs = in1 :: in2 :: rest → RowOf facts pcode (.subOp out in1 in2)
  | ptraddOp {out base index size : PcodeVarnode} {rest : List PcodeVarnode} {addr : Int64} :
      pcode.outputs.head? = some out → pcode.mnemonic = "PTRADD" → pcode.inputs = base :: index :: size :: rest →
      (facts.vnodeFacts.lookup size).bind VnodeData.address = some addr → RowOf facts pcode (.ptraddOp out base index addr)
  | ptrsubOp {out base offset : PcodeVarnode} {rest : List PcodeVarnode} : pcode.outputs.head? = some out →
      pcode.mnemonic = "PTRSUB" → pcode.inputs = base :: offset :: rest → RowOf facts pcode (.ptrsubOp out base offset)

theorem mem_opRows {pcode : PcodeData} {row : OpRow} : row ∈ opRows facts pcode ↔ RowOf facts pcode row := by
  constructor
  · intro member
    unfold opRows at member
    split at member
    · exact nomatch member
    rename_i out others outputs
    have first : pcode.outputs.head? = some out := by rw [outputs, List.head?_cons]
    split_ifs at member with copies add sub ptradd ptrsub
    · obtain ⟨input, here, rfl⟩ := List.mem_map.mp member
      exact .copyOp first copies here
    · split at member
      · obtain rfl := List.mem_singleton.mp member
        exact .addOp first add ‹_›
      · exact nomatch member
    · split at member
      · obtain rfl := List.mem_singleton.mp member
        exact .subOp first sub ‹_›
      · exact nomatch member
    · split at member
      · split at member
        · obtain rfl := List.mem_singleton.mp member
          exact .ptraddOp first ptradd ‹_› ‹_›
        · exact nomatch member
      · exact nomatch member
    · split at member
      · obtain rfl := List.mem_singleton.mp member
        exact .ptrsubOp first ptrsub ‹_›
      · exact nomatch member
    · exact nomatch member
  · intro shape
    have outputs {out : PcodeVarnode} (first : pcode.outputs.head? = some out) : ∃ others, pcode.outputs = out :: others := by
      obtain ⟨others, same⟩ := List.head?_eq_some_iff.mp first
      exact ⟨others, same⟩
    cases shape with
    | copyOp first copies here =>
      obtain ⟨others, same⟩ := outputs first
      rw [opRows, same]
      simp only [if_pos copies]
      exact List.mem_map_of_mem here
    | addOp first add inputs =>
      obtain ⟨others, same⟩ := outputs first
      rw [opRows, same, add, inputs]
      simp [copyMnemonics, choiceMnemonics]
    | subOp first sub inputs =>
      obtain ⟨others, same⟩ := outputs first
      rw [opRows, same, sub, inputs]
      simp [copyMnemonics, choiceMnemonics]
    | ptraddOp first ptradd inputs known =>
      obtain ⟨others, same⟩ := outputs first
      rw [opRows, same, ptradd, inputs]
      simp [copyMnemonics, choiceMnemonics, known]
    | ptrsubOp first ptrsub inputs =>
      obtain ⟨others, same⟩ := outputs first
      rw [opRows, same, ptrsub, inputs]
      simp [copyMnemonics, choiceMnemonics]

/-- The bases rows can name: the stack top and what the function does not write. -/
def IsBase (facts : PcodeFacts) (y : PcodeVarnode) : Prop := y = stackTopVn ∨ y ∉ facts.definedVars

/-- A value names no base that the function writes. -/
def OverBases (facts : PcodeFacts) (p : SymbolicProp) : Prop := ∀ y c, p = .value (some y) c → IsBase facts y

theorem OverBases.join {p q : SymbolicProp} (first : OverBases facts p) (second : OverBases facts q) :
    OverBases facts (p ⊔ q) := by
  change OverBases facts (p.join q)
  cases p <;> cases q <;> grind [SymbolicProp.join, OverBases]

theorem OverBases.add {p q : SymbolicProp} (first : OverBases facts p) (second : OverBases facts q) :
    OverBases facts (p.add q) := by
  cases p <;> cases q <;> grind [SymbolicProp.add, OverBases]

theorem OverBases.sub {p q : SymbolicProp} (first : OverBases facts p) (second : OverBases facts q) :
    OverBases facts (p.sub q) := by
  cases p <;> cases q <;> grind [SymbolicProp.sub, OverBases]

theorem OverBases.ptradd {p q : SymbolicProp} {size : Int64} (first : OverBases facts p) (second : OverBases facts q) :
    OverBases facts (p.ptradd q size) := by
  cases p <;> cases q <;> grind [SymbolicProp.ptradd, OverBases]

/-- What the value a varnode starts with names. -/
theorem overBases_initial (initial : (v, p) ∈ initialValue facts) : OverBases facts p := by
  have shape : (∃ c, p = .value none c) ∨ ∃ y c, p = .value (some y) c ∧ IsBase facts y := by
    rcases mem_initialValue initial with ⟨-, rfl⟩ | ⟨data, -, starts⟩
    · exact .inr ⟨_, _, rfl, .inl rfl⟩
    · unfold startingValue at starts
      split_ifs at starts with const stack written stackPointer
      · obtain ⟨c, -, rfl⟩ := Option.map_eq_some_iff.mp starts
        exact .inl ⟨c, rfl⟩
      · obtain ⟨c, -, rfl⟩ := Option.map_eq_some_iff.mp starts
        exact .inr ⟨_, _, rfl, .inl rfl⟩
      · obtain rfl := Option.some.inj starts
        exact .inr ⟨_, _, rfl, .inl rfl⟩
      · obtain rfl := Option.some.inj starts
        exact .inr ⟨_, _, rfl, .inr written⟩
  intro y c same
  rcases shape with ⟨d, rfl⟩ | ⟨z, d, rfl, base⟩
  · exact nomatch same
  · injection same with named
    exact Option.some.inj named ▸ base

/-- What holds of a store's rows holds of what a rule makes of them. -/
theorem OpRow.of_derive {P : SymbolicProp → Prop} {rows : Store PcodeVarnode SymbolicProp} {row : OpRow}
    (add : ∀ {p q}, P p → P q → P (p.add q)) (sub : ∀ {p q}, P p → P q → P (p.sub q))
    (ptradd : ∀ {p q size}, P p → P q → P (p.ptradd q size)) (known : ∀ v p, rows v = (p : SymbolicProp) → P p)
    (derived : row.derive rows = p) : P p := by
  have both {f : SymbolicProp → SymbolicProp → SymbolicProp} {a b : PcodeVarnode} (close : ∀ {p q}, P p → P q → P (f p q))
      (derived : WithBot.map₂ f (rows a) (rows b) = p) : P p := by
    cases first : rows a with
    | bot => simp [first] at derived
    | coe q =>
      cases second : rows b with
      | bot => simp [second] at derived
      | coe r =>
        rw [first, second, WithBot.map₂_coe_coe, WithBot.coe_inj] at derived
        exact derived ▸ close (known a q first) (known b r second)
  cases row with
  | copyOp out inp => exact known inp p derived
  | addOp out in1 in2 => exact both add derived
  | subOp out in1 in2 => exact both sub derived
  | ptraddOp out base index size => exact both ptradd derived
  | ptrsubOp out base offset => exact both add derived

theorem overBases_rows (row : computeConstantPropagation facts v = p) : OverBases facts p := by
  have all : ∀ v p, computeConstantPropagation facts v = (p : SymbolicProp) → OverBases facts p := by
    apply (constantPropagationProgram facts).model_run.preserves
      (I := fun rows => ∀ v p, rows v = (p : SymbolicProp) → OverBases facts p)
    · intro v p nothing
      exact nomatch nothing
    · intro rows out q known fires v p held
      have based : OverBases facts q := by
        rcases mem_fire.mp fires with initial | ⟨pcode, op, row, member, rfl, derived⟩
        · exact overBases_initial initial
        · exact OpRow.of_derive OverBases.add OverBases.sub OverBases.ptradd known derived
      rcases Store.held_insert held with old | ⟨rfl, rfl | ⟨old, before, rfl⟩⟩
      · exact known v p old
      · exact based
      · exact (known _ old before).join based
  exact all v p row

theorem tracked_of_row (row : computeConstantPropagation facts v = p) : Tracked facts v := by
  have all : ∀ v, Present (computeConstantPropagation facts) v → Tracked facts v := by
    apply (constantPropagationProgram facts).model_run.preserves (I := fun rows => ∀ v, Present rows v → Tracked facts v)
    · intro v present
      exact absurd rfl present
    · intro rows out q known fires v present
      rcases Store.present_insert.mp present with rfl | old
      · rcases mem_fire.mp fires with initial | ⟨pcode, op, row, member, rfl, derived⟩
        · rcases mem_initialValue initial with ⟨rfl, -⟩ | ⟨data, here, starts⟩
          · exact .stackTop
          · exact .start here (Option.isSome_of_mem starts)
        · have premises {f : SymbolicProp → SymbolicProp → SymbolicProp} {a b : PcodeVarnode}
              (derived : WithBot.map₂ f (rows a) (rows b) = (q : SymbolicProp)) : Tracked facts a ∧ Tracked facts b := by
            have both : ¬ (rows a = ⊥ ∨ rows b = ⊥) := by
              rw [← WithBot.map₂_eq_bot_iff (f := f), derived]
              exact WithBot.coe_ne_bot
            exact ⟨known a fun absent => both (.inl absent), known b fun absent => both (.inr absent)⟩
          cases mem_opRows.mp member with
          | @copyOp out input first copies here => exact .copy op first copies here (known input (Held.present derived))
          | addOp first add inputs => exact .binary op first (by simp [add]) inputs (premises derived).1 (premises derived).2
          | subOp first sub inputs => exact .binary op first (by simp [sub]) inputs (premises derived).1 (premises derived).2
          | ptraddOp first ptradd inputs size => exact .ptradd op first ptradd inputs size (premises derived).1 (premises derived).2
          | ptrsubOp first ptrsub inputs =>
            exact .binary op first (by simp [ptrsub]) inputs (premises derived).1 (premises derived).2
      · exact known v old
  exact all v (Held.present row)

end Rows

section Soundness

variable {facts : PcodeFacts} {entry env next : Env} {pcode : PcodeData} {reads : List PcodeVarnode} {v : PcodeVarnode} {x : Int64}

/-- The row of every tracked varnode with a value is right. -/
def TrackedRight (facts : PcodeFacts) (entry env : Env) : Prop :=
  ∀ v x, env v = some x → Tracked facts v → Holds entry x (computeConstantPropagation facts v)

/-- Starting values are right where the function starts. -/
theorem Entry.starting {p : SymbolicProp} (start : Entry facts entry) (here : entry v = some x) (initial : (v, p) ∈ initialValue facts) :
    Means entry x p := by
  rcases mem_initialValue initial with ⟨rfl, rfl⟩ | ⟨data, inside, starts⟩
  · exact ⟨x, here, by grind⟩
  · unfold startingValue at starts
    split_ifs at starts with const stack written stackPointer
    · obtain ⟨c, known, rfl⟩ := Option.map_eq_some_iff.mp starts
      exact Option.some.inj (here.symm.trans (start.const inside const known))
    · obtain ⟨c, known, rfl⟩ := Option.map_eq_some_iff.mp starts
      obtain ⟨top, base, value⟩ := start.stack inside stack known
      exact ⟨top, base, Option.some.inj (here.symm.trans value)⟩
    · obtain rfl := Option.some.inj starts
      obtain ⟨register, addr, known, offset⟩ := stackPointer
      have same := start.stackPointer inside register known offset written
      exact ⟨x, same.symm.trans here, by grind⟩
    · obtain rfl := Option.some.inj starts
      exact ⟨x, here, by grind⟩

theorem Entry.trackedRight (start : Entry facts entry) : TrackedRight facts entry entry := by
  intro v x here tracked
  by_cases initial : ∃ p, (v, p) ∈ initialValue facts
  · obtain ⟨p, initial⟩ := initial
    exact Holds.mono ⟨p, rfl, start.starting here initial⟩ (starting_le initial)
  · exfalso
    have notTop : v ≠ stackTopVn := by
      rintro rfl
      exact initial ⟨_, List.mem_cons_self⟩
    have noStart {data : VnodeData} (inside : (v, data) ∈ facts.vnodeFacts) : startingValue facts v data = none := by
      cases starts : startingValue facts v data with
      | none => rfl
      | some p =>
        refine absurd ⟨p, List.mem_cons_of_mem _ (List.mem_filterMap.mpr ⟨(v, data), inside, ?_⟩)⟩ initial
        simp only [starts, Option.map_some]
    have written : v ∈ facts.definedVars := by
      have output {pcode : PcodeData} (op : pcode ∈ facts.pcodeFacts) (first : pcode.outputs.head? = some v) :
          v ∈ facts.definedVars := List.mem_flatMap.mpr ⟨pcode, op, List.mem_of_head? first⟩
      cases tracked with
      | stackTop => exact absurd rfl notTop
      | start inside starts =>
        rw [noStart inside] at starts
        exact nomatch starts
      | copy op first => exact output op first
      | binary op first => exact output op first
      | ptradd op first => exact output op first
    have unset := start.written written notTop fun data inside space => by
      have none := noStart inside
      unfold startingValue at none
      split_ifs at none with const stack
      · exact Option.map_eq_none_iff.mp none
      · exact Option.map_eq_none_iff.mp none
      · exact absurd space (not_or.mpr ⟨const, stack⟩)
    exact nomatch unset.symm.trans here

/-- What a followed operation writes to a tracked varnode is what its row says. -/
theorem Produces.holds {out : PcodeVarnode} (produces : Produces env pcode reads x) (right : TrackedRight facts entry env)
    (op : pcode ∈ facts.pcodeFacts) (first : pcode.outputs.head? = some out) (tracked : Tracked facts out)
    (followed : Followed facts env pcode reads) : Holds entry x (computeConstantPropagation facts out) := by
  obtain ⟨modelled, allTracked⟩ := followed.modelled out first tracked
  cases produces with
  | @copy input rest x copies inputs value =>
    have row : OpRow.copyOp out input ∈ opRows facts pcode := mem_opRows.mpr (.copyOp first (.inl copies) (by simp [inputs]))
    exact (right input x value (allTracked input (by simp))).mono (derived_le op row)
  | @choice input x choices here value =>
    have row : OpRow.copyOp out input ∈ opRows facts pcode := mem_opRows.mpr (.copyOp first (.inr choices) here)
    exact (right input x value (allTracked input (by simp))).mono (derived_le op row)
  | @add in1 in2 rest x y add inputs value1 value2 =>
    have row : OpRow.addOp out in1 in2 ∈ opRows facts pcode := mem_opRows.mpr (.addOp first add inputs)
    have holds1 := right in1 x value1 (allTracked in1 (by simp))
    have holds2 := right in2 y value2 (allTracked in2 (by simp))
    exact (holds1.map₂ Means.add holds2).mono (derived_le op row)
  | @sub in1 in2 rest x y sub inputs value1 value2 =>
    have row : OpRow.subOp out in1 in2 ∈ opRows facts pcode := mem_opRows.mpr (.subOp first sub inputs)
    have holds1 := right in1 x value1 (allTracked in1 (by simp))
    have holds2 := right in2 y value2 (allTracked in2 (by simp))
    exact (holds1.map₂ Means.sub holds2).mono (derived_le op row)
  | @ptradd base index size rest x y z ptradd inputs value1 value2 value3 =>
    obtain ⟨addr, known, value⟩ := followed.size out first tracked ptradd size (by simp [inputs])
    obtain rfl := Option.some.inj (value3.symm.trans value)
    have row : OpRow.ptraddOp out base index z ∈ opRows facts pcode := mem_opRows.mpr (.ptraddOp first ptradd inputs known)
    have holds1 := right base x value1 (allTracked base (by simp))
    have holds2 := right index y value2 (allTracked index (by simp))
    exact (holds1.map₂ (g := fun x y => x + y * z) Means.ptradd holds2).mono (derived_le op row)
  | @ptrsub base offset rest x y ptrsub inputs value1 value2 =>
    have row : OpRow.ptrsubOp out base offset ∈ opRows facts pcode := mem_opRows.mpr (.ptrsubOp first ptrsub inputs)
    have holds1 := right base x value1 (allTracked base (by simp))
    have holds2 := right offset y value2 (allTracked offset (by simp))
    exact (holds1.map₂ Means.add holds2).mono (derived_le op row)
  | free unmodelled => exact absurd modelled unmodelled

/-- A followed step keeps the rows of tracked varnodes right. -/
theorem Step.trackedRight (step : Step facts env next pcode reads) (followed : Followed facts env pcode reads)
    (right : TrackedRight facts entry env) : TrackedRight facts entry next := by
  intro v x here tracked
  obtain ⟨out, others, y, outputs, produces, written, -⟩ := step.writes
  by_cases inside : v ∈ pcode.outputs
  · rw [outputs] at inside
    rcases List.mem_cons.mp inside with rfl | other
    · obtain rfl := Option.some.inj (here.symm.trans written)
      exact produces.holds right step.op (by rw [outputs, List.head?_cons]) tracked followed
    · exact absurd tracked (followed.others v (by rw [outputs]; exact other))
  · exact right v x ((step.frame v inside).symm.trans here) tracked

/-- A followed step leaves every base alone. -/
theorem Step.base (step : Step facts env next pcode reads) (followed : Followed facts env pcode reads) (base : IsBase facts v) :
    next v = env v := by
  apply step.frame
  intro inside
  rcases base with rfl | unwritten
  · exact followed.stackTop inside
  · exact unwritten (List.mem_flatMap.mpr ⟨pcode, step.op, inside⟩)

theorem FollowedExecution.keeps (start : Entry facts entry) (run : FollowedExecution facts entry env) :
    TrackedRight facts entry env ∧ ∀ v, IsBase facts v → env v = entry v := by
  induction run with
  | refl => exact ⟨start.trackedRight, fun _ _ => rfl⟩
  | tail _ last ih =>
    obtain ⟨pcode, reads, step, followed⟩ := last
    obtain ⟨right, bases⟩ := ih
    exact ⟨step.trackedRight followed right, fun v base => (step.base followed base).trans (bases v base)⟩

/-- In every state an execution reaches that follows tracked values, the rows are right. -/
theorem FollowedExecution.rowsRight (start : Entry facts entry) (run : FollowedExecution facts entry env) :
    RowsRight facts env := by
  obtain ⟨right, bases⟩ := run.keeps start
  intro v x here
  constructor
  · intro y c row
    obtain ⟨p, row', means⟩ := right v x here (tracked_of_row row)
    obtain rfl := WithBot.coe_injective (row.symm.trans row')
    obtain ⟨b, value, same⟩ := means
    exact ⟨b, (bases y (overBases_rows row y c rfl)).trans value, same⟩
  · intro c row
    obtain ⟨p, row', means⟩ := right v x here (tracked_of_row row)
    obtain rfl := WithBot.coe_injective (row.symm.trans row')
    exact means

end Soundness

/-- A constant and the value of a load meet in a MULTIEQUAL. -/
def loadOrFive : PcodeFacts where
  registerFacts := []
  vnodeFacts := [("a", { space := some "register" }), ("c5", { space := some "const", address := some 5 }),
    ("v", { space := some "unique" }), ("x", { space := some "unique" })]
  pcodeFacts := [⟨"LOAD", ["a"], ["x"]⟩, ⟨"MULTIEQUAL", ["c5", "x"], ["v"]⟩]
  unique := by decide

def loadOrFiveEntry : Env := fun v => if v = "a" ∨ v = stackTopVn then some 0 else if v = "c5" then some 5 else none

theorem loadOrFive_entry : Entry loadOrFive loadOrFiveEntry := by
  have cases {v : PcodeVarnode} {data : VnodeData} (inside : (v, data) ∈ loadOrFive.vnodeFacts) :
      data.space ≠ some "stack" ∧ data.constant? = data.address ∧
        (v = "a" ∧ data.address = none ∨ v = "c5" ∧ data.address = some 5 ∨ v ∈ ["x", "v"] ∧ data.address = none) := by
    simp only [loadOrFive, List.mem_cons, Prod.mk.injEq, List.not_mem_nil, or_false] at inside
    rcases inside with ⟨rfl, rfl⟩ | ⟨rfl, rfl⟩ | ⟨rfl, rfl⟩ | ⟨rfl, rfl⟩ <;> decide
  refine ⟨rfl, ?_, ?_, ?_, ?_, ?_⟩
  · intro v data c inside _ constant
    obtain ⟨-, same, ⟨rfl, address⟩ | ⟨rfl, address⟩ | ⟨written, address⟩⟩ := cases inside
    · exact nomatch (constant.symm.trans same).trans address
    · exact ((constant.symm.trans same).trans address) ▸ rfl
    · exact nomatch (constant.symm.trans same).trans address
  · intro v data c inside space
    exact absurd space (cases inside).1
  · intro v data addr _ _ _ offset
    exact nomatch offset
  · intro v data inside unwritten
    obtain ⟨-, -, ⟨rfl, -⟩ | ⟨rfl, -⟩ | ⟨written, -⟩⟩ := cases inside
    · rfl
    · rfl
    · exact absurd written unwritten
  · intro v written _ _
    have written : v ∈ ["x", "v"] := written
    simp only [List.mem_cons, List.not_mem_nil, or_false] at written
    rcases written with rfl | rfl <;> rfl

/-- Where the MULTIEQUAL takes the constant, the rows are right. -/
theorem rowsRight_of_five : RowsRight loadOrFive (Function.update loadOrFiveEntry "v" (some 5)) := by
  have choose : Step loadOrFive loadOrFiveEntry (Function.update loadOrFiveEntry "v" (some 5))
      ⟨"MULTIEQUAL", ["c5", "x"], ["v"]⟩ ["c5"] :=
    ⟨by simp [loadOrFive], ⟨"v", [], 5, rfl, .choice (by decide) (by decide) rfl, rfl, nofun⟩,
      fun v other => Function.update_of_ne (fun same => other (by simp [same])) _ _⟩
  have inside : ("c5", { space := some "const", address := some 5 }) ∈ loadOrFive.vnodeFacts := by simp [loadOrFive]
  have five : Tracked loadOrFive "c5" := .start inside (by decide)
  have followed : Followed loadOrFive loadOrFiveEntry ⟨"MULTIEQUAL", ["c5", "x"], ["v"]⟩ ["c5"] :=
    ⟨by decide, nofun, fun _ _ _ => ⟨by decide, by simpa using five⟩, fun _ _ _ ptradd => absurd ptradd (by decide)⟩
  exact FollowedExecution.rowsRight loadOrFive_entry (.single ⟨_, _, choose, followed⟩)

/-- The load's value is 7 and the MULTIEQUAL takes it; its output is reported to be 5. -/
theorem not_rowsRight_of_load : ¬ ∀ (facts : PcodeFacts) (entry env : Env), Ssa facts → Entry facts entry →
    Execution facts entry env → RowsRight facts env := by
  intro sound
  have load : Step loadOrFive loadOrFiveEntry (Function.update loadOrFiveEntry "x" (some 7)) ⟨"LOAD", ["a"], ["x"]⟩ [] :=
    ⟨by simp [loadOrFive], ⟨"x", [], 7, rfl, .free (by decide), rfl, nofun⟩,
      fun v other => Function.update_of_ne (fun same => other (by simp [same])) _ _⟩
  have choose : Step loadOrFive (Function.update loadOrFiveEntry "x" (some 7))
      (Function.update (Function.update loadOrFiveEntry "x" (some 7)) "v" (some 7)) ⟨"MULTIEQUAL", ["c5", "x"], ["v"]⟩ ["x"] :=
    ⟨by simp [loadOrFive], ⟨"v", [], 7, rfl, .choice (by decide) (by decide) rfl, rfl, nofun⟩,
      fun v other => Function.update_of_ne (fun same => other (by simp [same])) _ _⟩
  have run : Execution loadOrFive loadOrFiveEntry (Function.update (Function.update loadOrFiveEntry "x" (some 7)) "v" (some 7)) :=
    .tail (.single ⟨_, _, load⟩) ⟨_, _, choose⟩
  have row : computeConstantPropagation loadOrFive "v" = SymbolicProp.value none 5 := by decide
  have five : (7 : Int64) = 5 := (sound loadOrFive _ _ (by decide) loadOrFive_entry run "v" 7 rfl).2 5 row
  exact absurd five (by decide)

end Ctadl.Pcode
