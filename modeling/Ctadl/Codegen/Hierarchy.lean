import Ctadl.Datalog.Naive
import Ctadl.Facts.Basic
import Mathlib.Data.List.Sort
import Mathlib.Data.String.Basic

/-! # Class hierarchy analysis

The virtual method table of an import as far as dispatch reads it, the Datalog program that resolves every
static signature over it, and the tables codegen looks signatures up in. A class inherits a method from
each direct supertype unless it declares the signature itself, and a static type resolves to whatever its
subtypes have; the table of the allocated subtypes is computed beside it from the same closure.

Superclasses and interfaces are one hierarchy here, as in the table. The relations of the program are
characterized once (`mem_resolve_iff`, `mem_rtaResolve_iff`); what codegen reads is stated over them.
-/

namespace Ctadl.Codegen

open Datalog Facts Relation

/-- A static signature: class, simple name, descriptor. -/
abbrev SignatureKey := Symbol × Symbol × Symbol

/-- What call resolution needs of an import, by language style. -/
inductive Dispatch where
  | unknown
  | java (methods : List (Symbol × Symbol × Symbol × Symbol)) (hierarchy : List (Symbol × List Symbol))
      (interfaces : List Symbol)
  | native
  | lua (methods : List (Symbol × Symbol × Symbol)) (hierarchy : List (Symbol × List Symbol))
  | cil (methods : List (Symbol × Symbol × Symbol × Symbol)) (hierarchy : List (Symbol × List Symbol))
      (interfaces : List Symbol)
deriving DecidableEq, Repr

namespace Dispatch

/-- The methods as class, simple name, descriptor, method id; a Lua row has an empty descriptor. -/
def implemented : Dispatch → List (Symbol × Symbol × Symbol × Symbol)
  | java methods _ _ | cil methods _ _ => methods
  | lua methods _ => methods.map fun (c, n, m) => (c, n, "", m)
  | unknown | native => []

/-- Subclass and direct parent, a class's parents in table order. -/
def hierarchyEdges : Dispatch → List (Symbol × Symbol)
  | java _ hierarchy _ | cil _ hierarchy _ | lua _ hierarchy =>
    hierarchy.flatMap fun (sub, sups) => sups.map fun sup => (sub, sup)
  | unknown | native => []

def interfaceTypes : Dispatch → List Symbol
  | java _ _ interfaces | cil _ _ interfaces => interfaces
  | lua _ _ | unknown | native => []

end Dispatch

/-- The input relations of `run_cha`. -/
structure ChaInput where
  methodImplemented : List (Symbol × Symbol × Symbol × Symbol)
  /-- Superclass first. -/
  directSuperclass : List (Symbol × Symbol)
  interfaceType : List Symbol
  /-- Interface first. -/
  superInterface : List (Symbol × Symbol)
  instantiatedClass : List Symbol
  rta : Bool

/-- The derived relations of `run_cha`. -/
inductive ChaRow where
  | directSubtype (sub sup : Symbol)
  | subtype (sub sup : Symbol)
  | classOrInterface (c : Symbol)
  | subtypeReflexive (sub sup : Symbol)
  | superMethod (c m d id : Symbol)
  | resolve (sup m d id : Symbol)
  | rtaResolve (sup m d id : Symbol)
deriving DecidableEq, Repr

namespace ChaInput

variable (input : ChaInput)

/-- The class declares the signature. -/
def Declares (c m d : Symbol) : Prop := ∃ id, (c, m, d, id) ∈ input.methodImplemented

instance (c m d : Symbol) : Decidable (input.Declares c m d) :=
  decidable_of_iff (∃ row ∈ input.methodImplemented, row.1 = c ∧ row.2.1 = m ∧ row.2.2.1 = d) <| by
    constructor
    · rintro ⟨⟨_, _, _, id⟩, mem, rfl, rfl, rfl⟩
      exact ⟨id, mem⟩
    · rintro ⟨id, mem⟩
      exact ⟨_, mem, rfl, rfl, rfl⟩

/-- Every symbol that occurs in a class column. -/
def classes : List Symbol :=
  input.methodImplemented.map (·.1) ++ input.directSuperclass.map (·.1) ++ input.directSuperclass.map (·.2) ++
    input.interfaceType ++ input.superInterface.map (·.1) ++ input.superInterface.map (·.2) ++
    input.instantiatedClass

/-- The rules, one constructor each. -/
inductive Rule (known : ChaRow → Prop) : ChaRow → Prop
  | superclass {sup sub} (edge : (sup, sub) ∈ input.directSuperclass) : Rule known (.directSubtype sub sup)
  | superInterface {iface cls} (edge : (iface, cls) ∈ input.superInterface) (concrete : cls ∉ input.interfaceType) :
      Rule known (.directSubtype cls iface)
  | subtypeDirect {sub sup} (edge : known (.directSubtype sub sup)) : Rule known (.subtype sub sup)
  | subtypeStep {sub mid sup} (below : known (.subtype sub mid)) (edge : known (.directSubtype mid sup)) :
      Rule known (.subtype sub sup)
  | classOrInterface {c} (mentioned : c ∈ input.classes) : Rule known (.classOrInterface c)
  | reflexive {c} (cls : known (.classOrInterface c)) : Rule known (.subtypeReflexive c c)
  | strict {sub sup} (below : known (.subtype sub sup)) : Rule known (.subtypeReflexive sub sup)
  | declared {c m d id} (implemented : (c, m, d, id) ∈ input.methodImplemented) : Rule known (.superMethod c m d id)
  | inherited {c c2 m d id} (method : known (.superMethod c2 m d id)) (edge : known (.directSubtype c c2))
      (own : ¬ input.Declares c m d) : Rule known (.superMethod c m d id)
  | resolve {sub sup m d id} (method : known (.superMethod sub m d id)) (below : known (.subtypeReflexive sub sup)) :
      Rule known (.resolve sup m d id)
  | rtaResolve {sub sup m d id} (rta : input.rta) (method : known (.superMethod sub m d id))
      (below : known (.subtypeReflexive sub sup)) (allocated : sub ∈ input.instantiatedClass) :
      Rule known (.rtaResolve sup m d id)

/-- A row over the symbols of the input. -/
def Within : ChaRow → Prop
  | .directSubtype sub sup | .subtype sub sup | .subtypeReflexive sub sup => sub ∈ input.classes ∧ sup ∈ input.classes
  | .classOrInterface c => c ∈ input.classes
  | .superMethod c m d id | .resolve c m d id | .rtaResolve c m d id =>
    c ∈ input.classes ∧ ∃ c', (c', m, d, id) ∈ input.methodImplemented

/-- The rules without a derived premise. -/
def initialRows : List ChaRow :=
  (input.directSuperclass.map fun (sup, sub) => .directSubtype sub sup) ++
    ((input.superInterface.filter fun (_, cls) => cls ∉ input.interfaceType).map fun (iface, cls) =>
      .directSubtype cls iface) ++
    input.classes.map .classOrInterface ++
    input.methodImplemented.map fun (c, m, d, id) => .superMethod c m d id

/-- The rules with one derived premise. -/
def unary : ChaRow → List ChaRow
  | .directSubtype sub sup => [.subtype sub sup]
  | .classOrInterface c => [.subtypeReflexive c c]
  | .subtype sub sup => [.subtypeReflexive sub sup]
  | _ => []

/-- The rules with two derived premises, each a join on the column they share. -/
def binary : ChaRow → ChaRow → List ChaRow
  | .subtype sub mid, .directSubtype mid' sup => if mid = mid' then [.subtype sub sup] else []
  | .superMethod c2 m d id, .directSubtype c c2' =>
    if c2 = c2' ∧ ¬ input.Declares c m d then [.superMethod c m d id] else []
  | .superMethod sub m d id, .subtypeReflexive sub' sup =>
    if sub = sub' then
      .resolve sup m d id ::
        if input.rta ∧ sub ∈ input.instantiatedClass then [.rtaResolve sup m d id] else []
    else []
  | _, _ => []

/-- One round of the rules. -/
def fire (known : List ChaRow) : List ChaRow :=
  input.initialRows ++ known.flatMap unary ++ known.flatMap fun first => known.flatMap (input.binary first)

theorem mem_initialRows {known : ChaRow → Prop} {r : ChaRow} (mem : r ∈ input.initialRows) : input.Rule known r := by
  simp only [initialRows, List.mem_append, List.mem_map, List.mem_filter, decide_eq_true_eq] at mem
  rcases mem with ((⟨_, edge, rfl⟩ | ⟨_, edge, rfl⟩) | ⟨_, cls, rfl⟩) | ⟨_, row, rfl⟩
  · exact .superclass edge
  · exact .superInterface edge.1 edge.2
  · exact .classOrInterface cls
  · exact .declared row

theorem mem_unary {known : ChaRow → Prop} {first r : ChaRow} (premise : known first) (mem : r ∈ unary first) :
    input.Rule known r := by
  cases first <;> simp only [unary, List.mem_singleton, List.not_mem_nil] at mem
  · exact mem ▸ .subtypeDirect premise
  · exact mem ▸ .strict premise
  · exact mem ▸ .reflexive premise

theorem mem_binary {known : ChaRow → Prop} {first second r : ChaRow} (left : known first) (right : known second)
    (mem : r ∈ input.binary first second) : input.Rule known r := by
  unfold binary at mem
  split at mem
  · split_ifs at mem with same
    · subst same
      exact List.mem_singleton.mp mem ▸ .subtypeStep left right
    · cases mem
  · split_ifs at mem with same
    · obtain ⟨rfl, own⟩ := same
      exact List.mem_singleton.mp mem ▸ .inherited left right own
    · cases mem
  · split_ifs at mem with same allocated
    · subst same
      rcases List.mem_cons.mp mem with rfl | mem
      · exact .resolve left right
      · exact List.mem_singleton.mp mem ▸ .rtaResolve allocated.1 left right allocated.2
    · subst same
      exact List.mem_singleton.mp mem ▸ .resolve left right
    · cases mem
  · cases mem

theorem mem_fire {known : List ChaRow} {r : ChaRow} : r ∈ input.fire known ↔ input.Rule (· ∈ known) r := by
  simp only [fire, List.mem_append, List.mem_flatMap]
  constructor
  · rintro ((mem | ⟨first, left, mem⟩) | ⟨first, left, second, right, mem⟩)
    · exact input.mem_initialRows mem
    · exact input.mem_unary left mem
    · exact input.mem_binary left right mem
  · intro derived
    cases derived with
    | superclass edge => exact .inl (.inl (by simp [initialRows, edge]))
    | superInterface edge concrete => exact .inl (.inl (by simp [initialRows, edge, concrete]))
    | classOrInterface mentioned => exact .inl (.inl (by simp [initialRows, mentioned]))
    | declared implemented => exact .inl (.inl (by simp [initialRows, implemented]))
    | subtypeDirect edge => exact .inl (.inr ⟨_, edge, by simp [unary]⟩)
    | reflexive cls => exact .inl (.inr ⟨_, cls, by simp [unary]⟩)
    | strict below => exact .inl (.inr ⟨_, below, by simp [unary]⟩)
    | subtypeStep below edge => exact .inr ⟨_, below, _, edge, by simp [binary]⟩
    | inherited method edge own => exact .inr ⟨_, method, _, edge, by simp [binary, own]⟩
    | resolve method below => exact .inr ⟨_, method, _, below, by simp [binary]⟩
    | rtaResolve rta method below allocated => exact .inr ⟨_, method, _, below, by simp [binary, rta, allocated]⟩

theorem Rule.mono {known more : ChaRow → Prop} (grows : ∀ r, known r → more r) :
    ∀ r, input.Rule known r → input.Rule more r := by
  intro r derived
  cases derived with
  | superclass edge => exact .superclass edge
  | superInterface edge concrete => exact .superInterface edge concrete
  | classOrInterface mentioned => exact .classOrInterface mentioned
  | declared implemented => exact .declared implemented
  | subtypeDirect edge => exact .subtypeDirect (grows _ edge)
  | reflexive cls => exact .reflexive (grows _ cls)
  | strict below => exact .strict (grows _ below)
  | subtypeStep below edge => exact .subtypeStep (grows _ below) (grows _ edge)
  | inherited method edge own => exact .inherited (grows _ method) (grows _ edge) own
  | resolve method below => exact .resolve (grows _ method) (grows _ below)
  | rtaResolve rta method below allocated => exact .rtaResolve rta (grows _ method) (grows _ below) allocated

/-- Every row over the symbols of the input. -/
def rows : List ChaRow :=
  (input.classes.flatMap fun sub => input.classes.flatMap fun sup =>
      [.directSubtype sub sup, .subtype sub sup, .subtypeReflexive sub sup]) ++
    input.classes.map .classOrInterface ++
    input.classes.flatMap fun c => input.methodImplemented.flatMap fun (_, m, d, id) =>
      [.superMethod c m d id, .resolve c m d id, .rtaResolve c m d id]

theorem mem_rows {r : ChaRow} : r ∈ input.rows ↔ input.Within r := by
  cases r <;> simp [rows, Within]

theorem Rule.within {known : ChaRow → Prop} (inside : ∀ r, known r → input.Within r) :
    ∀ r, input.Rule known r → input.Within r := by
  intro r derived
  cases derived with
  | superclass edge =>
    exact ⟨by simp only [classes, List.mem_append, List.mem_map]; aesop,
      by simp only [classes, List.mem_append, List.mem_map]; aesop⟩
  | superInterface edge concrete =>
    exact ⟨by simp only [classes, List.mem_append, List.mem_map]; aesop,
      by simp only [classes, List.mem_append, List.mem_map]; aesop⟩
  | classOrInterface mentioned => exact mentioned
  | declared implemented =>
    exact ⟨by simp only [classes, List.mem_append, List.mem_map]; aesop, _, implemented⟩
  | subtypeDirect edge => exact ⟨(inside _ edge).1, (inside _ edge).2⟩
  | reflexive cls => exact ⟨inside _ cls, inside _ cls⟩
  | strict below => exact ⟨(inside _ below).1, (inside _ below).2⟩
  | subtypeStep below edge => exact ⟨(inside _ below).1, (inside _ edge).2⟩
  | inherited method edge own => exact ⟨(inside _ edge).1, (inside _ method).2⟩
  | resolve method below => exact ⟨(inside _ below).2, (inside _ method).2⟩
  | rtaResolve rta method below allocated => exact ⟨(inside _ below).2, (inside _ method).2⟩

/-- The Datalog program of `run_cha`. -/
def program : RuleProgram ChaRow where
  rule := input.Rule
  mono := Rule.mono input
  fire := input.fire
  mem_fire := input.mem_fire
  rows := input.rows
  bounded := fun inside _ mem =>
    input.mem_rows.mpr (Rule.within input (fun _ known => input.mem_rows.mp (inside known)) _ (input.mem_fire.mp mem))

/-- An edge of `cha_direct_subtype`. -/
def DirectSubtype (sub sup : Symbol) : Prop :=
  (sup, sub) ∈ input.directSuperclass ∨ (sup, sub) ∈ input.superInterface ∧ sub ∉ input.interfaceType

/-- An edge a method of the signature is inherited along: the subtype does not declare it. -/
def Passes (m d sub sup : Symbol) : Prop := input.DirectSubtype sub sup ∧ ¬ input.Declares sub m d

/-- The class has the method: a class it reaches along passing edges declares it. -/
def Inherits (c m d id : Symbol) : Prop :=
  ∃ e, ReflTransGen (input.Passes m d) c e ∧ (e, m, d, id) ∈ input.methodImplemented

/-- What a derived row says of the input. -/
def Means : ChaRow → Prop
  | .directSubtype sub sup => input.DirectSubtype sub sup
  | .subtype sub sup => TransGen input.DirectSubtype sub sup
  | .classOrInterface c => c ∈ input.classes
  | .subtypeReflexive sub sup => sub ∈ input.classes ∧ ReflTransGen input.DirectSubtype sub sup
  | .superMethod c m d id => input.Inherits c m d id
  | .resolve sup m d id => ∃ sub, input.Inherits sub m d id ∧ ReflTransGen input.DirectSubtype sub sup
  | .rtaResolve sup m d id => input.rta ∧
      ∃ sub ∈ input.instantiatedClass, input.Inherits sub m d id ∧ ReflTransGen input.DirectSubtype sub sup

variable {input}

theorem DirectSubtype.mem_classes {sub sup : Symbol} (edge : input.DirectSubtype sub sup) : sub ∈ input.classes := by
  simp only [classes, List.mem_append, List.mem_map]
  rcases edge with edge | ⟨edge, -⟩
  · exact .inl (.inl (.inl (.inl (.inr ⟨_, edge, rfl⟩))))
  · exact .inl (.inr ⟨_, edge, rfl⟩)

theorem Inherits.mem_classes {c m d id : Symbol} (method : input.Inherits c m d id) : c ∈ input.classes := by
  obtain ⟨e, path, row⟩ := method
  obtain rfl | ⟨_, edge, -⟩ := path.cases_head
  · simp only [classes, List.mem_append, List.mem_map]
    exact .inl (.inl (.inl (.inl (.inl (.inl ⟨_, row, rfl⟩)))))
  · exact edge.1.mem_classes

/-- Every rule derives what its row means from what its premises mean. -/
theorem Rule.means {r : ChaRow} (derived : input.Rule input.Means r) : input.Means r := by
  cases derived with
  | superclass edge => exact .inl edge
  | superInterface edge concrete => exact .inr ⟨edge, concrete⟩
  | subtypeDirect edge => exact .single edge
  | subtypeStep below edge => exact .tail below edge
  | classOrInterface mentioned => exact mentioned
  | reflexive cls => exact ⟨cls, .refl⟩
  | strict below =>
    obtain ⟨_, edge, -⟩ := TransGen.head'_iff.mp below
    exact ⟨edge.mem_classes, below.to_reflTransGen⟩
  | declared implemented => exact ⟨_, .refl, implemented⟩
  | inherited method edge own =>
    obtain ⟨e, path, row⟩ := method
    exact ⟨e, .head ⟨edge, own⟩ path, row⟩
  | resolve method below => exact ⟨_, method, below.2⟩
  | rtaResolve rta method below allocated => exact ⟨rta, _, allocated, method, below.2⟩

theorem mem_directSubtype {sub sup : Symbol} (edge : input.DirectSubtype sub sup) :
    .directSubtype sub sup ∈ input.program.model := by
  rcases edge with edge | ⟨edge, concrete⟩
  · exact input.program.mem_model_of_rule (.superclass edge)
  · exact input.program.mem_model_of_rule (.superInterface edge concrete)

theorem mem_subtype {sub sup : Symbol} (below : TransGen input.DirectSubtype sub sup) :
    .subtype sub sup ∈ input.program.model := by
  induction below with
  | single edge => exact input.program.mem_model_of_rule (.subtypeDirect (mem_directSubtype edge))
  | tail _ edge ih => exact input.program.mem_model_of_rule (.subtypeStep ih (mem_directSubtype edge))

theorem mem_subtypeReflexive {sub sup : Symbol} (cls : sub ∈ input.classes)
    (below : ReflTransGen input.DirectSubtype sub sup) : .subtypeReflexive sub sup ∈ input.program.model := by
  rcases reflTransGen_iff_eq_or_transGen.mp below with rfl | strict
  · have mentioned := input.program.mem_model_of_rule (.classOrInterface cls)
    exact input.program.mem_model_of_rule (.reflexive mentioned)
  · exact input.program.mem_model_of_rule (.strict (mem_subtype strict))

theorem mem_superMethod {c m d id : Symbol} (method : input.Inherits c m d id) :
    .superMethod c m d id ∈ input.program.model := by
  obtain ⟨e, path, row⟩ := method
  induction path using ReflTransGen.head_induction_on with
  | refl => exact input.program.mem_model_of_rule (.declared row)
  | head edge _ ih => exact input.program.mem_model_of_rule (.inherited ih (mem_directSubtype edge.1) edge.2)

/-- The rows derived are the ones whose meaning holds. -/
theorem mem_model_iff {r : ChaRow} : r ∈ input.program.model ↔ input.Means r := by
  constructor
  · exact input.program.model_induction fun r => Rule.means
  · intro holds
    cases r with
    | directSubtype => exact mem_directSubtype holds
    | subtype => exact mem_subtype holds
    | classOrInterface => exact input.program.mem_model_of_rule (.classOrInterface holds)
    | subtypeReflexive => exact mem_subtypeReflexive holds.1 holds.2
    | superMethod => exact mem_superMethod holds
    | resolve =>
      obtain ⟨sub, method, below⟩ := holds
      have reflexive := mem_subtypeReflexive method.mem_classes below
      exact input.program.mem_model_of_rule (.resolve (mem_superMethod method) reflexive)
    | rtaResolve =>
      obtain ⟨rta, sub, allocated, method, below⟩ := holds
      have reflexive := mem_subtypeReflexive method.mem_classes below
      exact input.program.mem_model_of_rule (.rtaResolve rta (mem_superMethod method) reflexive allocated)

end ChaInput

/-- The targets of every signature, in key order. -/
abbrev ChaResolvents := List (SignatureKey × List Symbol)

namespace ChaResolvents

/-- The targets under a key, none where the key is missing. -/
def lookup (table : ChaResolvents) (key : SignatureKey) : List Symbol :=
  match table.find? (·.1 = key) with
  | some (_, targets) => targets
  | none => []

@[simp] theorem lookup_nil {key : SignatureKey} : lookup [] key = [] := rfl

/-- Pushes a target onto its key's list. -/
def push (key : SignatureKey) (id : Symbol) : ChaResolvents → ChaResolvents
  | [] => [(key, [id])]
  | (key', targets) :: rest =>
    if key' = key then (key', targets ++ [id]) :: rest else (key', targets) :: push key id rest

theorem mem_lookup_push {table : ChaResolvents} {key key' : SignatureKey} {id id' : Symbol} :
    id' ∈ (table.push key id).lookup key' ↔ id' ∈ table.lookup key' ∨ key' = key ∧ id' = id := by
  induction table with
  | nil =>
    by_cases same : key = key'
    · simp [push, lookup, same]
    · simp [push, lookup, same, Ne.symm same]
  | cons entry rest ih =>
    obtain ⟨key₀, targets⟩ := entry
    by_cases here : key₀ = key
    · by_cases same : key₀ = key'
      · simp [push, lookup, here, ← here ▸ same]
      · have other : key' ≠ key := fun eq => same (here.trans eq.symm)
        simp [push, lookup, here, other, here ▸ same]
    · by_cases same : key₀ = key'
      · have other : key' ≠ key := fun eq => here (same.trans eq)
        simp [push, lookup, other, same]
      · simpa [push, lookup, here, same] using ih

/-- The order `collect` sorts by: class, name, descriptor, then id. -/
def rowLe (a b : Symbol × Symbol × Symbol × Symbol) : Bool :=
  ((compare a.1 b.1).then ((compare a.2.1 b.2.1).then ((compare a.2.2.1 b.2.2.1).then (compare a.2.2.2 b.2.2.2)))).isLE

/-- Folds a resolve relation into the map, sorted. -/
def collect (rows : List (Symbol × Symbol × Symbol × Symbol)) : ChaResolvents :=
  (rows.insertionSort fun a b => rowLe a b).foldl (fun table (c, n, d, id) => table.push (c, n, d) id) []

private theorem mem_lookup_foldl {rows : List (Symbol × Symbol × Symbol × Symbol)} {table : ChaResolvents}
    {c n d id : Symbol} :
    id ∈ (rows.foldl (fun table (c, n, d, id) => table.push (c, n, d) id) table).lookup (c, n, d) ↔
      id ∈ table.lookup (c, n, d) ∨ (c, n, d, id) ∈ rows := by
  induction rows generalizing table with
  | nil => simp
  | cons row rest ih =>
    rw [List.foldl_cons, ih, mem_lookup_push, List.mem_cons, or_assoc]
    simp only [Prod.ext_iff, and_assoc]

/-- A target is found under a key when its row was collected. -/
theorem mem_lookup_collect {rows : List (Symbol × Symbol × Symbol × Symbol)} {c n d id : Symbol} :
    id ∈ (collect rows).lookup (c, n, d) ↔ (c, n, d, id) ∈ rows := by
  rw [collect, mem_lookup_foldl, List.mem_insertionSort]
  simp [lookup]

private theorem key_mem_push {table : ChaResolvents} {key : SignatureKey} {id : Symbol} {entry : SignatureKey × List Symbol}
    (mem : entry ∈ table.push key id) : entry.1 = key ∨ ∃ old ∈ table, old.1 = entry.1 := by
  induction table with
  | nil => exact .inl (congrArg Prod.fst (List.mem_singleton.mp mem))
  | cons first rest ih =>
    obtain ⟨key', targets⟩ := first
    by_cases here : key' = key
    · simp only [push, here, if_true] at mem
      rcases List.mem_cons.mp mem with rfl | mem
      · exact .inl rfl
      · exact .inr ⟨entry, .tail _ mem, rfl⟩
    · simp only [push, here, if_false] at mem
      rcases List.mem_cons.mp mem with rfl | mem
      · exact .inr ⟨_, .head _, rfl⟩
      · exact (ih mem).imp_right fun ⟨old, present, same⟩ => ⟨old, .tail _ present, same⟩

/-- Every key of the map is a collected row's. -/
theorem exists_row_of_mem_collect {rows : List (Symbol × Symbol × Symbol × Symbol)}
    {entry : SignatureKey × List Symbol} (mem : entry ∈ collect rows) :
    ∃ id, (entry.1.1, entry.1.2.1, entry.1.2.2, id) ∈ rows := by
  have folded : ∀ (rows : List (Symbol × Symbol × Symbol × Symbol)) (table : ChaResolvents) entry,
      entry ∈ rows.foldl (fun table (c, n, d, id) => table.push (c, n, d) id) table →
      (∃ old ∈ table, old.1 = entry.1) ∨ ∃ id, (entry.1.1, entry.1.2.1, entry.1.2.2, id) ∈ rows := by
    intro rows
    induction rows with
    | nil => exact fun _ entry mem => .inl ⟨entry, mem, rfl⟩
    | cons row rest ih =>
      intro table entry mem
      rcases ih _ _ mem with ⟨old, present, same⟩ | ⟨id, later⟩
      · rcases key_mem_push present with key | ⟨older, present, same'⟩
        · have named : entry.1 = (row.1, row.2.1, row.2.2.1) := same.symm.trans key
          exact .inr ⟨row.2.2.2, by rw [named]; exact .head _⟩
        · exact .inl ⟨older, present, same'.trans same⟩
      · exact .inr ⟨id, .tail _ later⟩
  rcases folded _ _ _ mem with ⟨_, present, -⟩ | ⟨id, row⟩
  · cases present
  · exact ⟨id, (List.mem_insertionSort _).mp row⟩

end ChaResolvents

namespace ChaInput

variable (input : ChaInput)

/-- The rows of `cha_resolve`. -/
def chaResolve : List (Symbol × Symbol × Symbol × Symbol) :=
  input.program.model.filterMap fun
    | .resolve sup m d id => some (sup, m, d, id)
    | _ => none

/-- The rows of `rta_resolve`. -/
def rtaResolve : List (Symbol × Symbol × Symbol × Symbol) :=
  input.program.model.filterMap fun
    | .rtaResolve sup m d id => some (sup, m, d, id)
    | _ => none

/-- Runs the class hierarchy analysis, and, when `rta` is set, the rapid type analysis beside it. -/
def runCha : ChaResolvents × ChaResolvents :=
  (.collect input.chaResolve, .collect input.rtaResolve)

variable {input}

theorem mem_chaResolve_iff {sup m d id : Symbol} :
    (sup, m, d, id) ∈ input.chaResolve ↔
      ∃ sub, input.Inherits sub m d id ∧ ReflTransGen input.DirectSubtype sub sup := by
  have row : (sup, m, d, id) ∈ input.chaResolve ↔ ChaRow.resolve sup m d id ∈ input.program.model := by
    simp only [chaResolve, List.mem_filterMap]
    constructor
    · rintro ⟨r, mem, eq⟩
      cases r <;> simp_all
    · exact fun mem => ⟨_, mem, rfl⟩
  rw [row, mem_model_iff, Means]

theorem mem_resolve_iff {sup m d id : Symbol} :
    id ∈ input.runCha.1.lookup (sup, m, d) ↔
      ∃ sub, input.Inherits sub m d id ∧ ReflTransGen input.DirectSubtype sub sup := by
  rw [runCha, ChaResolvents.mem_lookup_collect, mem_chaResolve_iff]

theorem mem_rtaResolve_iff {sup m d id : Symbol} :
    id ∈ input.runCha.2.lookup (sup, m, d) ↔ input.rta ∧
      ∃ sub ∈ input.instantiatedClass, input.Inherits sub m d id ∧ ReflTransGen input.DirectSubtype sub sup := by
  have row : (sup, m, d, id) ∈ input.rtaResolve ↔ ChaRow.rtaResolve sup m d id ∈ input.program.model := by
    simp only [rtaResolve, List.mem_filterMap]
    constructor
    · rintro ⟨r, mem, eq⟩
      cases r <;> simp_all
    · exact fun mem => ⟨_, mem, rfl⟩
  rw [runCha, ChaResolvents.mem_lookup_collect, row, mem_model_iff, Means]

end ChaInput

end Ctadl.Codegen
