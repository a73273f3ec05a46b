import Ctadl.Jni.Mangling

/-! # Linking native methods by symbol

A native method is linked to the function that carries its long name or, where its class declares no other native of its
name, its short one. As the names tell the methods apart, no method is linked to a function that is named after another.
-/

namespace Ctadl.Jni

/-- A native method of a class file, as far as linking reads it. -/
structure JavaNative where
  method : String
  classInternal : String
  simpleName : String
  descriptor : String
deriving DecidableEq, Repr

inductive Resolution (Target : Type*) where
  | found (symbol : String) (target : Target) (registered : Bool)
  | ambiguous (symbol reason : String)
  | notFound
deriving DecidableEq, Repr

section Definitions

variable {Target : Type*}

/-- The natives the first of whose observations is still to come, `seen` being the methods observed. -/
def firstsFrom (seen : List String) : List JavaNative → List JavaNative
  | [] => []
  | native :: natives =>
    if native.method ∈ seen then firstsFrom seen natives else native :: firstsFrom (native.method :: seen) natives

def firsts (natives : List JavaNative) : List JavaNative := firstsFrom [] natives

/-- What tells an overload set: the class and the simple name. -/
def JavaNative.simple (native : JavaNative) : String × String := (native.classInternal, native.simpleName)

/-- Counts one more native. -/
def countNative (counts : String × String → Option ℕ) (native : JavaNative) : String × String → Option ℕ := fun key =>
  if key = native.simple then some ((counts key).getD 0 + 1) else counts key

/-- How many natives share a class and a simple name. -/
def overloads (natives : List JavaNative) : String × String → Option ℕ := natives.foldl countNative fun _ => none

def unique (symbol : String) : List Target → Resolution Target
  | [only] => .found symbol only false
  | many => .ambiguous symbol (toString many.length ++ " native functions carry that name")

/-- The second tier, the short name. -/
def resolveByShort (native : JavaNative) (symbols : String → Option (List Target)) (overloads : String × String → Option ℕ) :
    Resolution Target :=
  let name := native.simpleName
  let short := shortName native.classInternal name
  match symbols short with
  | none => .notFound
  | some candidates =>
    let overloaded := (overloads native.simple).getD 1
    if 1 < overloaded then .ambiguous short (toString overloaded ++ " native overloads of '" ++ name ++ "'")
    else unique short candidates

def resolveBySymbol (native : JavaNative) (symbols : String → Option (List Target)) (overloads : String × String → Option ℕ) :
    Resolution Target :=
  match paramDescriptor native.descriptor with
  | none => resolveByShort native symbols overloads
  | some params =>
    let long := longName native.classInternal native.simpleName params
    match symbols long with
    | none => resolveByShort native symbols overloads
    | some candidates => unique long candidates

/-- A registration wins over the symbols. -/
def resolve (native : JavaNative) (symbols : String → Option (List Target)) (overloads : String × String → Option ℕ)
    (registered : String → Option Target) : Resolution Target :=
  match registered native.method with
  | some target => .found native.simpleName target true
  | none => resolveBySymbol native symbols overloads

end Definitions

namespace JavaNative

/-- What a method is told by: its class, its name and its parameters. -/
def signature (native : JavaNative) : String × String × Option String :=
  (native.classInternal, native.simpleName, paramDescriptor native.descriptor)

/-- The symbols an implementation of the method may carry. -/
def symbolNames (native : JavaNative) : List String :=
  shortName native.classInternal native.simpleName ::
    (paramDescriptor native.descriptor).toList.map (longName native.classInternal native.simpleName)

/-- The names in the native are identifiers, and in its parameters no digit that makes an escape follows a separator. -/
structure IsNamed (native : JavaNative) : Prop where
  components : ∀ component ∈ native.classInternal.toList.splitOn '/', isIdentifier component
  identifier : isIdentifier native.simpleName.toList
  apart : ∀ params, paramDescriptor native.descriptor = some params → params.toList.IsChain Apart

variable {native : JavaNative}

def IsNamed.name (named : native.IsNamed) : MethodName :=
  ⟨native.classInternal, native.simpleName, named.components, named.identifier⟩

def IsNamed.params (named : native.IsNamed) {text : String} (parsed : paramDescriptor native.descriptor = some text) :
    ParamDescriptor :=
  ⟨text, ⟨_, parsed⟩, named.apart text parsed⟩

/-- A symbol of a method is its short name or its long one. -/
theorem IsNamed.of_mem_symbolNames (named : native.IsNamed) {symbol : String} (carried : symbol ∈ native.symbolNames) :
    symbol = named.name.shortName ∨
      ∃ text, ∃ parsed : paramDescriptor native.descriptor = some text, symbol = named.name.longName (named.params parsed) := by
  rcases List.mem_cons.mp carried with short | long
  · exact .inl short
  · obtain ⟨text, known, rfl⟩ := List.mem_map.mp long
    exact .inr ⟨text, Option.mem_toList.mp known, rfl⟩

end JavaNative

section Linking

variable {Target : Type*} {natives : List JavaNative} {native other : JavaNative} {key : String × String}
  {symbols : String → Option (List Target)} {counts : String × String → Option ℕ} {registered : String → Option Target}
  {symbol : String} {target : Target}

theorem firsts_subset : ∀ native ∈ firsts natives, native ∈ natives := by
  have subset : ∀ seen, ∀ native ∈ firstsFrom seen natives, native ∈ natives := by
    induction natives with
    | nil => exact fun _ _ inside => inside
    | cons first natives ih =>
      intro seen native inside
      unfold firstsFrom at inside
      split_ifs at inside
      · exact List.mem_cons_of_mem _ (ih seen native inside)
      · rcases List.mem_cons.mp inside with rfl | later
        · exact List.mem_cons_self
        · exact List.mem_cons_of_mem _ (ih _ native later)
  exact subset []

theorem getD_overloads : ((overloads natives) key).getD 0 = (natives.filter fun native => key = native.simple).length := by
  have counted : ∀ counts : String × String → Option ℕ, ((natives.foldl countNative counts) key).getD 0 =
      (counts key).getD 0 + (natives.filter fun native => key = native.simple).length := by
    induction natives with
    | nil => exact fun counts => rfl
    | cons native natives ih =>
      intro counts
      rw [List.foldl_cons, ih, countNative]
      split_ifs with shared
      · rw [List.filter_cons_of_pos (by simpa using shared), List.length_cons, Option.getD_some]
        omega
      · rw [List.filter_cons_of_neg (by simpa using shared)]
  exact (counted fun _ => none).trans (Nat.zero_add _)

/-- Two natives of a class that share their name are overloads. -/
theorem overloaded (inside : native ∈ natives) (inside' : other ∈ natives) (apart : native ≠ other)
    (same : native.simple = other.simple) : 1 < ((overloads natives) native.simple).getD 1 := by
  have counted := @getD_overloads natives native.simple
  have member : native ∈ natives.filter fun n => native.simple = n.simple := List.mem_filter.mpr ⟨inside, by simp⟩
  have member' : other ∈ natives.filter fun n => native.simple = n.simple := List.mem_filter.mpr ⟨inside', by simpa using same⟩
  have two : 1 < (natives.filter fun n => native.simple = n.simple).length := by
    generalize natives.filter (fun n => native.simple = n.simple) = sharing at member member'
    match sharing, member, member' with
    | [only], member, member' =>
      exact absurd ((List.mem_singleton.mp member).trans (List.mem_singleton.mp member').symm) apart
    | _ :: _ :: _, _, _ => simp
  rw [← counted] at two
  cases known : (overloads natives) native.simple with
  | none =>
    rw [known] at two
    exact absurd two (by decide)
  | some count =>
    rw [known] at two
    exact two

theorem found_unique {candidates : List Target} {flag : Bool} {name : String}
    (found : unique name candidates = .found symbol target flag) : symbol = name := by
  unfold unique at found
  split at found
  · injection found with same
    exact same.symm
  · exact nomatch found

theorem found_resolveByShort {flag : Bool} (found : resolveByShort native symbols counts = .found symbol target flag) :
    symbol = shortName native.classInternal native.simpleName ∧
      ¬ 1 < (counts native.simple).getD 1 := by
  unfold resolveByShort at found
  dsimp only at found
  split at found
  · exact nomatch found
  · split_ifs at found with overloaded
    exact ⟨found_unique found, overloaded⟩

/-- What links a method without a registration: its long name, or its short one and no overload of it. -/
theorem found_resolve (found : resolve native symbols counts registered = .found symbol target false) :
    (∃ params, paramDescriptor native.descriptor = some params ∧
        symbol = longName native.classInternal native.simpleName params) ∨
      symbol = shortName native.classInternal native.simpleName ∧
        ¬ 1 < (counts native.simple).getD 1 := by
  unfold resolve at found
  split at found
  · exact nomatch found
  · unfold resolveBySymbol at found
    split at found
    · exact .inr (found_resolveByShort found)
    · rename_i params parsed
      dsimp only at found
      split at found
      · exact .inr (found_resolveByShort found)
      · exact .inl ⟨params, parsed, found_unique found⟩

/-- The symbol a method is linked by is no name of another. -/
theorem linked_not_mem_symbolNames (named : native.IsNamed) (named' : other.IsNamed) (inside : native ∈ natives)
    (inside' : other ∈ natives) (apart : native.signature ≠ other.signature)
    (found : resolve native symbols (overloads natives) registered = .found symbol target false) :
    symbol ∉ other.symbolNames := by
  intro carried
  rcases found_resolve found with ⟨text, parsed, rfl⟩ | ⟨rfl, single⟩
  · have long : longName native.classInternal native.simpleName text = named.name.longName (named.params parsed) := rfl
    rw [long] at carried
    rcases named'.of_mem_symbolNames carried with same | ⟨text', parsed', same⟩
    · exact longName_ne_shortName same
    · obtain ⟨sameName, sameText⟩ := longName_inj same
      apply apart
      have sameClass : native.classInternal = other.classInternal := congrArg MethodName.classInternal sameName
      have sameSimple : native.simpleName = other.simpleName := congrArg MethodName.simpleName sameName
      have sameParams : text = text' := sameText
      rw [JavaNative.signature, JavaNative.signature, parsed, parsed', sameClass, sameSimple, sameParams]
  · have short : shortName native.classInternal native.simpleName = named.name.shortName := rfl
    rw [short] at carried
    rcases named'.of_mem_symbolNames carried with same | ⟨text', parsed', same⟩
    · have sameName := shortName_inj same
      apply single
      apply overloaded inside inside'
      · rintro rfl
        exact apart rfl
      · exact Prod.ext (congrArg MethodName.classInternal sameName) (congrArg MethodName.simpleName sameName)
    · exact longName_ne_shortName same.symm

/-- The symbol names tell methods apart, and so does linking by them. -/
theorem symbols_unambiguous :
    Function.Injective MethodName.shortName ∧
    (∀ name name' params params', MethodName.longName name params = MethodName.longName name' params' →
      name = name' ∧ params.text = params'.text) ∧
    (∀ name name' params, MethodName.longName name params ≠ MethodName.shortName name') ∧
    ∀ (observed : List JavaNative) (symbols : String → Option (List Target)) (registered : String → Option Target),
      (∀ native ∈ observed, native.IsNamed) →
      ∀ native ∈ firsts observed, ∀ other ∈ firsts observed, native.signature ≠ other.signature → ∀ symbol target,
        resolve native symbols (overloads (firsts observed)) registered = .found symbol target false →
        symbol ∉ other.symbolNames := by
  refine ⟨fun _ _ same => shortName_inj same, fun _ _ _ _ same => longName_inj same, fun _ _ _ => longName_ne_shortName, ?_⟩
  intro observed symbols registered named native inside other inside' apart symbol target found
  have observedFirst : ∀ native ∈ firsts observed, native ∈ observed := firsts_subset
  exact linked_not_mem_symbolNames (named native (observedFirst native inside)) (named other (observedFirst other inside')) inside
    inside' apart found

/-- Two overloads, and a library that has both. -/
def ofInt : JavaNative := ⟨"LA;->m(I)V", "A", "m", "(I)V"⟩

def ofLong : JavaNative := ⟨"LA;->m(J)V", "A", "m", "(J)V"⟩

def library (symbol : String) : Option (List ℕ) :=
  if symbol = "Java_A_m__I" then some [1] else if symbol = "Java_A_m__J" then some [2] else none

theorem paramDescriptor_int : paramDescriptor "(I)V" = some "I" := by
  simp [paramDescriptor, descriptorParams, paramsOf, fieldType]

theorem paramDescriptor_long : paramDescriptor "(J)V" = some "J" := by
  simp [paramDescriptor, descriptorParams, paramsOf, fieldType]

theorem ofInt_linked : resolve ofInt library (overloads (firsts [ofInt, ofLong])) (fun _ => none) = .found "Java_A_m__I" 1 false ∧
    "Java_A_m__I" ∉ ofLong.symbolNames := by
  have named : ∀ native ∈ [ofInt, ofLong], native.IsNamed := by
    intro native inside
    simp only [List.mem_cons, List.not_mem_nil, or_false] at inside
    rcases inside with rfl | rfl
    · refine ⟨by decide, by decide, fun params parsed => ?_⟩
      obtain rfl := Option.some.inj (paramDescriptor_int.symm.trans parsed)
      exact .singleton _
    · refine ⟨by decide, by decide, fun params parsed => ?_⟩
      obtain rfl := Option.some.inj (paramDescriptor_long.symm.trans parsed)
      exact .singleton _
  have apart : ofInt.signature ≠ ofLong.signature := by
    simp [JavaNative.signature, ofInt, ofLong, paramDescriptor_int, paramDescriptor_long]
  have long : longName "A" "m" "I" = "Java_A_m__I" := by decide
  have found : resolve ofInt library (overloads (firsts [ofInt, ofLong])) (fun _ => none) = .found "Java_A_m__I" 1 false := by
    simp [resolve, resolveBySymbol, ofInt, paramDescriptor_int, long, library, unique]
  exact ⟨found, symbols_unambiguous.2.2.2 [ofInt, ofLong] library (fun _ => none) named ofInt (by decide) ofLong (by decide)
    apart _ _ found⟩

/-- `La/1b;` and `La_b;` are mangled to one name, and a method that takes the one is linked to what takes the other. -/
theorem digit_after_separator :
    let separated : JavaNative := ⟨"LA;->m(La/1b;)V", "A", "m", "(La/1b;)V"⟩
    let joined : JavaNative := ⟨"LA;->m(La_b;)V", "A", "m", "(La_b;)V"⟩
    paramDescriptor separated.descriptor = some "La/1b;" ∧ paramDescriptor joined.descriptor = some "La_b;" ∧
      ("A".toList.splitOn '/').all isIdentifier ∧ isIdentifier "m".toList ∧
      longName "A" "m" "La/1b;" = longName "A" "m" "La_b;" ∧
      resolve separated (fun symbol => if symbol = longName "A" "m" "La_b;" then some [0] else none)
        (overloads (firsts [separated, joined])) (fun _ => none) = .found (longName "A" "m" "La_b;") 0 false := by
  have parsed : paramDescriptor "(La/1b;)V" = some "La/1b;" := by
    simp [paramDescriptor, descriptorParams, paramsOf, fieldType, className]
  have parsed' : paramDescriptor "(La_b;)V" = some "La_b;" := by
    simp [paramDescriptor, descriptorParams, paramsOf, fieldType, className]
  have same : longName "A" "m" "La/1b;" = longName "A" "m" "La_b;" := by decide
  refine ⟨parsed, parsed', by decide, by decide, same, ?_⟩
  simp only [resolve, resolveBySymbol, parsed, same, if_true, unique]

end Linking

end Ctadl.Jni
