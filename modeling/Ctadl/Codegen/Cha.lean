import Ctadl.Codegen.Hierarchy

/-! # The resolvent tables of one import

`ClassHierarchyAnalysis.build` runs the hierarchy analysis over an import's method table and keeps, beside the
two resolvent tables, what the upward walk for `super` calls reads. The tables are characterized over the
method table itself: a method is a resolvent of a signature when some subtype of the class has it.
-/

namespace Ctadl.Codegen

open Facts Relation

namespace Dispatch

variable (dispatch : Dispatch)

/-- A subclass and a direct parent. -/
def Edge (sub sup : Symbol) : Prop := (sub, sup) ∈ dispatch.hierarchyEdges

/-- Reflexive subtyping. -/
def Below : Symbol → Symbol → Prop := ReflTransGen dispatch.Edge

/-- The class declares the signature. -/
def Declares (c m d : Symbol) : Prop := ∃ id, (c, m, d, id) ∈ dispatch.implemented

/-- An edge the signature is inherited along. -/
def Passes (m d sub sup : Symbol) : Prop := dispatch.Edge sub sup ∧ ¬ dispatch.Declares sub m d

/-- The class declares the method or reaches its declaration with no declaration of the signature before. -/
def Has (c m d id : Symbol) : Prop := ∃ e, ReflTransGen (dispatch.Passes m d) c e ∧ (e, m, d, id) ∈ dispatch.implemented

/-- The input of `run_cha`; no table fills `super_interface`. -/
def chaInput (instantiatedClasses : List Symbol) (rta : Bool) : ChaInput where
  methodImplemented := dispatch.implemented
  directSuperclass := (dispatch.hierarchyEdges.map fun (sub, sup) => (sup, sub)).insertionSort fun a b =>
    ((compare a.1 b.1).then (compare a.2 b.2)).isLE
  interfaceType := dispatch.interfaceTypes
  superInterface := []
  instantiatedClass := instantiatedClasses
  rta := rta

variable {dispatch} {instantiatedClasses : List Symbol} {rta : Bool}

theorem directSubtype_eq : (dispatch.chaInput instantiatedClasses rta).DirectSubtype = dispatch.Edge := by
  ext sub sup
  simp [ChaInput.DirectSubtype, chaInput, Edge, List.mem_insertionSort]

theorem passes_eq {m d : Symbol} : (dispatch.chaInput instantiatedClasses rta).Passes m d = dispatch.Passes m d := by
  ext sub sup
  rw [ChaInput.Passes, directSubtype_eq]
  rfl

theorem inherits_iff {c m d id : Symbol} :
    (dispatch.chaInput instantiatedClasses rta).Inherits c m d id ↔ dispatch.Has c m d id := by
  rw [ChaInput.Inherits, passes_eq]
  rfl

end Dispatch

/-- Which call resolution scheme the resolvents are keyed for. -/
inductive ChaLanguage where
  | java
  | lua
  | cil
deriving DecidableEq, Repr

structure ClassHierarchyAnalysis where
  language : ChaLanguage := .java
  resolvents : ChaResolvents := []
  rtaResolvents : ChaResolvents := []
  /-- A signature key to the implementation its own class declares. -/
  declared : List (SignatureKey × Symbol) := []
  /-- A class and one of its direct parents, in table order. -/
  parents : List (Symbol × Symbol) := []
  /-- The declared interfaces, filled for CIL only. -/
  interfaces : List Symbol := []

namespace ClassHierarchyAnalysis

/-- A class declaring a signature twice keeps the first id. -/
def declaredImplementations (methodImplemented : List (Symbol × Symbol × Symbol × Symbol)) :
    List (SignatureKey × Symbol) :=
  methodImplemented.foldl (fun declared (cls, name, desc, id) =>
    if declared.any (·.1 = (cls, name, desc)) then declared else declared ++ [((cls, name, desc), id)]) []

/-- Every class-based table goes through the same `run_cha`; the others have no resolvents. -/
def build (dispatch : Dispatch) (instantiatedClasses : List Symbol) (rta : Bool) : ClassHierarchyAnalysis :=
  let tables := (dispatch.chaInput instantiatedClasses rta).runCha
  let analysis (language : ChaLanguage) (interfaces : List Symbol) : ClassHierarchyAnalysis :=
    { language, resolvents := tables.1, rtaResolvents := tables.2,
      declared := declaredImplementations dispatch.implemented, parents := dispatch.hierarchyEdges, interfaces }
  match dispatch with
  | .java .. => analysis .java []
  | .cil _ _ interfaces => analysis .cil interfaces
  | .lua .. => analysis .lua []
  | .unknown | .native => {}

/-- Plain CHA, what codegen uses. -/
def new (dispatch : Dispatch) (instantiatedClasses : List Symbol) : ClassHierarchyAnalysis :=
  build dispatch instantiatedClasses false

/-- CHA and RTA from one run over one subtype closure. -/
def withRta (dispatch : Dispatch) (instantiatedClasses : List Symbol) : ClassHierarchyAnalysis :=
  build dispatch instantiatedClasses true

variable (cha : ClassHierarchyAnalysis)

def javaResolvents (cls name descriptor : Symbol) : List Symbol := cha.resolvents.lookup (cls, name, descriptor)

def javaRtaResolvents (cls name descriptor : Symbol) : List Symbol := cha.rtaResolvents.lookup (cls, name, descriptor)

variable {dispatch : Dispatch} {instantiatedClasses : List Symbol} {rta : Bool} {c m d id : Symbol}

theorem build_resolvents (dispatch : Dispatch) (instantiatedClasses : List Symbol) (rta : Bool) :
    (build dispatch instantiatedClasses rta).resolvents = (dispatch.chaInput instantiatedClasses rta).runCha.1 ∨
      dispatch.implemented = [] ∧ (build dispatch instantiatedClasses rta).resolvents = [] := by
  cases dispatch with
  | java | lua | cil => simp only [build, true_or]
  | unknown | native => simp [build, Dispatch.implemented]

theorem build_rtaResolvents (dispatch : Dispatch) (instantiatedClasses : List Symbol) (rta : Bool) :
    (build dispatch instantiatedClasses rta).rtaResolvents = (dispatch.chaInput instantiatedClasses rta).runCha.2 ∨
      dispatch.implemented = [] ∧ (build dispatch instantiatedClasses rta).rtaResolvents = [] := by
  cases dispatch with
  | java | lua | cil => simp only [build, true_or]
  | unknown | native => simp [build, Dispatch.implemented]

/-- The resolvents of a signature are the methods of the subtypes of its class. -/
theorem mem_javaResolvents_iff :
    id ∈ (build dispatch instantiatedClasses rta).javaResolvents c m d ↔
      ∃ sub, dispatch.Has sub m d id ∧ dispatch.Below sub c := by
  rw [javaResolvents]
  rcases build_resolvents dispatch instantiatedClasses rta with eq | ⟨none, eq⟩
  · rw [eq, ChaInput.mem_resolve_iff]
    simp only [Dispatch.inherits_iff, Dispatch.directSubtype_eq, Dispatch.Below]
  · simp [eq, Dispatch.Has, none]

/-- A default method of `I` that `J` overrides, seen from both sides of a diamond. -/
example :
    let diamond := Dispatch.java [("I", "m", "()V", "I.m"), ("J", "m", "()V", "J.m")]
      [("D", ["I", "J"]), ("J", ["I"])] ["I", "J"]
    (new diamond []).javaResolvents "I" "m" "()V" = ["I.m", "J.m"] ∧
      (new diamond []).javaResolvents "J" "m" "()V" = ["I.m", "J.m"] := by decide +kernel

/-- The restricted resolvents are the methods of the allocated subtypes. -/
theorem mem_javaRtaResolvents_iff :
    id ∈ (build dispatch instantiatedClasses rta).javaRtaResolvents c m d ↔
      rta ∧ ∃ sub ∈ instantiatedClasses, dispatch.Has sub m d id ∧ dispatch.Below sub c := by
  rw [javaRtaResolvents]
  rcases build_rtaResolvents dispatch instantiatedClasses rta with eq | ⟨none, eq⟩
  · rw [eq, ChaInput.mem_rtaResolve_iff]
    simp only [Dispatch.inherits_iff, Dispatch.directSubtype_eq, Dispatch.Below]
    rfl
  · simp [eq, Dispatch.Has, none]

/-- A table keyed for Lua has no descriptors. -/
theorem descriptor_of_lua {entry : SignatureKey × List Symbol}
    (mem : entry ∈ (build dispatch instantiatedClasses rta).resolvents)
    (lua : (build dispatch instantiatedClasses rta).language = .lua) : entry.1.2.2 = "" := by
  cases dispatch with
  | java | cil | unknown | native => cases lua
  | lua methods hierarchy =>
    simp only [build, ChaInput.runCha] at mem
    obtain ⟨id, row⟩ := ChaResolvents.exists_row_of_mem_collect mem
    obtain ⟨_, ⟨_, -, implemented⟩, -⟩ := ChaInput.mem_chaResolve_iff.mp row
    obtain ⟨_, -, same⟩ := List.mem_map.mp implemented
    exact (congrArg (·.2.2.1) same).symm

end ClassHierarchyAnalysis

end Ctadl.Codegen
