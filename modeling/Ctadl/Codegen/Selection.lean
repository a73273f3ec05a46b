import Ctadl.Codegen.Cha

/-! # Dynamic dispatch against the resolvent tables

What the runtime selects for an object, stated over the method table: the nearest declaration on the class
chain, and without one a maximally specific declaration of a superinterface. The selected method is a
resolvent of every static type above the object's class, on every hierarchy, cyclic ones included.
-/

namespace Ctadl.Codegen

open Facts Relation

/-- Which parents of a table are superclasses and which are interfaces. -/
structure Lineage (dispatch : Dispatch) where
  superclass : Symbol → Option Symbol
  superclass_edge : ∀ c sup, superclass c = some sup → dispatch.Edge c sup
  isInterface : Symbol → Prop

namespace Lineage

variable {dispatch : Dispatch} (lineage : Lineage dispatch)

/-- One step up the superclass chain. -/
def Extends (c sup : Symbol) : Prop := lineage.superclass c = some sup

/-- One step to a direct superinterface. -/
def Implements (c iface : Symbol) : Prop := dispatch.Edge c iface ∧ lineage.isInterface iface

/-- The nearest declaration on the superclass chain. -/
inductive Nearest (m d id : Symbol) : Symbol → Prop
  | here {c} (row : (c, m, d, id) ∈ dispatch.implemented) : Nearest m d id c
  | up {c sup} (own : ¬ dispatch.Declares c m d) (parent : lineage.Extends c sup) (above : Nearest m d id sup) :
      Nearest m d id c

/-- A superinterface of a class: one implemented by a class of its chain, or a superinterface of that one. -/
def Superinterface (c iface : Symbol) : Prop :=
  ∃ sup, ReflTransGen lineage.Extends c sup ∧ TransGen lineage.Implements sup iface

/-- A declaration in a superinterface with no declaration in a subinterface of it. -/
def MaximallySpecific (c m d id : Symbol) : Prop :=
  ∃ iface, lineage.Superinterface c iface ∧ (iface, m, d, id) ∈ dispatch.implemented ∧
    ∀ sub, lineage.Superinterface c sub → dispatch.Declares sub m d → TransGen lineage.Implements sub iface →
      sub = iface

/-- The method selected for an object of the class. -/
def Selects (c m d id : Symbol) : Prop :=
  lineage.Nearest m d id c ∨
    (∀ sup, ReflTransGen lineage.Extends c sup → ¬ dispatch.Declares sup m d) ∧ lineage.MaximallySpecific c m d id

variable {lineage} {c m d id : Symbol}

theorem Nearest.has (nearest : lineage.Nearest m d id c) : dispatch.Has c m d id := by
  induction nearest with
  | here row => exact ⟨_, .refl, row⟩
  | up own parent _ ih =>
    obtain ⟨e, path, row⟩ := ih
    exact ⟨e, .head ⟨lineage.superclass_edge _ _ parent, own⟩ path, row⟩

/-- A chain without declarations inherits what its last class has. -/
theorem has_of_chain {sup : Symbol}
    (undeclared : ∀ sup, ReflTransGen lineage.Extends c sup → ¬ dispatch.Declares sup m d)
    (chain : ReflTransGen lineage.Extends c sup) (above : dispatch.Has sup m d id) : dispatch.Has c m d id := by
  induction chain using ReflTransGen.head_induction_on with
  | refl => exact above
  | head parent _ ih =>
    obtain ⟨e, path, row⟩ := ih fun sup chain => undeclared sup (.head parent chain)
    exact ⟨e, .head ⟨lineage.superclass_edge _ _ parent, undeclared _ .refl⟩ path, row⟩

theorem MaximallySpecific.has (undeclared : ∀ sup, ReflTransGen lineage.Extends c sup → ¬ dispatch.Declares sup m d)
    (specific : lineage.MaximallySpecific c m d id) : dispatch.Has c m d id := by
  obtain ⟨iface, ⟨sup, chain, implements⟩, row, only⟩ := specific
  -- from a superinterface upwards a declaration on the way can only be `iface` itself
  have fromInterface : ∀ {i}, ReflTransGen lineage.Implements i iface → lineage.Superinterface c i →
      dispatch.Has i m d id := by
    intro i path
    induction path using ReflTransGen.head_induction_on with
    | refl => exact fun _ => ⟨_, .refl, row⟩
    | @head i next step rest ih =>
      intro ⟨sup, chain, above⟩
      by_cases declares : dispatch.Declares i m d
      · obtain rfl := only i ⟨sup, chain, above⟩ declares (.head' step rest)
        exact ⟨_, .refl, row⟩
      · obtain ⟨e, path, row⟩ := ih ⟨sup, chain, above.tail step⟩
        exact ⟨e, .head ⟨step.1, declares⟩ path, row⟩
  obtain ⟨first, step, rest⟩ := TransGen.head'_iff.mp implements
  have fromClass : dispatch.Has sup m d id := by
    obtain ⟨e, path, row⟩ := fromInterface rest ⟨sup, chain, .single step⟩
    exact ⟨e, .head ⟨step.1, undeclared sup chain⟩ path, row⟩
  exact has_of_chain undeclared chain fromClass

theorem Selects.has (selects : lineage.Selects c m d id) : dispatch.Has c m d id := by
  rcases selects with nearest | ⟨undeclared, specific⟩
  · exact nearest.has
  · exact specific.has undeclared

end Lineage

/-- The resolvents contain what the runtime selects and nothing a subtype does not reach undisturbed; they grow
with the type, and the restricted table is the part of them that allocated subtypes carry. -/
theorem resolvents_contain_selected (dispatch : Dispatch) (instantiatedClasses : List Symbol) (rta : Bool)
    (lineage : Lineage dispatch) (c m d : Symbol) :
    let cha := ClassHierarchyAnalysis.build dispatch instantiatedClasses rta
    (∀ sub id, dispatch.Below sub c → lineage.Selects sub m d id → id ∈ cha.javaResolvents c m d) ∧
    (∀ id ∈ cha.javaResolvents c m d, ∃ sub e, dispatch.Below sub c ∧
      ReflTransGen (dispatch.Passes m d) sub e ∧ (e, m, d, id) ∈ dispatch.implemented) ∧
    (∀ sub, dispatch.Below sub c → cha.javaResolvents sub m d ⊆ cha.javaResolvents c m d) ∧
    cha.javaRtaResolvents c m d ⊆ cha.javaResolvents c m d ∧
    ∀ id, id ∈ cha.javaRtaResolvents c m d ↔
      rta ∧ ∃ sub ∈ instantiatedClasses, dispatch.Below sub c ∧ dispatch.Has sub m d id := by
  intro cha
  refine ⟨?_, ?_, ?_, ?_, ?_⟩
  · intro sub id below selects
    exact ClassHierarchyAnalysis.mem_javaResolvents_iff.mpr ⟨sub, selects.has, below⟩
  · intro id mem
    obtain ⟨sub, ⟨e, path, row⟩, below⟩ := ClassHierarchyAnalysis.mem_javaResolvents_iff.mp mem
    exact ⟨sub, e, below, path, row⟩
  · intro sub below id mem
    obtain ⟨sub', has, below'⟩ := ClassHierarchyAnalysis.mem_javaResolvents_iff.mp mem
    exact ClassHierarchyAnalysis.mem_javaResolvents_iff.mpr ⟨sub', has, below'.trans below⟩
  · intro id mem
    obtain ⟨-, sub, -, has, below⟩ := ClassHierarchyAnalysis.mem_javaRtaResolvents_iff.mp mem
    exact ClassHierarchyAnalysis.mem_javaResolvents_iff.mpr ⟨sub, has, below⟩
  · intro id
    simp only [cha, ClassHierarchyAnalysis.mem_javaRtaResolvents_iff, and_comm]

end Ctadl.Codegen
