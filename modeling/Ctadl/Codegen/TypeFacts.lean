import Ctadl.Facts.Basic
import Ctadl.Graph.Inheritance

/-! # What a method table says about types

The interfaces an import declares and the single-abstract-method ones among them. The count closes over an interface's
transitive super-interfaces and takes an implementation anywhere in the closure for one; Java asks which declaration
overrides which. The two differ where a sub-interface declares a default method abstract again.
-/

namespace Ctadl.Codegen

open Facts Relation Graph

/-- A simple name and a descriptor. -/
abbrev MethodKey := Symbol × Symbol

/-- The Java columns of a method table. -/
structure JavaTable where
  /-- Class, simple name, descriptor, method id; abstract declarations included. -/
  methods : List (Symbol × Symbol × Symbol × Symbol)
  /-- A class's superclass and super-interfaces. -/
  hierarchy : List (Symbol × List Symbol)
  interfaces : List Symbol
  abstractMethods : List (Symbol × Symbol × Symbol)
  /-- One list of parents for each class. -/
  keys : (hierarchy.map Prod.fst).Nodup
  /-- A method id is fully qualified. -/
  qualified : ∀ row ∈ methods, ∀ row' ∈ methods, row.2.2.2 = row'.2.2.2 → row = row'

def objectMethods : List MethodKey :=
  [("toString", "()Ljava/lang/String;"), ("equals", "(Ljava/lang/Object;)Z"), ("hashCode", "()I")]

structure TypeFacts where
  interfaces : List Symbol
  singleAbstractMethod : List Symbol

namespace JavaTable

variable (table : JavaTable)

/-- The abstract declarations of a type. -/
def declared (cls : Symbol) : List MethodKey := (table.abstractMethods.filter (·.1 = cls)).map fun row => (row.2.1, row.2.2)

/-- The declarations of a type that are not abstract. -/
def implemented (cls : Symbol) : List MethodKey :=
  ((table.methods.filter (·.1 = cls)).map fun row => (row.2.1, row.2.2.1)).filter (· ∉ table.declared cls)

/-- The parents of a type that the import declares to be interfaces. -/
def superInterfaces (cls : Symbol) : List Symbol := ((table.hierarchy.lookup cls).getD []).filter (· ∈ table.interfaces)

/-- An interface and its transitive super-interfaces. -/
def interfaceClosure (iface : Symbol) : List Symbol :=
  closeFrom table.superInterfaces (table.interfaces.length + 1) [iface] 0

/-- What is declared abstract in the closure, without what is implemented there and what every class inherits. -/
def abstracts (iface : Symbol) : List MethodKey :=
  let closure := table.interfaceClosure iface
  ((closure.flatMap table.declared).filter fun m => m ∉ closure.flatMap table.implemented ∧ m ∉ objectMethods).dedup

def typeFacts : TypeFacts where
  interfaces := table.interfaces
  singleAbstractMethod := table.interfaces.filter fun iface => (table.abstracts iface).length = 1

/-! ## Java's rule -/

/-- A parent that the import declares to be an interface. -/
def SuperInterface (sub sup : Symbol) : Prop := sup ∈ table.superInterfaces sub

/-- The type has a declaration of the method, abstract or not. -/
def Declares (m : MethodKey) (cls : Symbol) : Prop := m ∈ table.declared cls ∨ m ∈ table.implemented cls

/-- Some most specific declaration of the method is abstract. -/
def AbstractIn (iface : Symbol) (m : MethodKey) : Prop :=
  ∃ cls, MostSpecific table.SuperInterface (table.Declares m) iface cls ∧ m ∈ table.declared cls

/-- Exactly one method is abstract, those of every class not counted. -/
def Functional (iface : Symbol) : Prop := ∃! m, m ∉ objectMethods ∧ table.AbstractIn iface m

/-- Declared abstract by the interface or a super-interface, and implemented by none of them. -/
def NowhereImplemented (iface : Symbol) (m : MethodKey) : Prop :=
  m ∉ objectMethods ∧ (∃ cls, ReflTransGen table.SuperInterface iface cls ∧ m ∈ table.declared cls) ∧
    ∀ cls, ReflTransGen table.SuperInterface iface cls → m ∉ table.implemented cls

/-- A most specific declaration is abstract although another type of the closure implements the method. -/
def Reabstracted (iface : Symbol) (m : MethodKey) : Prop :=
  m ∉ objectMethods ∧ table.AbstractIn iface m ∧
    ∃ cls, ReflTransGen table.SuperInterface iface cls ∧ m ∈ table.implemented cls

section Closure

variable {table} {iface cls : Symbol} {m : MethodKey}

theorem mem_interfaces_of_superInterface (edge : table.SuperInterface iface cls) : cls ∈ table.interfaces := by
  have kept := (List.mem_filter.mp edge).2
  simpa using kept

theorem mem_interfaceClosure : cls ∈ table.interfaceClosure iface ↔ ReflTransGen table.SuperInterface iface cls := by
  apply mem_closeFrom_iff (iface :: table.interfaces)
  · intro x reached
    rcases reached.cases_tail with rfl | ⟨y, -, edge⟩
    · exact List.mem_cons_self
    · exact List.mem_cons_of_mem _ (mem_interfaces_of_superInterface edge)
  · exact le_rfl

theorem finite_closure : {cls | ReflTransGen table.SuperInterface iface cls}.Finite := by
  apply (table.interfaceClosure iface).finite_toSet.subset
  intro cls reached
  exact mem_interfaceClosure.mpr reached

/-- What the count counts. -/
theorem mem_abstracts : m ∈ table.abstracts iface ↔ table.NowhereImplemented iface m := by
  simp only [abstracts, List.mem_dedup, List.mem_filter, List.mem_flatMap, mem_interfaceClosure, NowhereImplemented,
    decide_eq_true_eq, not_exists, not_and]
  tauto

/-- A method is abstract in an interface if it is implemented nowhere, or declared abstract again. -/
theorem abstractIn_iff (counted : m ∉ objectMethods) :
    table.AbstractIn iface m ↔ table.NowhereImplemented iface m ∨ table.Reabstracted iface m := by
  constructor
  · intro abstract
    obtain ⟨cls, specific, declared⟩ := abstract
    by_cases implemented : ∃ cls, ReflTransGen table.SuperInterface iface cls ∧ m ∈ table.implemented cls
    · exact .inr ⟨counted, ⟨cls, specific, declared⟩, implemented⟩
    · exact .inl ⟨counted, ⟨cls, specific.above, declared⟩, fun cls above here => implemented ⟨cls, above, here⟩⟩
  · rintro (⟨-, ⟨cls, above, declared⟩, nowhere⟩ | reabstracted)
    · apply MostSpecific.exists_of_forall finite_closure above (.inl declared)
      rintro d above (abstract | implemented)
      · exact abstract
      · exact absurd implemented (nowhere d above)
    · exact reabstracted.2.1

theorem not_reabstracted (nowhere : table.NowhereImplemented iface m) : ¬ table.Reabstracted iface m := by
  rintro ⟨-, -, cls, above, implemented⟩
  exact nowhere.2.2 cls above implemented

private theorem existsUnique_iff_or {α : Type*} {p q : α → Prop} (apart : ∀ a, p a → ¬ q a) :
    ((∃! a, p a) ↔ ∃! a, p a ∨ q a) ↔
      (∀ a, ¬ q a) ∨ (∃ a b, a ≠ b ∧ p a ∧ p b) ∨ (∀ a, ¬ p a) ∧ ∃ a b, a ≠ b ∧ q a ∧ q b := by
  constructor
  · intro same
    by_cases some : ∃ b, q b
    · obtain ⟨b, held⟩ := some
      right
      by_cases other : ∃ a, p a
      · left
        obtain ⟨a, here⟩ := other
        by_contra single
        have unique : ∃! a, p a := ⟨a, here, fun a' there => by_contra fun ne => single ⟨a', a, ne, there, here⟩⟩
        obtain rfl : a = b := (same.mp unique).unique (.inl here) (.inr held)
        exact apart a here held
      · right
        refine ⟨fun a here => other ⟨a, here⟩, ?_⟩
        by_contra single
        have unique : ∃! a, p a ∨ q a := by
          refine ⟨b, .inr held, ?_⟩
          rintro a (here | there)
          · exact absurd ⟨a, here⟩ other
          · exact by_contra fun ne => single ⟨a, b, ne, there, held⟩
        obtain ⟨a, here, -⟩ := same.mpr unique
        exact other ⟨a, here⟩
    · exact .inl fun a held => some ⟨a, held⟩
  · rintro (none | ⟨a, b, ne, here, there⟩ | ⟨none, a, b, ne, here, there⟩)
    · have drop : (fun a => p a ∨ q a) = p := funext fun a => propext (or_iff_left (none a))
      rw [show (∃! a, p a ∨ q a) ↔ ∃! a, p a from iff_of_eq (congrArg ExistsUnique drop)]
    · exact iff_of_false (fun unique => ne (unique.unique here there)) fun unique => ne (unique.unique (.inl here) (.inl there))
    · exact iff_of_false (fun ⟨a, here, _⟩ => none a here) fun unique => ne (unique.unique (.inr here) (.inr there))

theorem mem_singleAbstractMethod (declared : iface ∈ table.interfaces) :
    iface ∈ table.typeFacts.singleAbstractMethod ↔ ∃! m, table.NowhereImplemented iface m := by
  rw [typeFacts, List.mem_filter, decide_eq_true_eq, and_iff_right declared, List.length_eq_one_iff]
  have nodup : (table.abstracts iface).Nodup := List.nodup_dedup _
  constructor
  · rintro ⟨m, single⟩
    have members {m' : MethodKey} : table.NowhereImplemented iface m' ↔ m' = m := by
      rw [← mem_abstracts, single, List.mem_singleton]
    exact ⟨m, members.mpr rfl, fun m' => members.mp⟩
  · rintro ⟨m, here, unique⟩
    refine ⟨m, List.perm_singleton.mp ((List.perm_ext_iff_of_nodup nodup (List.nodup_singleton m)).mpr fun m' => ?_)⟩
    rw [mem_abstracts, List.mem_singleton]
    exact ⟨unique m', fun same => same ▸ here⟩

theorem functional_iff : table.Functional iface ↔
    ∃! m, table.NowhereImplemented iface m ∨ table.Reabstracted iface m := by
  apply iff_of_eq
  apply congrArg ExistsUnique
  funext m
  apply propext
  constructor
  · rintro ⟨counted, abstract⟩
    exact (abstractIn_iff counted).mp abstract
  · rintro (nowhere | again)
    · exact ⟨nowhere.1, (abstractIn_iff nowhere.1).mpr (.inl nowhere)⟩
    · exact ⟨again.1, again.2.1⟩

end Closure

/-- An interface is listed as Java's rule has it exactly if it declares nothing abstract again, or other methods decide: two
are implemented nowhere, or none is and two are abstract again. -/
theorem listed_iff_functional_iff (iface : Symbol) (declared : iface ∈ table.interfaces) :
    (iface ∈ table.typeFacts.singleAbstractMethod ↔ table.Functional iface) ↔
      (∀ m, ¬ table.Reabstracted iface m) ∨
      (∃ m m', m ≠ m' ∧ table.NowhereImplemented iface m ∧ table.NowhereImplemented iface m') ∨
      (∀ m, ¬ table.NowhereImplemented iface m) ∧ ∃ m m', m ≠ m' ∧ table.Reabstracted iface m ∧ table.Reabstracted iface m' := by
  rw [mem_singleAbstractMethod declared, functional_iff]
  exact existsUnique_iff_or fun m => not_reabstracted

/-- `LI;` inherits the one method of `LBase;`. -/
theorem listed_iff_functional_inherited :
    let table : JavaTable := ⟨[("LBase;", "get", "()V", "LBase;->get()V")], [("LI;", ["LBase;"])], ["LBase;", "LI;"],
      [("LBase;", "get", "()V")], by decide, by decide⟩
    ("LI;" ∈ table.typeFacts.singleAbstractMethod ↔ table.Functional "LI;") ↔
      (∀ m, ¬ table.Reabstracted "LI;" m) ∨
      (∃ m m', m ≠ m' ∧ table.NowhereImplemented "LI;" m ∧ table.NowhereImplemented "LI;" m') ∨
      (∀ m, ¬ table.NowhereImplemented "LI;" m) ∧ ∃ m m', m ≠ m' ∧ table.Reabstracted "LI;" m ∧ table.Reabstracted "LI;" m' :=
  listed_iff_functional_iff _ "LI;" (by decide)

/-- `LBase;` has a default method that `LI;` declares abstract again. -/
def reabstracting : JavaTable where
  methods := [("LBase;", "run", "()V", "LBase;->run()V"), ("LI;", "run", "()V", "LI;->run()V")]
  hierarchy := [("LI;", ["LBase;"])]
  interfaces := ["LBase;", "LI;"]
  abstractMethods := [("LI;", "run", "()V")]
  keys := by decide
  qualified := by decide

/-- One method of `LI;` is abstract, and `LI;` is not listed. -/
theorem not_listed_of_reabstracted : ¬ ∀ (table : JavaTable), ∀ iface ∈ table.interfaces,
    (iface ∈ table.typeFacts.singleAbstractMethod ↔ table.Functional iface) := by
  intro functional
  have closure {cls : Symbol} (above : ReflTransGen reabstracting.SuperInterface "LI;" cls) : cls = "LI;" ∨ cls = "LBase;" := by
    have member : cls ∈ ["LI;", "LBase;"] := mem_interfaceClosure.mpr above
    simpa using member
  have specific : MostSpecific reabstracting.SuperInterface (reabstracting.Declares ("run", "()V")) "LI;" "LI;" := by
    refine ⟨.refl, .inl (by decide), fun d above _ _ => above⟩
  have abstract : reabstracting.Functional "LI;" := by
    refine ⟨("run", "()V"), ⟨by decide, "LI;", specific, by decide⟩, ?_⟩
    rintro m ⟨-, cls, other, declared⟩
    rcases closure other.above with rfl | rfl
    · have member : m ∈ [("run", "()V")] := declared
      exact List.mem_singleton.mp member
    · have member : m ∈ ([] : List MethodKey) := declared
      exact nomatch member
  have listed : "LI;" ∈ reabstracting.typeFacts.singleAbstractMethod := (functional reabstracting "LI;" (by decide)).mpr abstract
  exact absurd listed (by decide)

end JavaTable

end Ctadl.Codegen
