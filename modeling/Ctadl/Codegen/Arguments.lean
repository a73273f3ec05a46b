import Ctadl.Cir.Program
import Ctadl.Facts.Basic

/-! # What a call passes

The `actual_param` rows of a call statement: the receiver of a Java or CIL call is put in front of the arguments,
an argument flows under its position, and return values under the negative indices. A literal or an object is
no vertex and passes nothing here.
-/

namespace Ctadl.Codegen

open Cir Facts

variable {O : Type}

/-- The arguments with the receiver codegen inserts. A Lua receiver is among the arguments already. -/
def passedArguments : CallStyle O → List (Exp O) → List (Exp O)
  | .javaCall receiver .., args | .cilCall receiver .., args => .path (.ofRef receiver) :: args
  | _, args => args

/-- The largest index of an argument, the negative half being reserved for the engine. -/
def MAX_FORMAL_INDEX : ℕ := 32767

/-- The rows a call statement passes its operands by: formal index and vertex. -/
def actualParam : Statement O → List (FormalIndex × AccessPath O)
  | .callAssign _ style rets args =>
    (((passedArguments style args).take (MAX_FORMAL_INDEX + 1)).zipIdx.filterMap fun (arg, i) =>
      arg.accessPath.map fun ap => ((i : FormalIndex), ap)) ++
      rets.zipIdx.map fun (ret, i) => (-((i : FormalIndex) + 1), .ofRef ret)
  | _ => []

/-- Where every argument is a vertex, the argument at a position is passed under that position. -/
theorem mem_actualParam_iff {info : ℕ} {style : CallStyle O} {rets : List VariableRef} {args : List (Exp O)}
    {i : FormalIndex} {ap : AccessPath O} (few : (passedArguments style args).length ≤ MAX_FORMAL_INDEX + 1) :
    (i, ap) ∈ actualParam (.callAssign info style rets args) ↔
      (∃ n : ℕ, i = n ∧ ∃ arg, (passedArguments style args)[n]? = some arg ∧ arg.accessPath = some ap) ∨
        ∃ n : ℕ, i = -((n : Int) + 1) ∧ ∃ ret, rets[n]? = some ret ∧ ap = .ofRef ret := by
  simp only [actualParam, List.take_of_length_le few, List.mem_append, List.mem_filterMap, List.mem_map,
    Option.map_eq_some_iff, Prod.exists, List.mem_zipIdx_iff_getElem?, Prod.mk.injEq]
  constructor
  · rintro (⟨arg, n, at_n, vertex, some_vertex, rfl, rfl⟩ | ⟨ret, n, at_n, rfl, rfl⟩)
    · exact .inl ⟨n, rfl, arg, at_n, some_vertex⟩
    · exact .inr ⟨n, rfl, ret, at_n, rfl⟩
  · rintro (⟨n, rfl, arg, at_n, some_vertex⟩ | ⟨n, rfl, ret, at_n, rfl⟩)
    · exact .inl ⟨arg, n, at_n, ap, some_vertex, rfl, rfl⟩
    · exact .inr ⟨ret, n, at_n, rfl, rfl⟩

end Ctadl.Codegen
