import Ctadl.Index.GlobalLabels
import Ctadl.Semantics.Bounds
import Ctadl.Ssa.CopyFlow
import Ctadl.Codegen.Selection
import Ctadl.Jvm.Arguments
import Ctadl.Codegen.Deferred
import Ctadl.Jni.Attribution
import Ctadl.Index.CondVersions
import Ctadl.Cil.ControlFlow
import Ctadl.Dex.ControlFlow
import Ctadl.Jvm.ControlFlow
import Ctadl.Moves.Lowering
import Ctadl.Immortal.Bijection
import Ctadl.Ssa.Form
import Ctadl.Hybrid.HybridSet
import Ctadl.Graph.DominanceFrontier
import Ctadl.Facts.PackedVariable
import Ctadl.Facts.PathTable
import Ctadl.Facts.PathArithmetic
import Ctadl.Index.SliceConditions
import Ctadl.Dex.Strings
import Ctadl.Pcode.Execution
import Ctadl.Codegen.SuperResolution
import Ctadl.Portcullis.Access
import Ctadl.Query.ValueEndpoints
import Ctadl.Portcullis.Printing
import Ctadl.Query.ResultOrder
import Ctadl.Graph.BreadthFirst
import Ctadl.Ssa.Prune
import Ctadl.Trie.Subset
import Ctadl.Jni.Linking
import Ctadl.Cil.OperandStack
import Ctadl.Cil.EntryStacks
import Ctadl.Cil.TypeGrammar
import Ctadl.Facts.PathRanks
