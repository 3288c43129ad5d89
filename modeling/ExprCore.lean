import ExprCore.Host.Classes
import ExprCore.Interner
import ExprCore.Interpreter
import ExprCore.Proofs.Invariants.Discipline
import ExprCore.Proofs.OperatorTyping
import ExprCore.Proofs.OptimizedClosures
import ExprCore.Proofs.OptimizedLiterals
import ExprCore.Proofs.OptimizedTrees
import ExprCore.Proofs.Invariants.Calls
import ExprCore.Proofs.Invariants.Places
import ExprCore.Proofs.Invariants.Nodes
import ExprCore.Proofs.Invariants.Requests
import ExprCore.Proofs.Contexts
import ExprCore.Proofs.LexicalAddressing
import ExprCore.Proofs.Building
import ExprCore.Proofs.FinalGlobals
import ExprCore.Proofs.DeclaredTypes
import ExprCore.Proofs.Translation.Computations
import ExprCore.Proofs.Translation.Evaluation
import ExprCore.Proofs.DeferredResolution
import ExprCore.Proofs.TypeOrder
import ExprCore.Proofs.Integers
import ExprCore.Proofs.Arithmetic
import ExprCore.Proofs.Interning
import ExprCore.Proofs.Joins
import ExprCore.Proofs.NormalForms
import ExprCore.Proofs.PlaceAccess
import ExprCore.Proofs.RepeatedResolution
import ExprCore.Proofs.Revision
import ExprCore.Proofs.StaticShape
import ExprCore.Proofs.UnalteredContainers
import ExprCore.Proofs.Increments
import ExprCore.Proofs.CompoundAssignment
import ExprCore.Proofs.TargetAddressing
import ExprCore.Proofs.Growth.Evaluation
import ExprCore.Proofs.Storage
import ExprCore.Proofs.Slices
import ExprCore.Proofs.RuntimeTypes
import ExprCore.Proofs.Ranges
import ExprCore.Proofs.Literals
import ExprCore.Proofs.RepeatedGlobals
import ExprCore.Proofs.Arguments
import ExprCore.Proofs.ContainerCycles
import ExprCore.Proofs.Dumps
import ExprCore.Proofs.EarlyReturns
import ExprCore.Proofs.SimplificationLoop
import ExprCore.Proofs.Numerals
import ExprCore.Proofs.ConstantRuns
import ExprCore.Proofs.OptimizationRuns
