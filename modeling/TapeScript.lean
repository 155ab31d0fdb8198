import TapeScript.Tape.View
import TapeScript.Emit.Call
import TapeScript.Scope.Forest
import TapeScript.Lower.Part
import TapeScript.Measure.Coverage
import TapeScript.Measure.Round
import TapeScript.Measure.SelfCheck
import TapeScript.Measure.TimeShare
import TapeScript.Workload.Commands
import TapeScript.Workload.Gadgets
import TapeScript.Workload.Machines
import TapeScript.Workload.Scopes
import TapeScript.Main
import TapeScript.Proofs.Linking
import TapeScript.Proofs.MachineRun
import TapeScript.Proofs.Plain
import TapeScript.Proofs.Interpreters
import TapeScript.Proofs.Plan
import TapeScript.Proofs.Emission
import TapeScript.Proofs.GadgetPlans
import TapeScript.Proofs.Tracking
import TapeScript.Proofs.HeadTracking
import TapeScript.Proofs.GadgetRuns
import TapeScript.Proofs.Evaluation
import TapeScript.Proofs.NodeCode
import TapeScript.Proofs.NodeActions
import TapeScript.Proofs.Lowering
import TapeScript.Proofs.Rendering
import TapeScript.Proofs.Fuel
import TapeScript.Proofs.Compilation
import TapeScript.Proofs.ScratchUse
import TapeScript.Proofs.EmissionPairs
import TapeScript.Proofs.ScratchReturn
import TapeScript.Proofs.MachineInvariant
import TapeScript.Proofs.MemorySize
import TapeScript.Proofs.Relocation
import TapeScript.Proofs.PoolSize
import TapeScript.Proofs.Layout
import TapeScript.Proofs.Writing
import TapeScript.Proofs.ExprParsing
import TapeScript.Proofs.StmtParsing
import TapeScript.Proofs.Effects
import TapeScript.Proofs.Ownership
import TapeScript.Proofs.Tenancy
import TapeScript.Proofs.Renaming
import TapeScript.Proofs.Resolution
import TapeScript.Proofs.FlatScope
import TapeScript.Proofs.Supply
import TapeScript.Proofs.FoldedStores
import TapeScript.Proofs.DefineLines
import TapeScript.Proofs.DirectiveTokens
import TapeScript.Proofs.DirectiveParsing
import TapeScript.Proofs.Defines
import TapeScript.Proofs.ScratchHistory
import TapeScript.Proofs.CompileCommand
import TapeScript.Proofs.BasicScripts
import TapeScript.Proofs.Reuse
import TapeScript.Proofs.CodeEndings
import TapeScript.Proofs.GadgetSpecs
import TapeScript.Proofs.Combinators
import TapeScript.Proofs.Productions
import TapeScript.Proofs.TokenReadings
import TapeScript.Proofs.TreeNames
import TapeScript.Proofs.Derivations
import TapeScript.Proofs.Boundaries
import TapeScript.Proofs.ItemParsing
import TapeScript.Proofs.DerivedTrees
import TapeScript.Proofs.Acceptance
import TapeScript.Proofs.FirstFit
import TapeScript.Proofs.SymbolDefinition
import TapeScript.Proofs.Brackets
import TapeScript.Proofs.RunLengths
import TapeScript.Proofs.CellArithmetic
import TapeScript.Proofs.Inclusion
import TapeScript.Proofs.Quotients
