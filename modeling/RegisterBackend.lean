import RegisterBackend.Bytecode.Basic
import RegisterBackend.Bytecode.Instruction
import RegisterBackend.Bytecode.Listing
import RegisterBackend.Compile
import RegisterBackend.CompileError
import RegisterBackend.Failure
import RegisterBackend.Graph.Basic
import RegisterBackend.Graph.Node
import RegisterBackend.Graph.Reach
import RegisterBackend.Lowering.Basic
import RegisterBackend.Lowering.Bindings
import RegisterBackend.Lowering.Emitter
import RegisterBackend.Machine.Basic
import RegisterBackend.Machine.Registers
import RegisterBackend.Machine.Sink
import RegisterBackend.Names
import RegisterBackend.Operator
import RegisterBackend.Pipeline
import RegisterBackend.Program.Basic
import RegisterBackend.Program.Builder
import RegisterBackend.Program.Check
import RegisterBackend.Program.Error
import RegisterBackend.Program.Outline
import RegisterBackend.Proofs.ArrayValues
import RegisterBackend.Proofs.BlockExit
import RegisterBackend.Proofs.BoundNames
import RegisterBackend.Proofs.BranchIsolation
import RegisterBackend.Proofs.BuilderClients
import RegisterBackend.Proofs.Cells
import RegisterBackend.Proofs.CheckSteps
import RegisterBackend.Proofs.Command
import RegisterBackend.Proofs.CompileErrors
import RegisterBackend.Proofs.DefiniteAssignment
import RegisterBackend.Proofs.EmptyRegisters
import RegisterBackend.Proofs.Evaluation
import RegisterBackend.Proofs.Events
import RegisterBackend.Proofs.FailedOperations
import RegisterBackend.Proofs.FoldedArrays
import RegisterBackend.Proofs.Folding
import RegisterBackend.Proofs.FunctionRecords
import RegisterBackend.Proofs.GraphEdges
import RegisterBackend.Proofs.GraphTrees
import RegisterBackend.Proofs.Grounded
import RegisterBackend.Proofs.KindChecking
import RegisterBackend.Proofs.KnowledgeFrames
import RegisterBackend.Proofs.KnowledgeViews
import RegisterBackend.Proofs.LabelConsistency
import RegisterBackend.Proofs.Layout
import RegisterBackend.Proofs.ListingLines
import RegisterBackend.Proofs.ListingRoundTrip
import RegisterBackend.Proofs.LockstepTraces
import RegisterBackend.Proofs.LoopCarried
import RegisterBackend.Proofs.LowerCommand
import RegisterBackend.Proofs.Lowerable
import RegisterBackend.Proofs.MachineSteps
import RegisterBackend.Proofs.MirroredEdges
import RegisterBackend.Proofs.NestedKnowledge
import RegisterBackend.Proofs.NodeSharing
import RegisterBackend.Proofs.OptimizedCompilation
import RegisterBackend.Proofs.OwnedRegisters
import RegisterBackend.Proofs.ParallelCopies
import RegisterBackend.Proofs.PipelineAgreement
import RegisterBackend.Proofs.Placement
import RegisterBackend.Proofs.PropagatedTrees
import RegisterBackend.Proofs.PropagationEffects
import RegisterBackend.Proofs.PropagationInvariants
import RegisterBackend.Proofs.PropagationKinds
import RegisterBackend.Proofs.PropagationMeaning
import RegisterBackend.Proofs.PropagationPoints
import RegisterBackend.Proofs.PropagationSteps
import RegisterBackend.Proofs.PropagationTraces
import RegisterBackend.Proofs.ReachableNodes
import RegisterBackend.Proofs.Readings
import RegisterBackend.Proofs.Rechecking
import RegisterBackend.Proofs.Reference
import RegisterBackend.Proofs.Refolding
import RegisterBackend.Proofs.RegisterNumbering
import RegisterBackend.Proofs.Restating
import RegisterBackend.Proofs.Rewriting
import RegisterBackend.Proofs.ScalarPrograms
import RegisterBackend.Proofs.ScopedMaps
import RegisterBackend.Proofs.Sequencing
import RegisterBackend.Proofs.SharedPropagation
import RegisterBackend.Proofs.Simulation
import RegisterBackend.Proofs.SoundGraphs
import RegisterBackend.Proofs.StepCeilings
import RegisterBackend.Proofs.StoppedPropagation
import RegisterBackend.Proofs.StraightLine
import RegisterBackend.Proofs.Substitution
import RegisterBackend.Proofs.UnboundReads
import RegisterBackend.Proofs.Unfolding
import RegisterBackend.Proofs.Unshared
import RegisterBackend.Propagation.Assigned
import RegisterBackend.Propagation.Basic
import RegisterBackend.Propagation.Knowledge
import RegisterBackend.Stack
import RegisterBackend.Text.Blank
import RegisterBackend.Text.Numeral
import RegisterBackend.Text.Quoted
import RegisterBackend.Text.Split
import RegisterBackend.Value
