import Explore.CudaBellmanford.Batches
import Explore.CudaBellmanford.Iterations
import Explore.CudaBellmanford.Kernel
import Explore.Galton.Completion
import Explore.Galton.EventBus
import Explore.Galton.Location
import Explore.Galton.Outstanding
import Explore.Galton.Points
import Explore.Galton.SimControl
import Explore.Lib.ByteMemory
import Explore.Lib.Capacity
import Explore.Lib.CountedResource
import Explore.Lib.Footprint
import Explore.Lib.Fuel
import Explore.Lib.LinearProbe
import Explore.Lib.LinkedMap
import Explore.Lib.MixedRadix
import Explore.Lib.Outcome
import Explore.Lib.Peg
import Explore.Lib.Pending
import Explore.Lib.StraightLine
import Explore.Lib.WrappingCounter
import Explore.Lib.ZeroByte
import Explore.OneBrc.Aggregation
import Explore.OneBrc.ByteRange
import Explore.OneBrc.ExactlyOnce
import Explore.OneBrc.Hashtable
import Explore.OneBrc.HashtableEntry
import Explore.OneBrc.HashtableGrowth
import Explore.OneBrc.HashtableLedger
import Explore.OneBrc.HashtableResult
import Explore.OneBrc.HashtableRuns
import Explore.OneBrc.HashtableSlots
import Explore.OneBrc.ParserAgreement
import Explore.OneBrc.Partition
import Explore.OneBrc.Reads
import Explore.OneBrc.ShardQueue
import Explore.OneBrc.ShardSums
import Explore.OneBrc.Swar
import Explore.OneBrc.Table
import Explore.OneBrc.Tracing
import Explore.OneBrc.Unsafely
import Explore.SpscQueue.Fifo
import Explore.SpscQueue.Mixed
import Explore.Takehome.Acceptance
import Explore.Takehome.Agreement
import Explore.Takehome.Assembly
import Explore.Takehome.Ast
import Explore.Takehome.Branches
import Explore.Takehome.Bundles
import Explore.Takehome.ConstantsFound
import Explore.Takehome.Cycles
import Explore.Takehome.DataModel
import Explore.Takehome.Declared
import Explore.Takehome.Dependencies
import Explore.Takehome.Dialects
import Explore.Takehome.Effects
import Explore.Takehome.Estimate
import Explore.Takehome.Grammar
import Explore.Takehome.Hazards
import Explore.Takehome.InstrGraph
import Explore.Takehome.IssuedOnce
import Explore.Takehome.Lowering
import Explore.Takehome.LoweringMeans
import Explore.Takehome.Meaning
import Explore.Takehome.Moves
import Explore.Takehome.Optimize
import Explore.Takehome.Packer
import Explore.Takehome.PackerInv
import Explore.Takehome.PackerLoops
import Explore.Takehome.PackerSpec
import Explore.Takehome.PackerSplits
import Explore.Takehome.Parser
import Explore.Takehome.ParserComplete
import Explore.Takehome.ParserProgram
import Explore.Takehome.ParserStatements
import Explore.Takehome.ParserTokens
import Explore.Takehome.PieceEffects
import Explore.Takehome.Rendering
import Explore.Takehome.Reordering
import Explore.Takehome.RoundTrip
import Explore.Takehome.Simulation
import Explore.Takehome.Slots
import Explore.Takehome.Splitting
import Explore.Takehome.Start
import Explore.Takehome.Statements
import Explore.Takehome.Tidxlen
import Explore.Takehome.Typing
import Explore.VTestRunner.ClassParams
import Explore.VTestRunner.Filter
import Explore.VTestRunner.Jvm
import Explore.VTestRunner.MethodParamContext
import Explore.VTestRunner.MethodParams
import Explore.VTestRunner.SharedRules
import Explore.Takehome.Reference
import Explore.Lib.Lines
import Explore.Takehome.Blocks
import Explore.Takehome.Lanes
import Explore.Takehome.ParsedProgram
import Explore.Takehome.Template
import Explore.Takehome.TemplateMeans
import Explore.Takehome.ProgramText
import Explore.Takehome.KernelLanes
import Explore.Takehome.Kernel
import Explore.Takehome.KernelRuns
