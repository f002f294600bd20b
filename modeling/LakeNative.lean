import LakeNative.Library.Transitions
import LakeNative.Library.DenseArray
import LakeNative.Library.SlotPool
import LakeNative.Library.Ring
import LakeNative.Library.PerfectHash
import LakeNative.Library.KeyedChoice
import LakeNative.Library.KnownFacts
import LakeNative.Library.NumberedCode
import LakeNative.Library.FragmentEnds
import LakeNative.Library.ComparedCode
import LakeNative.Library.Regions
import LakeNative.Library.LinkedList
import LakeNative.Library.Bitmap
import LakeNative.Runtime.HeapArray
import LakeNative.Runtime.PidTable
import LakeNative.Runtime.PidTablePool
import LakeNative.Runtime.PidTableRuns
import LakeNative.Runtime.ShedulerCtx
import LakeNative.Runtime.Queues
import LakeNative.Runtime.Mailbox
import LakeNative.Compiler.Ast
import LakeNative.Compiler.BranchState
import LakeNative.Compiler.CallHash
import LakeNative.Compiler.Registry
import LakeNative.Compiler.ArgSlots
import LakeNative.Compiler.Mphf
import LakeNative.Compiler.GuardSelect
import LakeNative.Compiler.WaitExpr
import LakeNative.Compiler.PureExpr
import LakeNative.Compiler.Blocks
import LakeNative.Compiler.WhenExpr
import LakeNative.Compiler.Pipeline
import LakeNative.Compiler.Unroll
import LakeNative.Compiler.Machine
import LakeNative.Compiler.WaitDispatch
import LakeNative.Compiler.Derivation
import LakeNative.Compiler.FoldPlaces
import LakeNative.Compiler.FrameSize
import LakeNative.Compiler.Scoping
import LakeNative.Compiler.NameScopes
import LakeNative.Compiler.Meaning
import LakeNative.Compiler.Fragments
import LakeNative.Compiler.Nesting
import LakeNative.Compiler.Entries
import LakeNative.Control.WaitChoice
import LakeNative.Control.WaitBinding
import LakeNative.Control.FusedSelf
import LakeNative.Control.StringWhen
import LakeNative.Control.ReductionBudget
import LakeNative.Runtime.Placement
import LakeNative.Runtime.System
import LakeNative.Runtime.SystemInvariant
import LakeNative.Runtime.Memory
import LakeNative.Runtime.BucketAllocator
import LakeNative.Scheduler.ActorPlacement
import LakeNative.Scheduler.Capacity
import LakeNative.Scheduler.OverwrittenHeader
import LakeNative.Scheduler.Fairness
import LakeNative.Messaging.MailSteps
import LakeNative.Messaging.Delivery
import LakeNative.Messaging.WakeUp
import LakeNative.Messaging.FilteredWaits
import LakeNative.Dispatch.GuardReading
import LakeNative.Dispatch.GuardDispatch
import LakeNative.Dispatch.TypeDispatch
import LakeNative.Allocators.BucketRuns
import LakeNative.Allocators.BucketInvariant
import LakeNative.Allocators.BucketSafety
import LakeNative.Allocators.ReleasedPages
import LakeNative.Allocators.AllocationFrame
import LakeNative.Runtime.GrowArray
import LakeNative.Allocators.LiveMemory
import LakeNative.Scheduler.ArrayGrowth
import LakeNative.Runtime.SlabAllocator
import LakeNative.Allocators.SlabRuns
import LakeNative.Allocators.SlabInvariant
import LakeNative.Allocators.SlabCreation
import LakeNative.Allocators.SlabSafety
import LakeNative.Runtime.ZeroedAllocate
import LakeNative.Allocators.ZeroedBuckets
import LakeNative.Allocators.ZeroedSlabs
import LakeNative.Allocators.ZeroedMemory
import LakeNative.Runtime.FatPtr
import LakeNative.Memory.BoundsChecks
import LakeNative.Memory.VariableFrame
import LakeNative.Memory.FrameBases
import LakeNative.Memory.CountedFrames
import LakeNative.Memory.FrameSizing
import LakeNative.Memory.VariableReads
import LakeNative.Memory.LexicalScoping
import LakeNative.Memory.NameReferences
import LakeNative.Memory.NamedScopes
import LakeNative.Memory.LoopScoping
import LakeNative.Memory.BranchScoping
import LakeNative.Runtime.CompletionQueue
import LakeNative.Io.CompletionBookkeeping
import LakeNative.Runtime.SubmissionQueue
import LakeNative.Io.SubmissionAccounting
import LakeNative.Runtime.SchedulerLoop
import LakeNative.Io.WholeLoop
import LakeNative.Library.Patches
import LakeNative.Runtime.Arena
import LakeNative.Arenas.Slices
import LakeNative.Arenas.Recopy
import LakeNative.Arenas.CopiedArguments
import LakeNative.Arenas.HeldBuffers
import LakeNative.Control.GuardedSelf
import LakeNative.Runtime.SharedArena
import LakeNative.Arenas.Carving
import LakeNative.Runtime.Exhaustion
import LakeNative.Allocators.MappingFailure
import LakeNative.Allocators.ReportedExhaustion
import LakeNative.Allocators.RequestedSizes
import LakeNative.Allocators.SlabRequests
import LakeNative.Arenas.ArenaRequests
import LakeNative.Arenas.TupleRequests
import LakeNative.Allocators.FreedBuffers
import LakeNative.Memory.FreedResults
import LakeNative.Compiler.SlotTable
import LakeNative.Memory.SlotDiscipline
import LakeNative.Memory.AccessSemantics
import LakeNative.Runtime.Strings
import LakeNative.Memory.IntegerText
import LakeNative.Library.ByteTables
import LakeNative.Compiler.MphfCode
import LakeNative.Dispatch.PerfectHashing
import LakeNative.Compiler.StrGuardCode
import LakeNative.Dispatch.StringGuards
import LakeNative.Control.BlockIds
import LakeNative.Control.ConstantWhen
import LakeNative.Memory.InlinedReads
import LakeNative.Control.FoldOperands
import LakeNative.Compiler.DataSymbols
import LakeNative.Dispatch.TableSymbols
import LakeNative.Control.StagedWords
import LakeNative.Compiler.PlainLowering
import LakeNative.Control.SharedBlocks
import LakeNative.Control.SideBySide
import LakeNative.Control.PairedCode
import LakeNative.Control.SuperBlocks
import LakeNative.Control.DyingBlocks
import LakeNative.Control.Preservation
import LakeNative.Control.MachineRuns
import LakeNative.Runtime.Program
import LakeNative.Scheduler.DyingActors
