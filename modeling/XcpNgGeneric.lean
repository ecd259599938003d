import XcpNgGeneric.Foundations.TailQueue
import XcpNgGeneric.Foundations.TailQueueMisuse
import XcpNgGeneric.Foundations.Runs
import XcpNgGeneric.Coroutine.State
import XcpNgGeneric.Coroutine.Machine
import XcpNgGeneric.Coroutine.Chain
import XcpNgGeneric.Coroutine.Effects
import XcpNgGeneric.Coroutine.Invariant
import XcpNgGeneric.Coroutine.Activations
import XcpNgGeneric.Coroutine.Callers
import XcpNgGeneric.Coroutine.Transfer
import XcpNgGeneric.Coroutine.Pendings
import XcpNgGeneric.Foundations.WorkList
import XcpNgGeneric.Coroutine.Deferred
import XcpNgGeneric.Coroutine.Served
import XcpNgGeneric.Coroutine.Lifetime
import XcpNgGeneric.Foundations.SaveRestore
import XcpNgGeneric.Signal.Kernel
import XcpNgGeneric.Signal.Create
import XcpNgGeneric.Foundations.Answers
import XcpNgGeneric.Descriptor.System
import XcpNgGeneric.Descriptor.Retry
import XcpNgGeneric.Descriptor.Transfer
import XcpNgGeneric.Descriptor.ReadAll
import XcpNgGeneric.Descriptor.Send
import XcpNgGeneric.Descriptor.Ends
import XcpNgGeneric.Descriptor.Close
import XcpNgGeneric.Foundations.Buffer
import XcpNgGeneric.Memory.Strings
import XcpNgGeneric.Path.Functions
import XcpNgGeneric.Foundations.Words
import XcpNgGeneric.Path.ParentDir
import XcpNgGeneric.Path.Combine
import XcpNgGeneric.Path.WalkUp
import XcpNgGeneric.Signal.Transparent
import XcpNgGeneric.File.Readlink
import XcpNgGeneric.Memory.Format
import XcpNgGeneric.Stacktrace.Cleanup
import XcpNgGeneric.Stacktrace.Layout
import XcpNgGeneric.Coroutine.Reentry
import XcpNgGeneric.Foundations.CInt
import XcpNgGeneric.Math.Rounding
import XcpNgGeneric.Text.Hex
import XcpNgGeneric.Text.Parse
import XcpNgGeneric.Text.Trim
import XcpNgGeneric.Foundations.Bytes
import XcpNgGeneric.Endian.Conversions
import XcpNgGeneric.Foundations.Lockstep
import XcpNgGeneric.Coroutine.Scheduler
import XcpNgGeneric.Coroutine.Refinement
import XcpNgGeneric.Coroutine.Discipline
import XcpNgGeneric.Foundations.Regions
import XcpNgGeneric.Coroutine.Stacks
import XcpNgGeneric.Foundations.Fifo
import XcpNgGeneric.Descriptor.Pipe
import XcpNgGeneric.Descriptor.Progress
import XcpNgGeneric.Stacktrace.Print
import XcpNgGeneric.Foundations.Tree
import XcpNgGeneric.Path.Resolution
import XcpNgGeneric.Stacktrace.Crash
import XcpNgGeneric.Foundations.Search
import XcpNgGeneric.Stacktrace.Order
import XcpNgGeneric.Memory.Numerals
import XcpNgGeneric.Stacktrace.Trace
import XcpNgGeneric.Path.Links
import XcpNgGeneric.Descriptor.Calls
import XcpNgGeneric.Text.Numbers
import XcpNgGeneric.Foundations.Storage
import XcpNgGeneric.Foundations.Rearrange
import XcpNgGeneric.Memory.Addressed
import XcpNgGeneric.Endian.InPlace
import XcpNgGeneric.Algorithm.IndexOf
