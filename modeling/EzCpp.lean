import EzCpp.Lib.Coroutine
import EzCpp.Lib.SortedMap
import EzCpp.Lib.Stack
import EzCpp.Flow.Balance
import EzCpp.Flow.Break
import EzCpp.Flow.Return
import EzCpp.Flow.Assignment
import EzCpp.Flow.Copy
import EzCpp.Flow.Defaults
import EzCpp.Flow.Conversion
import EzCpp.Flow.Exporter
import EzCpp.Flow.Legible
import EzCpp.Flow.Words
import EzCpp.Flow.Splitting
import EzCpp.Flow.Readback
import EzCpp.Flow.Reading
import EzCpp.Core.Cow
import EzCpp.Async.WhenAll
import EzCpp.Async.WhenAny
import EzCpp.Rpc.Answers
import EzCpp.Rpc.Delivery
import EzCpp.Reporting.Forest
import EzCpp.Reporting.Cancel
import EzCpp.Reporting.Guard
import EzCpp.Reporting.Progress
import EzCpp.Rpc.RemoteCall
import EzCpp.Flow.Scalars
import EzCpp.Reporting.Finished
import EzCpp.Flow.Insertion
import EzCpp.Flow.Pruning
import EzCpp.Flow.Branches
import EzCpp.Flow.Arguments
import EzCpp.Flow.Try
import EzCpp.Flow.Absorption
import EzCpp.Reporting.Saturation
import EzCpp.Flow.Durations
import EzCpp.Flow.Identifiers
import EzCpp.Rpc.Unpacking
import EzCpp.Rpc.Queries
import EzCpp.Async.TaskPool
import EzCpp.Async.Task
import EzCpp.Async.Operation
import EzCpp.Reporting.Deliveries
import EzCpp.Flow.Formatting
import EzCpp.Reporting.Handles
import EzCpp.Reporting.Builders
import EzCpp.Algo.Ranges
import EzCpp.Core.Atomic
import EzCpp.Flow.Accepted
import EzCpp.Async.Wait
import EzCpp.Flow.Requests
import EzCpp.Lib.Histories
import EzCpp.Flow.Provenance
import EzCpp.Flow.Reachable
import EzCpp.Lib.Descent
import EzCpp.Flow.Finite
import EzCpp.Flow.Awaits
