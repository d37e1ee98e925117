import EzCpp.Lib.SortedMap
import EzCpp.Reporting.Finished

/-!
# Observers

For every event that it raises, a report calls its observers and those of its ancestors. The functions
on reports are written again here with what they raise and whom they call; but for that they are the same
(`reports_perform`). Observers do not change reports, so they are called and nothing more: one that is
added to a report is known by how many were added there before.

A root that nobody holds is gone, and what was below it has no parent any more.
-/

namespace EzCpp.Reporting

open EzCpp.Lib

inductive ExecutionEventType
  | statusChanged
  | progressChanged
  | messageAdded
  | subReportAdded
deriving DecidableEq, Repr

structure ExecutionEvent where
  type : ExecutionEventType
  /-- of the subitem that is added -/
  index : Option Nat
deriving DecidableEq, Repr

/-- An event, and the report that raises it. -/
structure Raised where
  report : ReportId
  event : ExecutionEvent
deriving DecidableEq, Repr

/-- A call of an observer. -/
structure Delivery where
  /-- the report that it is registered on -/
  owner : ReportId
  observer : Nat
  /-- what it is called with -/
  raised : Raised
deriving DecidableEq, Repr

abbrev ExecutionObserverId := Int32

instance : LinearOrder ExecutionObserverId where
  le_refl := Int32.le_refl
  le_trans _ _ _ := Int32.le_trans
  le_antisymm _ _ := Int32.le_antisymm
  le_total := Int32.le_total
  lt_iff_le_not_ge _ _ := by
    rw [Int32.not_le]
    exact ⟨fun h => ⟨Int32.le_of_lt h, h⟩, And.right⟩
  toDecidableLE := inferInstance
  toDecidableEq := inferInstance
  toDecidableLT := inferInstance

/-- What a report knows of its observers. -/
structure Observers where
  nextObserverId : ExecutionObserverId := 0
  observers : SortedMap ExecutionObserverId Nat := .empty
  /-- how many were added -/
  added : Nat := 0
  /-- those that were added and not removed since, with the ids that `add_observer` returned -/
  registered : List (ExecutionObserverId × Nat) := []

namespace Observers

def addObserver (o : Observers) : Observers where
  nextObserverId := o.nextObserverId + 1
  observers := o.observers.insert o.nextObserverId o.added
  added := o.added + 1
  registered := o.registered ++ [(o.nextObserverId, o.added)]

def removeObserver (o : Observers) (id : ExecutionObserverId) : Observers :=
  { o with
    observers := o.observers.erase id
    registered := o.registered.filter fun g => g.1 ≠ id }

end Observers

/-- The reports of a process with their observers, and what was raised and whom it was delivered to. -/
structure Watched where
  reports : Reports := .empty
  /-- how many subitems a report has -/
  subitems : ReportId → Nat := fun _ => 0
  observers : ReportId → Observers := fun _ => {}
  /-- the reports that are gone -/
  dropped : List ReportId := []
  raised : List Raised := []
  delivered : List Delivery := []

/-- The report that is called. -/
def Reports.Operation.report : Reports.Operation → Option ReportId
  | .event .new => none
  | .event (.createSubReport r) | .event (.setStatus r _) => some r
  | .setProgress r _ | .setProgressWeight r _ | .log r _ => some r

namespace Watched

/-! ## The functions on reports -/

def callObservers (w : Watched) (owner : ReportId) (e : Raised) : Watched :=
  { w with delivered := w.delivered ++
      (w.observers owner).observers.entries.map fun o => ⟨owner, o.2, e⟩ }

def notify (w : Watched) (r : ReportId) (type : ExecutionEventType) (index : Option Nat) :
    Option Watched := do
  let e : Raised := ⟨r, type, index⟩
  let ancestors ← w.reports.notify r
  let raised := { w with raised := w.raised ++ [e] }
  some (ancestors.foldl (fun w a => w.callObservers a e) (raised.callObservers r e))

/-- A report has one subitem more. -/
def addSubitem (w : Watched) (r : ReportId) : Watched :=
  { w with subitems := Function.update w.subitems r (w.subitems r + 1) }

def addSubReport (w : Watched) (r s : ReportId) : Option Watched :=
  ({ w with reports := w.reports.attach r s }.addSubitem r).notify r .subReportAdded
    (some (w.subitems r))

def createSubReport (w : Watched) (r : ReportId) : Option Watched :=
  { w with reports := w.reports.new }.addSubReport r w.reports.size

def tryPropagateProgressToParent (update : Watched → ReportId → Option Watched) (w : Watched)
    (r : ReportId) : Option Watched :=
  if (w.reports.data r).progressWeightInParent = 0 then some w
  else
    match (w.reports.data r).parent with
    | none => some w
    | some p => update w p

def updateProgressFromSubReports : Nat → Watched → ReportId → Option Watched
  | 0, _, _ => none
  | n + 1, w, r =>
    match w.reports.progressFromSubReports r with
    | none => some w
    | some p => do
      let w ← { w with reports := w.reports.writeProgress r p }.notify r .progressChanged none
      w.tryPropagateProgressToParent (updateProgressFromSubReports n) r

def setProgress (w : Watched) (r : ReportId) (p : ExecutionProgress) : Option Watched :=
  if (w.reports.data r).progress = p then some w
  else do
    let w ← { w with reports := w.reports.writeProgress r p }.notify r .progressChanged none
    w.tryPropagateProgressToParent (updateProgressFromSubReports (w.reports.size + 1)) r

def log (w : Watched) (r : ReportId) (category : ExecutionLogCategory) : Option Watched :=
  ({ w with reports := w.reports.writeLog r category }.addSubitem r).notify r .messageAdded
    (some (w.subitems r))

def setStatusWithin : Nat → Watched → ReportId → ExecutionStatus → Option Watched
  | 0, _, _, _ => none
  | n + 1, w, r, status =>
    if (w.reports.data r).status = status then some w
    else do
      let w ← { w with reports := w.reports.writeStatus r status }.notify r .statusChanged none
      if status = .finished then w.setProgress r 100
      else if status = .cancelled then
        (w.reports.data r).subReports.foldlM (fun w s =>
          if (w.reports.data s).status.isFinal then some w else setStatusWithin n w s .cancelled) w
      else some w

def setStatus (w : Watched) (r : ReportId) (status : ExecutionStatus) : Option Watched :=
  setStatusWithin (w.reports.size + 1) w r status

def perform (w : Watched) : Reports.Operation → Option Watched
  | .event .new => some { w with reports := w.reports.new }
  | .event (.createSubReport r) => w.createSubReport r
  | .event (.setStatus r status) => w.setStatus r status
  | .setProgress r p => w.setProgress r p
  | .setProgressWeight r weight => some { w with reports := w.reports.setProgressWeight r weight }
  | .log r category => w.log r category

/-! ## What they do to the reports -/

section Erasure

variable {w w' : Watched} {r : ReportId} {e : Raised} {type : ExecutionEventType} {index : Option Nat}

/-- The calls of the observers of a report. -/
def calls (w : Watched) (e : Raised) (owner : ReportId) : List Delivery :=
  (w.observers owner).observers.entries.map fun o => ⟨owner, o.2, e⟩

theorem foldl_callObservers (l : List ReportId) (w : Watched) (e : Raised) :
    l.foldl (fun w a => w.callObservers a e) w =
      { w with delivered := w.delivered ++ l.flatMap (w.calls e) } := by
  induction l generalizing w with
  | nil => simp
  | cons a l ih =>
    rw [List.foldl_cons, ih, List.flatMap_cons, ← List.append_assoc]
    rfl

theorem notify_eq (w : Watched) (r : ReportId) (type : ExecutionEventType) (index : Option Nat) :
    w.notify r type index = (w.reports.notify r).map fun l =>
      { w with
        raised := w.raised ++ [⟨r, type, index⟩]
        delivered := w.delivered ++ (r :: l).flatMap (w.calls ⟨r, type, index⟩) } := by
  unfold notify
  cases w.reports.notify r with
  | none => rfl
  | some l => exact congrArg some (foldl_callObservers (r :: l) { w with raised := w.raised ++ [⟨r, type, index⟩] }
      ⟨r, type, index⟩)

/-- What comes after a notification sees the same reports. -/
theorem reports_notify_bind {k : Watched → Option Watched} {g : Option Reports}
    (hk : ∀ w', w'.reports = w.reports → (k w').map reports = g) :
    (w.notify r type index >>= k).map reports = (w.reports.notify r >>= fun _ => g) := by
  rw [notify_eq]
  cases w.reports.notify r with
  | none => rfl
  | some l => exact hk _ rfl

theorem reports_notify : (w.notify r type index).map reports =
    (w.reports.notify r >>= fun _ => some w.reports) := by
  rw [notify_eq]
  cases w.reports.notify r with
  | none => rfl
  | some l => rfl

theorem reports_createSubReport :
    (w.createSubReport r).map reports = w.reports.createSubReport r := reports_notify

theorem reports_log (category : ExecutionLogCategory) :
    (w.log r category).map reports = w.reports.log r category := reports_notify

theorem reports_tryPropagate {update : Watched → ReportId → Option Watched}
    {update' : Reports → ReportId → Option Reports}
    (hu : ∀ w r, (update w r).map reports = update' w.reports r) :
    (w.tryPropagateProgressToParent update r).map reports =
      w.reports.tryPropagateProgressToParent update' r := by
  unfold tryPropagateProgressToParent Reports.tryPropagateProgressToParent
  split
  · rfl
  · cases (w.reports.data r).parent with
    | none => rfl
    | some p => exact hu w p

theorem reports_update (n : Nat) (w : Watched) (r : ReportId) :
    (updateProgressFromSubReports n w r).map reports =
      Reports.updateProgressFromSubReports n w.reports r := by
  induction n generalizing w r with
  | zero => rfl
  | succ n ih =>
    rw [updateProgressFromSubReports, Reports.updateProgressFromSubReports]
    cases w.reports.progressFromSubReports r with
    | none => rfl
    | some p =>
      refine reports_notify_bind fun w' hw => ?_
      rw [reports_tryPropagate ih, hw]

theorem reports_setProgress (w : Watched) (r : ReportId) (p : ExecutionProgress) :
    (w.setProgress r p).map reports = w.reports.setProgress r p := by
  unfold setProgress Reports.setProgress
  split
  · rfl
  · refine reports_notify_bind fun w' hw => ?_
    rw [reports_tryPropagate (reports_update _), hw]
    rfl

theorem reports_foldlM {f : Watched → ReportId → Option Watched}
    {g : Reports → ReportId → Option Reports} (h : ∀ w s, (f w s).map reports = g w.reports s)
    (l : List ReportId) (w : Watched) :
    (l.foldlM f w).map reports = l.foldlM g w.reports := by
  induction l generalizing w with
  | nil => rfl
  | cons s l ih =>
    rw [List.foldlM_cons, List.foldlM_cons, ← h]
    cases f w s with
    | none => rfl
    | some w' => exact ih w'

theorem reports_setStatusWithin (n : Nat) (w : Watched) (r : ReportId) (status : ExecutionStatus) :
    (setStatusWithin n w r status).map reports = Reports.setStatusWithin n w.reports r status := by
  induction n generalizing w r status with
  | zero => rfl
  | succ n ih =>
    rw [setStatusWithin, Reports.setStatusWithin]
    split
    · rfl
    · refine reports_notify_bind fun w' hw => ?_
      split
      · rw [reports_setProgress, hw]
      · split
        · rw [reports_foldlM, hw]
          intro w s
          split
          · rfl
          · exact ih w s _
        · exact congrArg some hw

/-- **A call does to the reports what it does without the observers.** -/
theorem reports_perform {o : Reports.Operation}
    (h : ∀ r, o.report = some r → r < w.reports.size) :
    (w.perform o).map reports = w.reports.operate o := by
  cases o with
  | event e =>
    cases e with
    | new => rfl
    | createSubReport r =>
      rw [Reports.operate, Reports.step, if_pos (h r rfl)]
      exact reports_createSubReport
    | setStatus r status =>
      rw [Reports.operate, Reports.step, if_pos (h r rfl)]
      exact reports_setStatusWithin _ w r status
  | setProgress r p =>
    rw [Reports.operate, if_pos (h r rfl)]
    exact reports_setProgress w r p
  | setProgressWeight r weight =>
    rw [Reports.operate, if_pos (h r rfl)]
    rfl
  | log r category =>
    rw [Reports.operate, if_pos (h r rfl)]
    exact reports_log category

end Erasure

end Watched

end EzCpp.Reporting
