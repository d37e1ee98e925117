import EzCpp.Lib.Ancestors
import Mathlib.Algebra.GroupWithZero.Nat

/-!
# Execution reports

An `ExecutionReport` is a handle to shared data. The data of all reports of a process is kept here
under numbers, and a report is its number. Observers only look on, so they are left out; what is kept
of `notify` is the walk from a report to its ancestors.

Three functions follow the links between reports: `notify` and the propagation of progress go up, a
cancellation goes down. None of them can go through more reports than there are and still end, so
where they run out of as many steps the result is `none`: the source does not return.
-/

namespace EzCpp.Reporting

open EzCpp.Lib

inductive ExecutionStatus
  | pending
  | running
  | cancelRequest
  | cancelled
  | finished
  | warning
  | error
deriving DecidableEq, Repr

/-- `is_final` -/
def ExecutionStatus.isFinal : ExecutionStatus → Bool
  | .pending | .running | .cancelRequest => false
  | .cancelled | .finished | .warning | .error => true

inductive ExecutionLogCategory
  | info
  | warning
  | error
  | success
  | debug
deriving DecidableEq, Repr

/-- Percents: a progress is clamped when it is made. -/
abbrev ExecutionProgress := Fin 101

instance instNeZeroPercents : NeZero 101 := ⟨by decide⟩

/-- The quotient, rounded half away from zero. The code divides doubles; here the quotient is exact. -/
def ExecutionProgress.rounded (total weights : Nat) : ExecutionProgress :=
  ⟨min ((2 * total + weights) / (2 * weights)) 100, by omega⟩

abbrev ReportId := Nat

structure ExecutionReportData where
  parent : Option ReportId := none
  subReports : List ReportId := []
  progress : ExecutionProgress := 0
  progressWeightInParent : Nat := 1
  status : ExecutionStatus := .pending
  warningLogged : Bool := false
  errorLogged : Bool := false

/-- The reports of a process: those below `size`. -/
structure Reports where
  size : Nat
  data : ReportId → ExecutionReportData

namespace Reports

def empty : Reports := ⟨0, fun _ => {}⟩

def edit (rs : Reports) (r : ReportId) (f : ExecutionReportData → ExecutionReportData) : Reports :=
  { rs with data := Function.update rs.data r (f (rs.data r)) }

/-- The constructor of a report, which is the one with the number `size`. -/
def new (rs : Reports) : Reports := ⟨rs.size + 1, Function.update rs.data rs.size {}⟩

def parent (rs : Reports) (r : ReportId) : Option ReportId := (rs.data r).parent

/-- The reports whose observers `notify` calls after those of the report itself. -/
def notify (rs : Reports) (r : ReportId) : Option (List ReportId) :=
  ancestors rs.parent (rs.size + 1) r

/-! ## Building -/

/-- What `add_sub_report` writes. -/
def attach (rs : Reports) (r s : ReportId) : Reports :=
  (rs.edit s fun d => { d with parent := some r }).edit r fun d =>
    { d with subReports := d.subReports ++ [s] }

def addSubReport (rs : Reports) (r s : ReportId) : Option Reports := do
  let _ ← (rs.attach r s).notify r
  pure (rs.attach r s)

/-- The new report is the one with the number `size`. -/
def createSubReport (rs : Reports) (r : ReportId) : Option Reports := rs.new.addSubReport r rs.size

/-! ## Progress -/

/-- The weighted mean of those sub-reports that have a weight, if there are any. -/
def progressFromSubReports (rs : Reports) (r : ReportId) : Option ExecutionProgress :=
  let active := ((rs.data r).subReports.map rs.data).filter (·.progressWeightInParent ≠ 0)
  let totalWeights := (active.map (·.progressWeightInParent)).sum
  let totalProgress := (active.map fun d => d.progress.val * d.progressWeightInParent).sum
  if totalWeights = 0 then none else some (.rounded totalProgress totalWeights)

def writeProgress (rs : Reports) (r : ReportId) (p : ExecutionProgress) : Reports :=
  rs.edit r fun d => { d with progress := p }

def tryPropagateProgressToParent (update : Reports → ReportId → Option Reports) (rs : Reports)
    (r : ReportId) : Option Reports :=
  if (rs.data r).progressWeightInParent = 0 then some rs
  else
    match (rs.data r).parent with
    | none => some rs
    | some p => update rs p

/-- `update_progress_from_sub_reports`, where nobody else writes: the exchange succeeds. -/
def updateProgressFromSubReports : Nat → Reports → ReportId → Option Reports
  | 0, _, _ => none
  | n + 1, rs, r =>
    match rs.progressFromSubReports r with
    | none => some rs
    | some p => do
      let updated := rs.writeProgress r p
      let _ ← updated.notify r
      updated.tryPropagateProgressToParent (updateProgressFromSubReports n) r

def setProgress (rs : Reports) (r : ReportId) (p : ExecutionProgress) : Option Reports :=
  if (rs.data r).progress = p then some rs
  else do
    let updated := rs.writeProgress r p
    let _ ← updated.notify r
    updated.tryPropagateProgressToParent (updateProgressFromSubReports (rs.size + 1)) r

/-- `set_progress_weight`: nothing is computed anew. -/
def setProgressWeight (rs : Reports) (r : ReportId) (w : Nat) : Reports :=
  rs.edit r fun d => { d with progressWeightInParent := w }

/-! ## Messages and statuses -/

/-- What `log` writes, but for the message. -/
def writeLog (rs : Reports) (r : ReportId) (category : ExecutionLogCategory) : Reports :=
  rs.edit r fun d =>
    match category with
    | .warning => { d with warningLogged := true }
    | .error => { d with errorLogged := true }
    | _ => d

def log (rs : Reports) (r : ReportId) (category : ExecutionLogCategory) : Option Reports := do
  let _ ← (rs.writeLog r category).notify r
  pure (rs.writeLog r category)

/-- What `set_status` writes to the report itself. -/
def writeStatus (rs : Reports) (r : ReportId) (status : ExecutionStatus) : Reports :=
  rs.edit r fun d =>
    match status with
    | .error => { d with status, errorLogged := true }
    | .warning => { d with status, warningLogged := true }
    | _ => { d with status }

def setStatusWithin : Nat → Reports → ReportId → ExecutionStatus → Option Reports
  | 0, _, _, _ => none
  | n + 1, rs, r, status =>
    if (rs.data r).status = status then some rs
    else do
      let written := rs.writeStatus r status
      let _ ← written.notify r
      if status = .finished then written.setProgress r 100
      else if status = .cancelled then
        (written.data r).subReports.foldlM (fun rs s =>
          if (rs.data s).status.isFinal then some rs else setStatusWithin n rs s .cancelled) written
      else some written

def setStatus (rs : Reports) (r : ReportId) (status : ExecutionStatus) : Option Reports :=
  setStatusWithin (rs.size + 1) rs r status

def isBusyWithin (rs : Reports) : Nat → ReportId → Bool
  | 0, _ => false
  | n + 1, r => !(rs.data r).status.isFinal || (rs.data r).subReports.any (rs.isBusyWithin n)

def isBusy (rs : Reports) (r : ReportId) : Bool := rs.isBusyWithin (rs.size + 1) r

/-! ## The status guard -/

/-- `ExecutionStatusGuard::init` -/
def init (rs : Reports) (r : ReportId) : Option Reports :=
  if (rs.data r).status = .pending then rs.setStatus r .running else some rs

/-- The variables of `finish`. -/
structure Finishing where
  reports : Reports
  hasWarning : Bool := false
  hasError : Bool := false

/-- What `finish` does about a sub-report. -/
def Finishing.visit (f : Finishing) (s : ReportId) : Option Finishing :=
  let d := f.reports.data s
  match d.status with
  | .pending => return { f with reports := ← f.reports.setStatus s .cancelled }
  | .running =>
    if d.errorLogged then return { f with reports := ← f.reports.setStatus s .error, hasError := true }
    else if d.warningLogged then
      return { f with reports := ← f.reports.setStatus s .warning, hasWarning := true }
    else some f
  | .warning => some { f with hasWarning := true }
  | .error => some { f with hasError := true }
  | _ => some f

/-- `ExecutionStatusGuard::finish`, with no exception in flight. -/
def finish (rs : Reports) (r : ReportId) : Option Reports := do
  let f ← (rs.data r).subReports.foldlM Finishing.visit { reports := rs }
  let d := f.reports.data r
  if d.status = .running ∨ d.status = .cancelRequest then
    if f.hasError ∨ d.errorLogged then f.reports.setStatus r .error
    else if f.hasWarning ∨ d.warningLogged then f.reports.setStatus r .warning
    else f.reports.setStatus r .finished
  else some f.reports

end Reports

end EzCpp.Reporting
