import EzCpp.Reporting.Deliveries
import EzCpp.Reporting.StableVector

/-!
# Items

A report keeps its messages and its sub-reports in two vectors, and in a third one an item for each of
either. An item points to the message or to the data of the report, and to the report that it is an item of;
nothing that it points to is ever moved. So the items are the messages and the sub-reports in the order of
the calls (`items_merge`).
-/

namespace EzCpp.Reporting

open EzCpp.Lib

structure ExecutionLogMessage where
  header : String := ""
  body : String := ""
  category : ExecutionLogCategory := .info
  isNotification : Bool := false
deriving DecidableEq, Repr

/-- The operator `<<`. -/
def ExecutionLogMessage.write (m : ExecutionLogMessage) (text : String) : ExecutionLogMessage :=
  { m with body := m.body ++ text }

/-- A `const ExecutionLogMessage*`: a place in the messages of a report. -/
structure MessageAddress where
  report : ReportId
  block : Nat
  index : Nat
deriving DecidableEq, Repr

/-- What an item points to. -/
inductive Payload
  | invalid
  | message (message : MessageAddress)
  | reportData (r : ReportId)
deriving DecidableEq, Repr

structure ExecutionReportItem where
  parent : Option ReportId := none
  payload : Payload := .invalid
deriving DecidableEq, Repr

namespace ExecutionReportItem

def isMessage (item : ExecutionReportItem) : Bool :=
  match item.payload with
  | .message _ => true
  | _ => false

def isExecutionReport (item : ExecutionReportItem) : Bool :=
  match item.payload with
  | .reportData _ => true
  | _ => false

/-- `to_report_data`, where its assertion holds. -/
def toReportData (item : ExecutionReportItem) : Option ReportId :=
  match item.payload with
  | .reportData r => some r
  | _ => none

end ExecutionReportItem

/-- A handle: the pointer to the shared data, and the item that it was given when it was made. -/
structure ExecutionReport where
  data : Option ReportId := none
  self : ExecutionReportItem := {}
deriving DecidableEq, Repr

/-- The number of elements in a block of a report's vectors. -/
abbrev defaultBlockSize : Nat := 64

theorem defaultBlockSize_pos : 0 < defaultBlockSize := by decide

abbrev Items (T : Type) := Stable T defaultBlockSize

/-- The vectors of a report, and the events that it has raised itself. -/
structure Contents where
  subitems : Items ExecutionReportItem := .empty defaultBlockSize_pos
  messages : Items ExecutionLogMessage := .empty defaultBlockSize_pos
  subReports : Items ExecutionReport := .empty defaultBlockSize_pos
  raised : List ExecutionEvent := []

/-- The reports of a process with what is in them. -/
structure Recorded where
  reports : Reports := .empty
  contents : ReportId → Contents := fun _ => {}

namespace Recorded

def edit (w : Recorded) (r : ReportId) (f : Contents → Contents) : Recorded :=
  { w with contents := Function.update w.contents r (f (w.contents r)) }

def notify (w : Recorded) (r : ReportId) (type : ExecutionEventType) (index : Option Nat) :
    Option Recorded := do
  let _ ← w.reports.notify r
  some (w.edit r fun c => { c with raised := c.raised ++ [⟨type, index⟩] })

/-! ## Handles and items -/

/-- The item for the data of a report, whose parent is the one that it has when the item is made. -/
def item (w : Recorded) (r : ReportId) : ExecutionReportItem := ⟨w.reports.parent r, .reportData r⟩

def fromData (w : Recorded) (r : ReportId) : ExecutionReport := ⟨some r, w.item r⟩

/-- The constructor, whose report is the one with the number `size`. What its arguments set is not kept. -/
def new (w : Recorded) : Recorded :=
  ⟨w.reports.new, Function.update w.contents w.reports.size {}⟩

/-- The handle that the constructor makes. -/
def construct (w : Recorded) : ExecutionReport × Recorded := (w.new.fromData w.reports.size, w.new)

/-- `as_item` -/
def asItem (h : ExecutionReport) : ExecutionReportItem := h.self

/-- The parent of the data, which there is. -/
def parent (w : Recorded) (r : ReportId) : ExecutionReport :=
  match w.reports.parent r with
  | some p => w.fromData p
  | none => {}

def toMessage (w : Recorded) (item : ExecutionReportItem) : Option ExecutionLogMessage :=
  match item.payload with
  | .message a => itemAt (w.contents a.report).messages.blocks a.block a.index
  | _ => none

def toReport (w : Recorded) (item : ExecutionReportItem) : Option ExecutionReport :=
  item.toReportData.map w.fromData

def parentReport (w : Recorded) (item : ExecutionReportItem) : ExecutionReport :=
  match item.parent with
  | some p => w.fromData p
  | none => {}

def subitemAt (w : Recorded) (r : ReportId) (i : Nat) : Option ExecutionReportItem :=
  (w.contents r).subitems.at? i

def subReportAt (w : Recorded) (r : ReportId) (i : Nat) : Option ExecutionReport :=
  (w.contents r).subReports.at? i

/-! ## Adding -/

/-- The item goes into the list, and its index is told. -/
def addSubitem (w : Recorded) (r : ReportId) (item : ExecutionReportItem) (type : ExecutionEventType) :
    Option Recorded :=
  let added := w.edit r fun c => { c with subitems := c.subitems.append item }
  added.notify r type (some ((added.contents r).subitems.size - 1))

/-- The data of `ctx` is there. The item is made after the parent is set. -/
def addSubReport (w : Recorded) (r : ReportId) (ctx : ExecutionReport) : Option Recorded := do
  let s ← ctx.data
  let linked := { w with reports := w.reports.attach r s }
  let listed := linked.edit r fun c => { c with subReports := c.subReports.append ctx }
  listed.addSubitem r (listed.item s) .subReportAdded

def createSubReport (w : Recorded) (r : ReportId) : Option (ExecutionReport × Recorded) := do
  let (ctx, made) := w.construct
  let added ← made.addSubReport r ctx
  some (ctx, added)

def log (w : Recorded) (r : ReportId) (msg : ExecutionLogMessage) : Option Recorded :=
  let written := { w with reports := w.reports.writeLog r msg.category }
  let stored := written.edit r fun c => { c with messages := c.messages.append msg }
  let last := (stored.contents r).messages.lastPosition
  stored.addSubitem r ⟨some r, .message ⟨r, last.1, last.2⟩⟩ .messageAdded

/-! ## Histories -/

inductive Call
  | new
  | log (r : ReportId) (msg : ExecutionLogMessage)
  | createSubReport (r : ReportId)

/-- The report that is called. -/
def Call.report : Call → Option ReportId
  | .new => none
  | .log r _ | .createSubReport r => some r

def enabled (w : Recorded) (c : Call) : Bool := c.report.all (· < w.reports.size)

def perform (w : Recorded) : Call → Option Recorded
  | .new => some w.new
  | .log r msg => w.log r msg
  | .createSubReport r => (w.createSubReport r).map Prod.snd

def step (w : Recorded) (c : Call) : Option Recorded := if w.enabled c then w.perform c else none

/-! ## The law -/

/-- What a report has been given: a message or a sub-report. -/
inductive Entry
  | message (msg : ExecutionLogMessage)
  | report (r : ReportId)
deriving DecidableEq, Repr

namespace Entry

def message? : Entry → Option ExecutionLogMessage
  | message msg => some msg
  | report _ => none

def report? : Entry → Option ReportId
  | message _ => none
  | report r => some r

/-- What is told of it. -/
def eventType : Entry → ExecutionEventType
  | message _ => .messageAdded
  | report _ => .subReportAdded

end Entry

/-- How many reports a call makes. -/
def Call.makes : Call → Nat
  | .new | .createSubReport _ => 1
  | .log _ _ => 0

/-- What a call gives to the report `r`, where there are `n` reports. -/
def Call.entry (r : ReportId) (n : Nat) : Call → List Entry
  | .new => []
  | .log s msg => if s = r then [.message msg] else []
  | .createSubReport s => if s = r then [.report n] else []

/-- What the calls give to the report `r`, in their order, from `n` reports on. -/
def entries (r : ReportId) : Nat → List Call → List Entry
  | _, [] => []
  | n, c :: cs => c.entry r n ++ entries r (n + c.makes) cs

/-- What an item stands for. -/
def read (w : Recorded) (item : ExecutionReportItem) : Option Entry :=
  if item.isMessage then (w.toMessage item).map .message else item.toReportData.map .report

/-- **The items of a report merge what it has been given.** -/
structure Merges (w : Recorded) (r : ReportId) (es : List Entry) : Prop where
  items : (w.contents r).subitems.toList.map w.read = es.map some
  /-- the items that are messages -/
  messages : ((w.contents r).subitems.toList.filter (·.isMessage)).map w.toMessage =
    (w.contents r).messages.toList.map some
  logged : (w.contents r).messages.toList = es.filterMap Entry.message?
  /-- the items that are reports -/
  reports : ((w.contents r).subitems.toList.filter (·.isExecutionReport)).map (·.toReportData) =
    (w.contents r).subReports.toList.map (·.data)
  created : (w.contents r).subReports.toList.map (·.data) = (es.filterMap Entry.report?).map some
  parents : ∀ i item, w.subitemAt r i = some item → item.parent = some r
  /-- the events of the report -/
  raised : (w.contents r).raised = es.mapIdx fun i e => ⟨e.eventType, some i⟩
  found : ∀ i e, es[i]? = some e → ∃ item, w.subitemAt r i = some item ∧ w.read item = some e

/-- The items of a report are the same ones, at their indices, and stand for the same. -/
def KeepsItems (w w' : Recorded) : Prop := ∀ r i item, w.subitemAt r i = some item →
  w'.subitemAt r i = some item ∧ w'.read item = w.read item

end Recorded

namespace Contents

/-- The item is the last one, and the event has its index. -/
def addSubitem (c : Contents) (item : ExecutionReportItem) (type : ExecutionEventType) : Contents :=
  { c with
    subitems := c.subitems.append item
    raised := c.raised ++ [⟨type, some c.subitems.toList.length⟩] }

/-- What `log` leaves in the report `r`. -/
def addMessage (c : Contents) (r : ReportId) (msg : ExecutionLogMessage) : Contents :=
  let messages := c.messages.append msg
  { c with messages }.addSubitem
    ⟨some r, .message ⟨r, messages.lastPosition.1, messages.lastPosition.2⟩⟩ .messageAdded

/-- What `add_sub_report` leaves in the report `r`. -/
def addReport (c : Contents) (r : ReportId) (ctx : ExecutionReport) (s : ReportId) : Contents :=
  { c with subReports := c.subReports.append ctx }.addSubitem ⟨some r, .reportData s⟩ .subReportAdded

end Contents

namespace Recorded

section Laws

variable {w w' : Recorded} {r s : ReportId} {msg : ExecutionLogMessage} {ctx : ExecutionReport}
  {item : ExecutionReportItem} {c : Call} {cs calls : List Call} {es : List Entry} {e : Entry} {n : Nat}

/-! ## What a call does -/

theorem edit_contents_self (w : Recorded) (r : ReportId) (f : Contents → Contents) :
    (w.edit r f).contents r = f (w.contents r) := Function.update_self ..

theorem edit_contents_of_ne (w : Recorded) (f : Contents → Contents) (h : s ≠ r) :
    (w.edit r f).contents s = w.contents s := Function.update_of_ne h ..

theorem edit_edit (w : Recorded) (r : ReportId) (f g : Contents → Contents) :
    (w.edit r f).edit r g = w.edit r fun c => g (f c) := by
  rw [edit, edit_contents_self]
  simp only [edit, Function.update_idem]

theorem addSubitem_eq (w : Recorded) (r : ReportId) (item : ExecutionReportItem)
    (type : ExecutionEventType) : w.addSubitem r item type =
      (w.reports.notify r).map fun _ => w.edit r (·.addSubitem item type) := by
  rw [addSubitem, edit_contents_self]
  simp only [notify, Stable.size_eq, Stable.toList_append, List.length_append, List.length_singleton,
    Nat.add_sub_cancel, edit_edit]
  cases hnotify : w.reports.notify r with
  | none => simp [edit, hnotify]
  | some l => simp [edit, hnotify, Contents.addSubitem]

theorem log_eq (w : Recorded) (r : ReportId) (msg : ExecutionLogMessage) :
    w.log r msg = (w.reports.log r msg.category).map fun rs =>
      { w with reports := rs }.edit r (·.addMessage r msg) := by
  rw [log, addSubitem_eq, edit_contents_self, edit_edit, Reports.log]
  cases hnotify : (w.reports.writeLog r msg.category).notify r with
  | none => simp [edit, hnotify]
  | some l => simp [edit, hnotify, Contents.addMessage]

theorem addSubReport_eq (w : Recorded) (r : ReportId) (h : ctx.data = some s) :
    w.addSubReport r ctx = (w.reports.addSubReport r s).map fun rs =>
      { w with reports := rs }.edit r (·.addReport r ctx s) := by
  have hparent : (w.reports.attach r s).parent s = some r := by
    rw [Reports.attach_parent, Function.update_self]
  rw [addSubReport, h, Option.bind_eq_bind, Option.bind_some, addSubitem_eq, edit_edit,
    Reports.addSubReport]
  cases hnotify : (w.reports.attach r s).notify r with
  | none => simp [edit, hnotify]
  | some l => simp [edit, hnotify, Contents.addReport, item, hparent]

theorem createSubReport_eq (w : Recorded) (r : ReportId) :
    w.createSubReport r = (w.reports.createSubReport r).map fun rs =>
      (w.construct.1, { w.new with reports := rs }.edit r (·.addReport r w.construct.1 w.reports.size)) := by
  have hadded : w.new.addSubReport r w.construct.1 = (w.reports.createSubReport r).map fun rs =>
      { w.new with reports := rs }.edit r (·.addReport r w.construct.1 w.reports.size) :=
    addSubReport_eq w.new r rfl
  have hcreated : w.createSubReport r =
      (w.new.addSubReport r w.construct.1).map fun added => (w.construct.1, added) := by
    rw [Option.map_eq_bind]
    rfl
  rw [hcreated, hadded, Option.map_map]
  rfl

theorem lt_of_enabled (h : w.enabled c = true) (hr : c.report = some r) : r < w.reports.size := by
  rw [enabled, hr, Option.all_some] at h
  exact of_decide_eq_true h

/-- The call as one on the reports alone. -/
def Call.operation : Call → Reports.Operation
  | .new => .event .new
  | .log r msg => .log r msg.category
  | .createSubReport r => .event (.createSubReport r)

/-- **A call does to the reports what it does without their contents.** -/
theorem reports_step (henabled : w.enabled c = true) :
    (w.step c).map reports = w.reports.operate (Call.operation c) := by
  rw [step, if_pos henabled]
  cases c with
  | new => rfl
  | log r msg =>
    have hr : r < w.reports.size := lt_of_enabled henabled rfl
    rw [perform, log_eq, Option.map_map, Call.operation, Reports.operate, if_pos hr]
    exact Option.map_id'
  | createSubReport r =>
    have hr : r < w.reports.size := lt_of_enabled henabled rfl
    rw [perform, createSubReport_eq, Option.map_map, Option.map_map, Call.operation, Reports.operate,
      Reports.step, if_pos hr]
    exact Option.map_id'

/-- Everything a call can do. -/
theorem step_cases (h : w.step c = some w') :
    (c = .new ∧ w' = w.new) ∨
    (∃ r msg, c = .log r msg ∧ r < w.reports.size ∧
      w' = { w with reports := w.reports.writeLog r msg.category }.edit r (·.addMessage r msg)) ∨
    (∃ r, c = .createSubReport r ∧ r < w.reports.size ∧
      w' = { w.new with reports := w.reports.new.attach r w.reports.size }.edit r
        (·.addReport r w.construct.1 w.reports.size)) := by
  obtain ⟨henabled, h⟩ := Option.ite_none_right_eq_some.mp h
  cases c with
  | new => exact .inl ⟨rfl, (Option.some.inj h).symm⟩
  | log r msg =>
    have hr : r < w.reports.size := lt_of_enabled henabled rfl
    rw [perform, log_eq] at h
    obtain ⟨rs, hrs, rfl⟩ := Option.map_eq_some_iff.mp h
    obtain ⟨l, -, hrs⟩ := Option.bind_eq_some_iff.mp hrs
    cases hrs
    exact .inr (.inl ⟨r, msg, rfl, hr, rfl⟩)
  | createSubReport r =>
    have hr : r < w.reports.size := lt_of_enabled henabled rfl
    rw [perform, createSubReport_eq, Option.map_map] at h
    obtain ⟨rs, hrs, rfl⟩ := Option.map_eq_some_iff.mp h
    obtain ⟨l, -, hrs⟩ := Option.bind_eq_some_iff.mp hrs
    cases hrs
    exact .inr (.inr ⟨r, rfl, hr, rfl⟩)

/-! ## Growing -/

/-- There is nothing in reports that are still to be made. -/
def Fresh (w : Recorded) : Prop := ∀ r, w.reports.size ≤ r → w.contents r = {}

/-- Items are added at the end, and no message moves. -/
structure Grows (w w' : Recorded) : Prop where
  items : ∀ r, ∃ added,
    (w'.contents r).subitems.toList = (w.contents r).subitems.toList ++ added
  messages : ∀ r k j msg, itemAt (w.contents r).messages.blocks k j = some msg →
    itemAt (w'.contents r).messages.blocks k j = some msg

theorem Grows.refl (w : Recorded) : Grows w w :=
  ⟨fun _ => ⟨[], (List.append_nil _).symm⟩, fun _ _ _ _ h => h⟩

theorem Grows.trans {w'' : Recorded} (h : Grows w w') (h' : Grows w' w'') : Grows w w'' where
  items r := by
    obtain ⟨added, hadded⟩ := h.items r
    obtain ⟨more, hmore⟩ := h'.items r
    exact ⟨added ++ more, by rw [hmore, hadded, List.append_assoc]⟩
  messages r k j msg hmsg := h'.messages r k j msg (h.messages r k j msg hmsg)

theorem Grows.of_contents (h : ∀ x, w'.contents x = w.contents x) : Grows w w' where
  items x := ⟨[], by rw [h x, List.append_nil]⟩
  messages x k j msg hmsg := by rwa [h x]

theorem Grows.edit {f : Contents → Contents} (hitem : (f (w.contents r)).subitems =
    (w.contents r).subitems.append item) (hmessages : ∀ k j msg,
      itemAt (w.contents r).messages.blocks k j = some msg →
        itemAt (f (w.contents r)).messages.blocks k j = some msg) : Grows w (w.edit r f) where
  items x := by
    by_cases hx : x = r
    · subst hx
      exact ⟨[item], by rw [edit_contents_self, hitem, Stable.toList_append]⟩
    · exact ⟨[], by rw [edit_contents_of_ne w f hx, List.append_nil]⟩
  messages x k j msg hmsg := by
    by_cases hx : x = r
    · subst hx
      rw [edit_contents_self]
      exact hmessages k j msg hmsg
    · rwa [edit_contents_of_ne w f hx]

/-- What an item stands for, it goes on standing for. -/
theorem Grows.read (h : Grows w w') (hread : w.read item = some e) : w'.read item = some e := by
  obtain ⟨parent, payload⟩ := item
  cases payload with
  | message a =>
    obtain ⟨msg, hmsg, rfl⟩ := Option.map_eq_some_iff.mp hread
    exact congrArg (Option.map Entry.message) (h.messages a.report a.block a.index msg hmsg)
  | _ => exact hread

theorem Grows.subitemAt (h : Grows w w') {i : Nat} (hi : w.subitemAt r i = some item) :
    w'.subitemAt r i = some item := by
  obtain ⟨added, hadded⟩ := h.items r
  rw [Recorded.subitemAt, Stable.at?_eq] at hi ⊢
  have hlt := (List.getElem?_eq_some_iff.mp hi).1
  rw [hadded, List.getElem?_append_left hlt, hi]

theorem Fresh.new_contents (h : w.Fresh) : w.new.contents = w.contents := by
  rw [new, ← h w.reports.size (Nat.le_refl _), Function.update_eq_self]

/-! ## What calls keep -/

theorem step_grows (hw : w.Fresh) (h : w.step c = some w') : Grows w w' := by
  rcases step_cases h with ⟨-, rfl⟩ | ⟨r, msg, -, -, rfl⟩ | ⟨r, -, -, rfl⟩
  · exact .of_contents fun x => congrFun hw.new_contents x
  · have hwritten : Grows w { w with reports := w.reports.writeLog r msg.category } :=
      .of_contents fun _ => rfl
    exact hwritten.trans
      (.edit (f := (·.addMessage r msg)) rfl fun k j m hm => Stable.itemAt_append hm msg)
  · have hnew : Grows w { w.new with reports := w.reports.new.attach r w.reports.size } :=
      .of_contents fun x => congrFun hw.new_contents x
    exact hnew.trans (.edit (f := (·.addReport r w.construct.1 w.reports.size)) rfl fun k j m hm => hm)

theorem step_size (h : w.step c = some w') : w'.reports.size = w.reports.size + c.makes := by
  rcases step_cases h with ⟨rfl, rfl⟩ | ⟨r, msg, rfl, -, rfl⟩ | ⟨r, rfl, -, rfl⟩ <;> rfl

theorem step_fresh (hw : w.Fresh) (h : w.step c = some w') : w'.Fresh := by
  intro x hx
  rcases step_cases h with ⟨-, rfl⟩ | ⟨r, msg, -, hr, rfl⟩ | ⟨r, -, hr, rfl⟩
  · rw [hw.new_contents]
    exact hw x (Nat.le_of_succ_le hx)
  · rw [edit_contents_of_ne _ _ (Nat.ne_of_gt (Nat.lt_of_lt_of_le hr hx))]
    exact hw x hx
  · have hle : w.reports.size ≤ x := Nat.le_of_succ_le hx
    rw [edit_contents_of_ne _ _ (Nat.ne_of_gt (Nat.lt_of_lt_of_le hr hle))]
    dsimp only
    rw [hw.new_contents]
    exact hw x hle

/-- The items, as they are put together. -/
structure Holds (w : Recorded) (r : ReportId) (es : List Entry) : Prop where
  items : (w.contents r).subitems.toList.map w.read = es.map some
  messages : (w.contents r).messages.toList = es.filterMap Entry.message?
  subReports : (w.contents r).subReports.toList.map (·.data) = (es.filterMap Entry.report?).map some
  parents : ∀ item ∈ (w.contents r).subitems.toList, item.parent = some r
  raised : (w.contents r).raised = es.mapIdx fun i e => ⟨e.eventType, some i⟩

theorem Holds.items_later (h : Holds w r es) (hg : Grows w w') :
    (w.contents r).subitems.toList.map w'.read = es.map some := by
  rw [← h.items]
  refine List.map_congr_left fun item hitem => ?_
  obtain ⟨e, -, he⟩ := List.mem_map.mp (h.items ▸ List.mem_map_of_mem hitem)
  rw [← he]
  exact hg.read he.symm

/-- Nothing is given to the report. -/
theorem Holds.of_contents (h : Holds w r es) (hg : Grows w w') (hr : w'.contents r = w.contents r) :
    Holds w' r es where
  items := by
    rw [hr]
    exact h.items_later hg
  messages := hr ▸ h.messages
  subReports := hr ▸ h.subReports
  parents := hr ▸ h.parents
  raised := hr ▸ h.raised

/-- One more entry, with its item. -/
theorem Holds.add {c' : Contents} (h : Holds w r es) (hg : Grows w w')
    (hr : w'.contents r = c'.addSubitem item e.eventType)
    (hsubitems : c'.subitems = (w.contents r).subitems) (hraised : c'.raised = (w.contents r).raised)
    (hmessages : c'.messages.toList = (w.contents r).messages.toList ++ e.message?.toList)
    (hreports : c'.subReports.toList.map (·.data) =
      (w.contents r).subReports.toList.map (·.data) ++ e.report?.toList.map some)
    (hparent : item.parent = some r) (hread : w'.read item = some e) : Holds w' r (es ++ [e]) where
  items := by
    have hlist : (w'.contents r).subitems.toList = (w.contents r).subitems.toList ++ [item] := by
      rw [hr, ← hsubitems, Contents.addSubitem, Stable.toList_append]
    rw [hlist, List.map_append, h.items_later hg, List.map_append, List.map_singleton, hread, List.map_singleton]
  messages := by
    rw [hr, Contents.addSubitem, hmessages, h.messages, List.filterMap_append]
    cases e <;> rfl
  subReports := by
    rw [hr, Contents.addSubitem, hreports, h.subReports, List.filterMap_append, List.map_append]
    cases e <;> rfl
  parents := by
    intro x hx
    rw [hr, Contents.addSubitem, Stable.toList_append, hsubitems] at hx
    rcases List.mem_append.mp hx with hx | hx
    · exact h.parents x hx
    · exact List.mem_singleton.mp hx ▸ hparent
  raised := by
    have hlength : (w.contents r).subitems.toList.length = es.length := by
      simpa using congrArg List.length h.items
    rw [hr, Contents.addSubitem, hraised, hsubitems, h.raised, hlength, List.mapIdx_concat]

/-- **A call gives a report its entry.** -/
theorem step_holds (hw : w.Fresh) (h : w.step c = some w') (hr : Holds w r es) :
    Holds w' r (es ++ c.entry r w.reports.size) := by
  have hg := step_grows hw h
  rcases step_cases h with ⟨rfl, rfl⟩ | ⟨s, msg, rfl, -, rfl⟩ | ⟨s, rfl, -, rfl⟩
  · rw [Call.entry, List.append_nil]
    exact hr.of_contents hg (congrFun hw.new_contents r)
  · by_cases hs : s = r
    · subst hs
      rw [Call.entry, if_pos rfl]
      have hcontents : (({ w with reports := w.reports.writeLog s msg.category } : Recorded).edit s
          (·.addMessage s msg)).contents s = (w.contents s).addMessage s msg := edit_contents_self _ s _
      refine hr.add hg hcontents rfl rfl (Stable.toList_append _ msg) (List.append_nil _).symm rfl ?_
      simp only [read, ExecutionReportItem.isMessage, if_true, toMessage, edit_contents_self]
      exact congrArg (Option.map Entry.message) (Stable.itemAt_lastPosition _ msg)
    · rw [Call.entry, if_neg hs, List.append_nil]
      exact hr.of_contents hg (edit_contents_of_ne _ _ (Ne.symm hs))
  · by_cases hs : s = r
    · subst hs
      rw [Call.entry, if_pos rfl]
      have hbase : ({ w.new with reports := w.reports.new.attach s w.reports.size } : Recorded).contents s =
          w.contents s := congrFun hw.new_contents s
      have hcontents : (({ w.new with reports := w.reports.new.attach s w.reports.size } : Recorded).edit s
          (·.addReport s w.construct.1 w.reports.size)).contents s =
            (w.contents s).addReport s w.construct.1 w.reports.size := by
        rw [edit_contents_self, hbase]
      refine hr.add hg hcontents rfl rfl (List.append_nil _).symm ?_ rfl rfl
      rw [Stable.toList_append, List.map_append]
      rfl
    · rw [Call.entry, if_neg hs, List.append_nil]
      exact hr.of_contents hg
        ((edit_contents_of_ne _ _ (Ne.symm hs)).trans (congrFun hw.new_contents r))

theorem runs_holds (hw : w.Fresh) (h : runs step w cs = some w') (hr : Holds w r es) :
    Holds w' r (es ++ entries r w.reports.size cs) ∧ w'.Fresh ∧ Grows w w' := by
  induction cs generalizing w es with
  | nil =>
    cases h
    rw [entries, List.append_nil]
    exact ⟨hr, hw, .refl _⟩
  | cons c cs ih =>
    obtain ⟨v, hv, h⟩ := runs_cons.mp h
    obtain ⟨hholds, hfresh, hgrows⟩ := ih (step_fresh hw hv) h (step_holds hw hv hr)
    rw [step_size hv, List.append_assoc] at hholds
    exact ⟨hholds, hfresh, (step_grows hw hv).trans hgrows⟩

/-- Items that stand for the entries are messages and reports as these are. -/
theorem filter_items {items : List ExecutionReportItem} (h : items.map w.read = es.map some) :
    (items.filter (·.isMessage)).map w.toMessage = (es.filterMap Entry.message?).map some ∧
      (items.filter (·.isExecutionReport)).map (·.toReportData) =
        (es.filterMap Entry.report?).map some := by
  induction items generalizing es with
  | nil =>
    rw [List.map_eq_nil_iff.mp h.symm]
    exact ⟨rfl, rfl⟩
  | cons item items ih =>
    obtain ⟨e, es, rfl, hread, hrest⟩ := List.map_eq_cons_iff.mp h.symm
    obtain ⟨hmessages, hreports⟩ := ih hrest.symm
    obtain ⟨parent, payload⟩ := item
    cases payload with
    | invalid => cases hread
    | message a =>
      obtain ⟨msg, hmsg, rfl⟩ := Option.map_eq_some_iff.mp hread.symm
      exact ⟨congrArg₂ List.cons hmsg hmessages, hreports⟩
    | reportData r =>
      cases hread
      exact ⟨hmessages, congrArg (some r :: ·) hreports⟩

theorem operation_report (c : Call) : (Call.operation c).report = c.report := by cases c <;> rfl

/-- Every call that is made returns. -/
theorem step_isSome (hf : w.reports.Forest) (hb : w.reports.Bounded) (h : w.enabled c = true) :
    (w.step c).isSome = true := by
  have hbound : ∀ r, (Call.operation c).report = some r → r < w.reports.size :=
    fun r hr => lt_of_enabled h ((operation_report c).symm.trans hr)
  obtain ⟨rs, hrs⟩ := hf.operate_isSome hb hbound
  rw [← reports_step h] at hrs
  obtain ⟨w', hw', -⟩ := Option.map_eq_some_iff.mp hrs
  exact Option.isSome_of_eq_some hw'

theorem step_forest (hw : w.reports.Forest ∧ w.reports.Bounded) (h : w.step c = some w') :
    w'.reports.Forest ∧ w'.reports.Bounded := by
  have henabled : w.enabled c = true := (Option.ite_none_right_eq_some.mp h).1
  refine Reports.operate_forest hw.1 hw.2 (o := Call.operation c) ?_
  rw [← reports_step henabled, h]
  rfl

theorem forest (h : runs step {} cs = some w) : w.reports.Forest ∧ w.reports.Bounded :=
  runs_invariant (P := fun w => w.reports.Forest ∧ w.reports.Bounded) (fun _ _ _ => step_forest) h
    ⟨Reports.forest_empty, Reports.bounded_empty⟩

theorem Holds.merges (h : Holds w r es) : Merges w r es where
  items := h.items
  messages := by rw [(filter_items h.items).1, h.messages]
  logged := h.messages
  reports := by rw [(filter_items h.items).2, h.subReports]
  created := h.subReports
  parents i item hitem := by
    rw [Recorded.subitemAt, Stable.at?_eq] at hitem
    exact h.parents item (List.mem_of_getElem? hitem)
  raised := h.raised
  found i e he := by
    have hread := congrArg (·[i]?) h.items
    simp only [List.getElem?_map, he, Option.map_some] at hread
    obtain ⟨item, hitem, hread⟩ := Option.map_eq_some_iff.mp hread
    rw [← Stable.at?_eq] at hitem
    exact ⟨item, hitem, hread⟩

theorem Holds.keepsItems (h : ∀ r, ∃ es, Holds w r es) (hg : Grows w w') : KeepsItems w w' := by
  intro r i item hitem
  refine ⟨hg.subitemAt hitem, ?_⟩
  obtain ⟨es, hr⟩ := h r
  rw [Recorded.subitemAt, Stable.at?_eq] at hitem
  obtain ⟨e, -, he⟩ := List.mem_map.mp
    (hr.items ▸ List.mem_map_of_mem (List.mem_of_getElem? hitem))
  rw [← he]
  exact hg.read he.symm

/-- **The item list is the ordered merge of messages and sub-reports.** After any calls that were made, every
further one returns, the items of each report merge what the calls gave it, and they go on doing so at the same
indices. -/
theorem items_merge (h : runs step {} calls = some w) :
    (∀ c, w.enabled c = true → (w.step c).isSome = true) ∧
      (∀ r, Merges w r (entries r 0 calls)) ∧
      ∀ later w', runs step w later = some w' → KeepsItems w w' := by
  obtain ⟨hforest, hbounded⟩ := forest h
  have hempty : ∀ r, Holds {} r [] := fun r =>
    ⟨rfl, rfl, rfl, fun item hitem => absurd hitem List.not_mem_nil, rfl⟩
  have hholds : ∀ r, Holds w r (entries r 0 calls) := fun r =>
    (runs_holds (fun _ _ => rfl) h (hempty r)).1
  have hfresh : w.Fresh := (runs_holds (fun _ _ => rfl) h (hempty 0)).2.1
  refine ⟨fun c => step_isSome hforest hbounded, fun r => (hholds r).merges, ?_⟩
  intro later w' hlater
  exact Holds.keepsItems (fun r => ⟨_, hholds r⟩) (runs_holds hfresh hlater (hholds 0)).2.2

/-- Messages and sub-reports in turn, more than there is room for in a block. -/
def inTurn : List Call :=
  .new :: (List.replicate 33 [.log 0 { header := "toto" }, .createSubReport 0]).flatten

theorem items_merge_in_turn : ∃ w, runs step {} inTurn = some w ∧
    (∀ c, w.enabled c = true → (w.step c).isSome = true) ∧ (∀ r, Merges w r (entries r 0 inTurn)) ∧
      ∀ later w', runs step w later = some w' → KeepsItems w w' := by
  have hruns : (runs step {} inTurn).isSome = true := by decide
  obtain ⟨w, hw⟩ := Option.isSome_iff_exists.mp hruns
  exact ⟨w, hw, items_merge hw⟩

end Laws

end Recorded

end EzCpp.Reporting
