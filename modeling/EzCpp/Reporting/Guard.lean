import EzCpp.Reporting.Cancel

/-!
# Status guards

A guard starts a report when it is made and decides its status when it ends, from what the report
has logged and from its direct sub-reports. A run is any sequence of guards, of `init` and of logged
messages in which guards end children before parents. The status that a guard leaves is the verdict
on what was logged in the whole subtree by reports that were started (`Sound`). A report that was
not started is cancelled, whatever it has logged, so that the verdict on everything that was logged
needs one more condition (`verdict_iff`).
-/

namespace EzCpp.Reporting

open EzCpp.Lib Relation

namespace Reports

variable {rs rs' : Reports} {r s x : ReportId}

/-! ## What the functions write -/

/-- What comes after `init`. -/
def initialised (rs : Reports) (r : ReportId) : Reports :=
  if rs.status r = .pending then rs.writeStatus r .running else rs

theorem Forest.init_eq (hf : rs.Forest) (hb : rs.Bounded) :
    rs.init r = some (rs.initialised r) := by
  rw [init, initialised]
  by_cases h : rs.status r = .pending
  · rw [if_pos (show (rs.data r).status = .pending from h), if_pos h]
    exact hf.setStatus_eq hb (by rw [h]; decide) (by decide)
  · rw [if_neg (show ¬ (rs.data r).status = .pending from h), if_neg h]

theorem sameLinks_initialised (rs : Reports) (r : ReportId) : rs.SameLinks (rs.initialised r) := by
  unfold initialised
  split
  · exact rs.sameLinks_writeStatus r .running
  · exact .refl rs

theorem initialised_data_of_ne (rs : Reports) (h : x ≠ r) :
    (rs.initialised r).data x = rs.data x := by
  unfold initialised
  split
  · exact edit_data_of_ne rs _ h
  · rfl

theorem initialised_data_self (rs : Reports) (r : ReportId) : (rs.initialised r).data r =
    { rs.data r with status := if rs.status r = .pending then .running else rs.status r } := by
  unfold initialised
  split
  · exact edit_data_self ..
  · rfl

theorem status_initialised_of_ne (r : ReportId) (h : rs.status x ≠ .pending) :
    (rs.initialised r).status x = rs.status x := by
  by_cases hx : x = r
  · subst hx
    rw [initialised, if_neg h]
  · rw [status, rs.initialised_data_of_ne hx]
    rfl

theorem sameLinks_writeLog (rs : Reports) (r : ReportId) (category : ExecutionLogCategory) :
    rs.SameLinks (rs.writeLog r category) := by
  refine rs.sameLinks_edit r fun d => ?_
  cases category <;> exact ⟨rfl, rfl, rfl⟩

theorem Forest.log_eq (hf : rs.Forest) (hb : rs.Bounded) (category : ExecutionLogCategory) :
    rs.log r category = some (rs.writeLog r category) := by
  obtain ⟨l, hl⟩ := hf.notify_isSome hb r
  have walk : (rs.writeLog r category).notify r = some l :=
    ((rs.sameLinks_writeLog r category).notify_eq r).trans hl
  rw [log, walk]
  rfl

/-- A leaf is cancelled alone. -/
theorem Forest.cancel_leaf (hf : rs.Forest) (hb : rs.Bounded) (hr : rs.status r ≠ .cancelled)
    (leaf : (rs.data r).subReports = []) :
    rs.setStatus r .cancelled = some (rs.writeStatus r .cancelled) := by
  rw [setStatus, setStatusWithin_cancelled hr (hf.notify_isSome hb r), leaf]
  rfl

/-- What is known of the status and of the messages stays the same. -/
def Marks (d d' : ExecutionReportData) : Prop :=
  d'.status = d.status ∧ d'.errorLogged = d.errorLogged ∧ d'.warningLogged = d.warningLogged

theorem Marks.of_eq {d d' : ExecutionReportData} (h : d' = d) : Marks d d' := by
  subst h
  exact ⟨rfl, rfl, rfl⟩

theorem OnlyProgress.marks (h : rs.OnlyProgress rs') (x : ReportId) :
    Marks (rs.data x) (rs'.data x) := by
  obtain ⟨p, hp⟩ := h.2 x
  rw [hp]
  exact ⟨rfl, rfl, rfl⟩

/-- No other report gets a status, unless it is cancelled. -/
theorem Forest.setStatus_marks (hf : rs.Forest) (hb : rs.Bounded) {status : ExecutionStatus}
    (hr : rs.status r ≠ status) (hc : status ≠ .cancelled) : ∃ rs', rs.setStatus r status = some rs' ∧
      rs.SameLinks rs' ∧ rs'.status r = status ∧ ∀ x, x ≠ r → Marks (rs.data x) (rs'.data x) := by
  have written := rs.sameLinks_writeStatus r status
  have self := status_writeStatus_self rs r status
  have other : ∀ x, x ≠ r → (rs.writeStatus r status).data x = rs.data x :=
    fun x hx => edit_data_of_ne rs _ hx
  rw [hf.setStatus_eq hb hr hc]
  split
  · obtain ⟨rs', h, progress⟩ := (written.forest hf).setProgress_isSome (written.bounded hb) r 100
    refine ⟨rs', h, written.trans progress.links, (progress.marks r).1.trans self, fun x hx => ?_⟩
    rw [← other x hx]
    exact progress.marks x
  · exact ⟨_, rfl, written, self, fun x hx => .of_eq (other x hx)⟩

/-! ## The end of a guard -/

/-- What `finish` takes for an error of a sub-report. -/
def hasError (d : ExecutionReportData) : Bool :=
  d.status = .error || d.status = .running && d.errorLogged

/-- What `finish` takes for a warning of a sub-report. -/
def hasWarning (d : ExecutionReportData) : Bool :=
  d.status = .warning || d.status = .running && !d.errorLogged && d.warningLogged

theorem visit_spec {f : Finishing} (hf : f.reports.Forest) (hb : f.reports.Bounded)
    (leaf : f.reports.status s = .pending → (f.reports.data s).subReports = []) :
    ∃ rs', f.visit s = some ⟨rs', f.hasWarning || hasWarning (f.reports.data s),
        f.hasError || hasError (f.reports.data s)⟩ ∧ f.reports.SameLinks rs' ∧
      ∀ x, x ≠ s ∨ (f.reports.status x).isFinal → rs'.data x = f.reports.data x := by
  have same := SameLinks.refl f.reports
  have links := f.reports.sameLinks_writeStatus s
  have other : ∀ status, (f.reports.status s).isFinal = false → ∀ x,
      x ≠ s ∨ (f.reports.status x).isFinal →
        (f.reports.writeStatus s status).data x = f.reports.data x := by
    rintro status hs x hx
    refine edit_data_of_ne _ _ (hx.elim id ?_)
    rintro hfinal rfl
    rw [hs] at hfinal
    cases hfinal
  unfold Finishing.visit
  cases h : (f.reports.data s).status with
  | pending =>
    have hs : f.reports.status s = .pending := h
    have cancel := hf.cancel_leaf hb (by rw [hs]; decide) (leaf hs)
    refine ⟨f.reports.writeStatus s .cancelled, ?_, links _, other _ (by rw [hs]; rfl)⟩
    simp [cancel, hasWarning, hasError, h]
  | running =>
    have hs : f.reports.status s = .running := h
    have error := hf.setStatus_eq hb (show f.reports.status s ≠ .error by rw [hs]; decide) (by decide)
    have warning := hf.setStatus_eq hb (show f.reports.status s ≠ .warning by rw [hs]; decide) (by decide)
    by_cases he : (f.reports.data s).errorLogged
    · refine ⟨f.reports.writeStatus s .error, ?_, links _, other _ (by rw [hs]; rfl)⟩
      simp [error, hasWarning, hasError, h, he]
    · by_cases hw : (f.reports.data s).warningLogged
      · refine ⟨f.reports.writeStatus s .warning, ?_, links _, other _ (by rw [hs]; rfl)⟩
        simp [warning, hasWarning, hasError, h, he, hw]
      · refine ⟨f.reports, ?_, same, fun _ _ => rfl⟩
        simp [hasWarning, hasError, h, he, hw]
  | cancelRequest => exact ⟨f.reports, by simp [hasWarning, hasError, h], same, fun _ _ => rfl⟩
  | cancelled => exact ⟨f.reports, by simp [hasWarning, hasError, h], same, fun _ _ => rfl⟩
  | finished => exact ⟨f.reports, by simp [hasWarning, hasError, h], same, fun _ _ => rfl⟩
  | warning => exact ⟨f.reports, by simp [hasWarning, hasError, h], same, fun _ _ => rfl⟩
  | error => exact ⟨f.reports, by simp [hasWarning, hasError, h], same, fun _ _ => rfl⟩

theorem any_congr {l : List ReportId} {p q : ReportId → Bool} (h : ∀ x ∈ l, p x = q x) :
    l.any p = l.any q := by
  rw [Bool.eq_iff_iff, List.any_eq_true, List.any_eq_true]
  exact exists_congr fun x => and_congr_right fun hx => by rw [h x hx]

/-- The loop of `finish`: every sub-report is looked at as it was before. -/
theorem foldlM_visit {l : List ReportId} {f : Finishing} (hf : f.reports.Forest)
    (hb : f.reports.Bounded) (hl : l.Nodup)
    (leaf : ∀ s ∈ l, f.reports.status s = .pending → (f.reports.data s).subReports = []) :
    ∃ rs', l.foldlM Finishing.visit f = some ⟨rs',
        f.hasWarning || l.any fun s => hasWarning (f.reports.data s),
        f.hasError || l.any fun s => hasError (f.reports.data s)⟩ ∧ f.reports.SameLinks rs' ∧
      ∀ x, x ∉ l ∨ (f.reports.status x).isFinal → rs'.data x = f.reports.data x := by
  induction l generalizing f with
  | nil => exact ⟨f.reports, by simp, .refl _, fun _ _ => rfl⟩
  | cons s l ih =>
    obtain ⟨hs, hl⟩ := List.nodup_cons.1 hl
    obtain ⟨leaf', leaf⟩ := List.forall_mem_cons.1 leaf
    obtain ⟨mid, hv, links, keep⟩ := visit_spec hf hb leaf'
    have rest : ∀ x ∈ l, mid.data x = f.reports.data x :=
      fun x hx => keep x (.inl fun he => hs (he ▸ hx))
    have leaf : ∀ x ∈ l, mid.status x = .pending → (mid.data x).subReports = [] := by
      intro x hx
      rw [status, rest x hx]
      exact leaf x hx
    obtain ⟨rs', h, links', keep'⟩ :=
      ih (f := ⟨mid, f.hasWarning || hasWarning (f.reports.data s),
        f.hasError || hasError (f.reports.data s)⟩) (links.forest hf) (links.bounded hb) hl leaf
    refine ⟨rs', ?_, links.trans links', fun x hx => ?_⟩
    · have warnings : (l.any fun s => hasWarning (mid.data s)) =
          l.any fun s => hasWarning (f.reports.data s) :=
        any_congr fun x hx => by rw [rest x hx]
      have errors : (l.any fun s => hasError (mid.data s)) =
          l.any fun s => hasError (f.reports.data s) :=
        any_congr fun x hx => by rw [rest x hx]
      rw [List.foldlM_cons, hv]
      rw [warnings, errors] at h
      simpa [Bool.or_assoc] using h
    · have first : mid.data x = f.reports.data x :=
        keep x (hx.imp_left fun hn he => hn (he ▸ List.mem_cons_self))
      rw [← first]
      refine keep' x (hx.imp (fun hn hm => hn (List.mem_cons_of_mem s hm)) fun hfinal => ?_)
      rw [status, first]
      exact hfinal

/-- The status that the end of a guard sets. -/
def verdict (error warning : Bool) : ExecutionStatus :=
  if error then .error else if warning then .warning else .finished

theorem verdict_ne : ∀ error warning : Bool,
    verdict error warning ≠ .running ∧ verdict error warning ≠ .cancelled := by
  decide

/-- **The end of a guard** on a running report: the status is the verdict on the report and on what
its sub-reports were before. What is not among them is left alone, and so is what is final. -/
theorem finish_spec (hf : rs.Forest) (hb : rs.Bounded) (running : rs.status r = .running)
    (leaf : ∀ s ∈ (rs.data r).subReports, rs.status s = .pending → (rs.data s).subReports = []) :
    ∃ rs', rs.finish r = some rs' ∧ rs.SameLinks rs' ∧
      (∀ x, x ≠ r → (x ∉ (rs.data r).subReports ∨ (rs.status x).isFinal) →
        Marks (rs.data x) (rs'.data x)) ∧
      rs'.status r = verdict
        (((rs.data r).subReports.any fun s => hasError (rs.data s)) || (rs.data r).errorLogged)
        (((rs.data r).subReports.any fun s => hasWarning (rs.data s)) || (rs.data r).warningLogged) := by
  have irrefl : r ∉ (rs.data r).subReports := fun h => hf.acyclic r (.single ((hf.listed r r).1 h))
  obtain ⟨mid, h, links, keep⟩ := foldlM_visit (f := { reports := rs }) hf hb (hf.once r) leaf
  have self : mid.data r = rs.data r := keep r (.inl irrefl)
  have running' : (mid.data r).status = .running := self ▸ running
  have last : ∀ status, status ≠ .running → status ≠ .cancelled →
      ∃ rs', mid.setStatus r status = some rs' ∧ rs.SameLinks rs' ∧
        (∀ x, x ≠ r → (x ∉ (rs.data r).subReports ∨ (rs.status x).isFinal) →
          Marks (rs.data x) (rs'.data x)) ∧ rs'.status r = status := by
    intro status hs hc
    have change : mid.status r ≠ status := fun he => hs (he.symm.trans running')
    obtain ⟨rs', h, links', status', marks⟩ :=
      (links.forest hf).setStatus_marks (links.bounded hb) change hc
    refine ⟨rs', h, links.trans links', fun x hx hkeep => ?_, status'⟩
    rw [← keep x hkeep]
    exact marks x hx
  have decided : ∀ error warning : Bool, (if error then mid.setStatus r .error
      else if warning then mid.setStatus r .warning else mid.setStatus r .finished) =
        mid.setStatus r (verdict error warning) := by
    intro error warning
    cases error <;> cases warning <;> rfl
  rw [finish, h]
  simp only [Option.bind_eq_bind, Option.bind_some, self, Bool.false_or, ← Bool.or_eq_true, decided]
  rw [if_pos (.inl running)]
  exact last _ (verdict_ne _ _).1 (verdict_ne _ _).2

end Reports

/-! ## Runs -/

/-- Whether a report has an `ExecutionStatusGuard`. -/
inductive Guard
  | none
  | active
  | ended
deriving DecidableEq

structure Guarded where
  reports : Reports
  guard : ReportId → Guard

namespace Guarded

open Reports (empty forest_empty bounded_empty)

inductive Event
  | init (r : ReportId)
  /-- a guard is made -/
  | guard (r : ReportId)
  | finish (r : ReportId)
  | log (r : ReportId) (category : ExecutionLogCategory)
deriving DecidableEq

variable {tree : Reports} {g g' : Guarded} {r s x : ReportId} {es : List Event}

/-- No guard has ended, neither of the report nor of one above it. -/
def isOpen (g : Guarded) (r : ReportId) : Bool :=
  match g.reports.notify r with
  | .none => false
  | .some l => (r :: l).all fun x => g.guard x ≠ .ended

/-- Guards end children before parents, and only a leaf goes without one. -/
def mayFinish (g : Guarded) (r : ReportId) : Bool :=
  (g.reports.data r).subReports.all fun s =>
    g.guard s = .ended ∨ g.guard s = .none ∧ (g.reports.data s).subReports = []

def step (g : Guarded) : Event → Option Guarded
  | .init r =>
    if r < g.reports.size then do return { g with reports := ← g.reports.init r }
    else none
  | .guard r =>
    if r < g.reports.size ∧ g.guard r = .none ∧ g.isOpen r then do
      return { reports := ← g.reports.init r, guard := Function.update g.guard r .active }
    else none
  | .finish r =>
    if g.guard r = .active ∧ g.mayFinish r then do
      return { reports := ← g.reports.finish r, guard := Function.update g.guard r .ended }
    else none
  | .log r category =>
    if r < g.reports.size ∧ g.isOpen r then do
      return { g with reports := ← g.reports.log r category }
    else none

/-- No report is started at first, and nothing is logged. -/
def start (tree : Reports) : Guarded := ⟨tree, fun _ => .none⟩

def Fresh (tree : Reports) : Prop := ∀ r, tree.status r = .pending ∧
  (tree.data r).errorLogged = false ∧ (tree.data r).warningLogged = false

/-- The report was initialised before the guard of its parent ended. -/
def Started (tree : Reports) (es : List Event) (x : ReportId) : Prop :=
  ∃ es₁ es₂, es = es₁ ++ es₂ ∧ (.init x ∈ es₁ ∨ .guard x ∈ es₁) ∧
    ∀ p, tree.parent x = some p → .finish p ∉ es₁

/-- Something in the subtree logged a message of the category. -/
def Logged (tree : Reports) (es : List Event) (r : ReportId) (category : ExecutionLogCategory) :
    Prop :=
  ∃ x, tree.Below r x ∧ .log x category ∈ es

/-- Something in the subtree that was started logged a message of the category. -/
def Heard (tree : Reports) (es : List Event) (r : ReportId) (category : ExecutionLogCategory) :
    Prop :=
  ∃ x, tree.Below r x ∧ .log x category ∈ es ∧ Started tree es x

/-- Error before Warning before Finished. -/
def Verdict (error warning : Prop) (status : ExecutionStatus) : Prop :=
  (error → status = .error) ∧ (¬ error → warning → status = .warning) ∧
    (¬ error → ¬ warning → status = .finished)

/-! ## What was started and logged -/

theorem Started.concat (h : Started tree es x) (e : Event) : Started tree (es ++ [e]) x := by
  obtain ⟨es₁, es₂, rfl, hx, hp⟩ := h
  exact ⟨es₁, es₂ ++ [e], List.append_assoc .., hx, hp⟩

theorem started_concat {e : Event} (h : Started tree (es ++ [e]) x) :
    Started tree es x ∨ (e = .init x ∨ e = .guard x) ∧
      ∀ p, tree.parent x = some p → .finish p ∉ es := by
  obtain ⟨es₁, es₂, he, hx, hp⟩ := h
  rcases List.eq_nil_or_concat es₂ with rfl | ⟨es₂, e', rfl⟩
  · rw [List.append_nil] at he
    subst he
    have parent : ∀ p, tree.parent x = some p → .finish p ∉ es :=
      fun p h hm => hp p h (List.mem_append_left _ hm)
    rcases hx with hx | hx
    · rcases List.mem_append.1 hx with hx | hx
      · exact .inl ⟨es, [], (List.append_nil es).symm, .inl hx, parent⟩
      · exact .inr ⟨.inl (List.mem_singleton.1 hx).symm, parent⟩
    · rcases List.mem_append.1 hx with hx | hx
      · exact .inl ⟨es, [], (List.append_nil es).symm, .inr hx, parent⟩
      · exact .inr ⟨.inr (List.mem_singleton.1 hx).symm, parent⟩
  · rw [List.concat_eq_append, ← List.append_assoc] at he
    obtain ⟨rfl, -⟩ := List.append_inj' he rfl
    exact .inl ⟨es₁, es₂, rfl, hx, hp⟩

theorem Started.now (h : .init x ∈ es ∨ .guard x ∈ es)
    (hp : ∀ p, tree.parent x = some p → .finish p ∉ es) : Started tree es x :=
  ⟨es, [], (List.append_nil es).symm, h, hp⟩

theorem Heard.concat {c : ExecutionLogCategory} (h : Heard tree es r c) (e : Event) :
    Heard tree (es ++ [e]) r c := by
  obtain ⟨x, hx, hl, hs⟩ := h
  exact ⟨x, hx, List.mem_append_left _ hl, hs.concat e⟩

theorem isOpen_iff (hf : g.reports.Forest) (hb : g.reports.Bounded) :
    g.isOpen r = true ↔ ∀ x, g.reports.Below x r → g.guard x ≠ .ended := by
  obtain ⟨l, hl⟩ := hf.notify_isSome hb r
  have above : ∀ x, x ∈ r :: l ↔ g.reports.Below x r := by
    intro x
    rw [Reports.below_iff hf, reflTransGen_iff_eq_or_transGen, List.mem_cons, mem_ancestors hl]
  rw [isOpen, hl]
  simp only [List.all_eq_true, above, decide_eq_true_eq]

/-! ## The invariant -/

/-- A report whose guard has not ended, nor that of its parent. -/
structure Waiting (tree : Reports) (es : List Event) (x : ReportId) (d : ExecutionReportData) :
    Prop where
  status : d.status = .pending ∧ ¬ Started tree es x ∨ d.status = .running ∧ Started tree es x
  error : d.errorLogged = true ↔ .log x .error ∈ es
  warning : d.warningLogged = true ↔ .log x .warning ∈ es

/-- **The invariant.** Every guard that has ended left the verdict on its subtree. -/
structure Sound (tree : Reports) (es : List Event) (g : Guarded) : Prop where
  links : tree.SameLinks g.reports
  finished : ∀ x, .finish x ∈ es ↔ g.guard x = .ended
  started : ∀ x, g.guard x ≠ .none → Started tree es x
  closed : ∀ x, g.guard x = .ended → ∀ s ∈ (tree.data x).subReports,
    g.guard s = .ended ∨ g.guard s = .none ∧ (tree.data s).subReports = []
  waiting : ∀ x, g.guard x ≠ .ended → (∀ p, tree.parent x = some p → g.guard p ≠ .ended) →
    Waiting tree es x (g.reports.data x)
  verdict : ∀ x, g.guard x = .ended →
    Verdict (Heard tree es x .error) (Heard tree es x .warning) (g.reports.status x)

/-- A tree that is only built is fresh. -/
theorem fresh_of_build {bs : List Reports.Building} (h : runs Reports.build .empty bs = some tree) :
    Fresh tree := by
  intro r
  obtain ⟨parent, subReports, hr⟩ := Reports.data_of_build h r
  rw [Reports.status, hr]
  exact ⟨rfl, rfl, rfl⟩

theorem Sound.start (fresh : Fresh tree) : Sound tree [] (start tree) where
  links := .refl tree
  finished x := by simp [Guarded.start]
  started x h := absurd rfl h
  closed x h := nomatch h
  waiting x _ _ := by
    obtain ⟨hs, he, hw⟩ := fresh x
    refine ⟨.inl ⟨hs, ?_⟩, by simp [Guarded.start, he], by simp [Guarded.start, hw]⟩
    rintro ⟨es₁, es₂, h, hx, -⟩
    rw [(List.append_eq_nil_iff.1 h.symm).1] at hx
    simp at hx
  verdict x h := nomatch h

/-- What has sub-reports and is below a guard that has ended was under a guard that has ended. -/
theorem Sound.ended_below (h : Sound tree es g) (hr : g.guard r = .ended) (hx : tree.Below r x)
    (inner : (tree.data x).subReports ≠ []) : g.guard x = .ended := by
  induction hx with
  | refl => exact hr
  | @tail p x _ hpx ih =>
    have hp := ih (List.ne_nil_of_mem hpx)
    exact (h.closed p hp x hpx).resolve_right fun hn => inner hn.2

theorem Sound.isOpen_iff (h : Sound tree es g) (hf : tree.Forest) (hb : tree.Bounded) :
    g.isOpen r = true ↔ ∀ x, tree.Below x r → g.guard x ≠ .ended := by
  rw [Guarded.isOpen_iff (h.links.forest hf) (h.links.bounded hb)]
  exact forall_congr' fun x => by rw [h.links.below_iff]

/-- What was heard below a guard that has ended is what will be heard. -/
theorem Sound.heard_concat (h : Sound tree es g) (hf : tree.Forest) {e : Event}
    {c : ExecutionLogCategory} (hr : g.guard r = .ended)
    (he : ∀ x, e = .log x c → ¬ tree.Below r x) :
    Heard tree (es ++ [e]) r c ↔ Heard tree es r c := by
  refine ⟨fun ⟨x, hx, hl, hs⟩ => ⟨x, hx, ?_, ?_⟩, fun hc => hc.concat e⟩
  · rcases List.mem_append.1 hl with hl | hl
    · exact hl
    · exact absurd hx (he x (List.mem_singleton.1 hl).symm)
  · rcases started_concat hs with hs | ⟨-, hp⟩
    · exact hs
    · rcases ReflTransGen.cases_tail hx with rfl | ⟨p, hrp, hpx⟩
      · exact h.started x (by rw [hr]; decide)
      · have ended := h.ended_below hr hrp (List.ne_nil_of_mem hpx)
        exact absurd ((h.finished p).2 ended) (hp p ((hf.listed p x).1 hpx))

/-- What is waiting goes on waiting if nothing happens to it. -/
theorem Waiting.concat {d : ExecutionReportData} (h : Waiting tree es x d) {e : Event}
    (init : e ≠ .init x) (guard : e ≠ .guard x) (log : ∀ c, e ≠ .log x c) :
    Waiting tree (es ++ [e]) x d := by
  have started : Started tree (es ++ [e]) x ↔ Started tree es x := by
    refine ⟨fun hs => (started_concat hs).resolve_right fun hs => ?_, fun hs => hs.concat e⟩
    exact hs.1.elim init guard
  have logged : ∀ c, .log x c ∈ es ++ [e] ↔ .log x c ∈ es := by
    intro c
    rw [List.mem_append, List.mem_singleton, or_iff_left (log c).symm]
  refine ⟨?_, ?_, ?_⟩
  · rw [started]
    exact h.status
  · rw [logged]
    exact h.error
  · rw [logged]
    exact h.warning

theorem Waiting.of_marks {d d' : ExecutionReportData} (h : Waiting tree es x d)
    (m : Reports.Marks d d') : Waiting tree es x d' := by
  obtain ⟨status, error, warning⟩ := m
  refine ⟨?_, ?_, ?_⟩
  · rw [status]
    exact h.status
  · rw [error]
    exact h.error
  · rw [warning]
    exact h.warning

theorem Verdict.status_cases {error warning : Prop} {status : ExecutionStatus}
    (h : Verdict error warning status) :
    status = .error ∨ status = .warning ∨ status = .finished := by
  by_cases he : error
  · exact .inl (h.1 he)
  · by_cases hw : warning
    · exact .inr (.inl (h.2.1 he hw))
    · exact .inr (.inr (h.2.2 he hw))

/-! ## The steps -/

/-- A report is started by what initialises it. -/
theorem Waiting.initialised {rs : Reports} (h : Waiting tree es r (rs.data r)) {e : Event}
    (started : Started tree (es ++ [e]) r) (log : ∀ c, e ≠ .log r c) :
    Waiting tree (es ++ [e]) r ((rs.initialised r).data r) := by
  have logged : ∀ c, .log r c ∈ es ++ [e] ↔ .log r c ∈ es := by
    intro c
    rw [List.mem_append, List.mem_singleton, or_iff_left (log c).symm]
  rw [rs.initialised_data_self]
  refine ⟨.inr ⟨?_, started⟩, h.error.trans (logged _).symm, h.warning.trans (logged _).symm⟩
  rcases h.status with ⟨hs, -⟩ | ⟨hs, -⟩
  · exact if_pos hs
  · have running : rs.status r = .running := hs
    simp [running]

theorem Sound.init (h : Sound tree es g) (hf : tree.Forest) {e : Event}
    (he : e = .init r ∨ e = .guard r) :
    Sound tree (es ++ [e]) { g with reports := g.reports.initialised r } := by
  have silent : ∀ y c, e ≠ .log y c := fun y c hn => he.elim (fun he => nomatch hn.symm.trans he)
    fun he => nomatch hn.symm.trans he
  have finish : ∀ x, .finish x ∈ es ++ [e] ↔ .finish x ∈ es := by
    intro x
    rw [List.mem_append, List.mem_singleton]
    refine or_iff_left fun hx => ?_
    subst hx
    exact he.elim nofun nofun
  refine ⟨h.links.trans (g.reports.sameLinks_initialised r), fun x => (finish x).trans (h.finished x),
    fun x hx => (h.started x hx).concat e, h.closed, fun x hx hp => ?_, fun x hx => ?_⟩
  · have old := h.waiting x hx hp
    by_cases hxr : x = r
    · subst hxr
      have last : .init x ∈ es ++ [e] ∨ .guard x ∈ es ++ [e] := by
        rcases he with rfl | rfl
        · exact .inl (List.mem_append_right es (List.mem_singleton_self _))
        · exact .inr (List.mem_append_right es (List.mem_singleton_self _))
      have started : Started tree (es ++ [e]) x :=
        .now last fun p hxp hm => hp p hxp ((h.finished p).1 ((finish p).1 hm))
      exact old.initialised started (silent x)
    · dsimp only
      rw [g.reports.initialised_data_of_ne hxr]
      refine old.concat (fun hn => ?_) (fun hn => ?_) (silent x)
      · rcases he with he | he
        · exact hxr (Event.init.inj (hn.symm.trans he))
        · cases hn.symm.trans he
      · rcases he with he | he
        · cases hn.symm.trans he
        · exact hxr (Event.guard.inj (hn.symm.trans he))
  · have old := h.verdict x hx
    rw [h.heard_concat hf hx fun y hn => absurd hn (silent y _),
      h.heard_concat hf hx fun y hn => absurd hn (silent y _)]
    have started : g.reports.status x ≠ .pending := by
      rcases old.status_cases with hs | hs | hs <;> rw [hs] <;> decide
    dsimp only
    rw [Reports.status_initialised_of_ne r started]
    exact old

/-- A guard is made for a report that was started and under no guard that has ended. -/
theorem Sound.arm (h : Sound tree es g) (hr : Started tree es r)
    (isOpen : ∀ x, tree.Below x r → g.guard x ≠ .ended) :
    Sound tree es { g with guard := Function.update g.guard r .active } := by
  have ended : ∀ x, Function.update g.guard r .active x = .ended ↔ g.guard x = .ended := by
    intro x
    by_cases hx : x = r
    · subst hx
      rw [Function.update_self]
      exact iff_of_false (by decide) (isOpen x .refl)
    · rw [Function.update_of_ne hx]
  refine ⟨h.links, fun x => (h.finished x).trans (ended x).symm, fun x hx => ?_, fun x hx s hs => ?_,
    fun x hx hp => ?_, fun x hx => h.verdict x ((ended x).1 hx)⟩
  · by_cases hxr : x = r
    · exact hxr ▸ hr
    · dsimp only at hx
      rw [Function.update_of_ne hxr] at hx
      exact h.started x hx
  · have hx := (ended x).1 hx
    have hsr : s ≠ r := fun he => isOpen x (he ▸ .single hs) hx
    dsimp only
    rw [Function.update_of_ne hsr]
    exact h.closed x hx s hs
  · exact h.waiting x (fun hn => hx ((ended x).2 hn)) fun p hxp hn => hp p hxp ((ended p).2 hn)

theorem Sound.log (h : Sound tree es g) (hf : tree.Forest) {c : ExecutionLogCategory}
    (isOpen : ∀ x, tree.Below x r → g.guard x ≠ .ended) :
    Sound tree (es ++ [.log r c]) { g with reports := g.reports.writeLog r c } := by
  have finish : ∀ x, .finish x ∈ es ++ [.log r c] ↔ .finish x ∈ es := by
    intro x
    rw [List.mem_append, List.mem_singleton]
    exact or_iff_left nofun
  have started : ∀ x, Started tree (es ++ [.log r c]) x ↔ Started tree es x :=
    fun x => ⟨fun hs => (started_concat hs).resolve_right fun hs => hs.1.elim nofun nofun,
      fun hs => hs.concat _⟩
  have status : ∀ x, (g.reports.writeLog r c).status x = g.reports.status x := by
    intro x
    by_cases hx : x = r
    · subst hx
      rw [Reports.status, Reports.writeLog, Reports.edit_data_self]
      cases c <;> rfl
    · rw [Reports.status, Reports.writeLog, Reports.edit_data_of_ne _ _ hx]
      rfl
  refine ⟨h.links.trans (g.reports.sameLinks_writeLog r c), fun x => (finish x).trans (h.finished x),
    fun x hx => (h.started x hx).concat _, h.closed, fun x hx hp => ?_, fun x hx => ?_⟩
  · have old := h.waiting x hx hp
    by_cases hxr : x = r
    · subst hxr
      have logged : ∀ c', .log x c' ∈ es ++ [.log x c] ↔ .log x c' ∈ es ∨ c' = c := by
        intro c'
        rw [List.mem_append, List.mem_singleton, Event.log.injEq, and_iff_right rfl]
      refine ⟨?_, ?_, ?_⟩
      · have same : ((g.reports.writeLog x c).data x).status = (g.reports.data x).status := status x
        dsimp only
        rw [started, same]
        exact old.status
      · rw [logged, ← old.error]
        dsimp only
        rw [Reports.writeLog, Reports.edit_data_self]
        cases c <;> simp
      · rw [logged, ← old.warning]
        dsimp only
        rw [Reports.writeLog, Reports.edit_data_self]
        cases c <;> simp
    · dsimp only
      rw [Reports.writeLog, Reports.edit_data_of_ne _ _ hxr]
      exact old.concat nofun nofun fun c' hn => hxr (Event.log.inj hn).1.symm
  · have silent : ∀ y c', Event.log r c = .log y c' → ¬ tree.Below x y := by
      intro y c' hn hxy
      obtain ⟨rfl, -⟩ := Event.log.inj hn
      exact isOpen x hxy hx
    dsimp only
    rw [h.heard_concat hf hx fun y => silent y _, h.heard_concat hf hx fun y => silent y _, status]
    exact h.verdict x hx

/-! ## The end of a guard -/

theorem heard_leaf {c : ExecutionLogCategory} (leaf : (tree.data s).subReports = []) :
    Heard tree es s c ↔ .log s c ∈ es ∧ Started tree es s := by
  constructor
  · rintro ⟨x, hx, hl, hs⟩
    rcases ReflTransGen.cases_head hx with rfl | ⟨y, hy, -⟩
    · exact ⟨hl, hs⟩
    · rw [leaf] at hy
      cases hy
  · exact fun h => ⟨s, .refl, h⟩

theorem heard_iff {c : ExecutionLogCategory} (hr : Started tree es r) :
    Heard tree es r c ↔ .log r c ∈ es ∨ ∃ s ∈ (tree.data r).subReports, Heard tree es s c := by
  constructor
  · rintro ⟨x, hx, hl, hs⟩
    rcases ReflTransGen.cases_head hx with rfl | ⟨s, hs', hx⟩
    · exact .inl hl
    · exact .inr ⟨s, hs', x, hx, hl, hs⟩
  · rintro (hl | ⟨s, hs', x, hx, hl, hs⟩)
    · exact ⟨r, .refl, hl, hr⟩
    · exact ⟨x, .head hs' hx, hl, hs⟩

/-- What `finish` takes from the sub-reports is what was heard below them. -/
theorem Sound.heard_sub (h : Sound tree es g) (hf : tree.Forest) (hr : g.guard r ≠ .ended)
    (hs : s ∈ (tree.data r).subReports)
    (subsOver : g.guard s = .ended ∨ g.guard s = .none ∧ (tree.data s).subReports = []) :
    (Reports.hasError (g.reports.data s) = true ↔ Heard tree es s .error) ∧
      (¬ Heard tree es s .error →
        (Reports.hasWarning (g.reports.data s) = true ↔ Heard tree es s .warning)) := by
  rcases subsOver with ended | ⟨none, leaf⟩
  · obtain ⟨error, warning, finished⟩ := h.verdict s ended
    by_cases he : Heard tree es s .error
    · have status : (g.reports.data s).status = .error := error he
      simp [Reports.hasError, status, he]
    · by_cases hw : Heard tree es s .warning
      · have status : (g.reports.data s).status = .warning := warning he hw
        simp [Reports.hasError, Reports.hasWarning, status, he, hw]
      · have status : (g.reports.data s).status = .finished := finished he hw
        simp [Reports.hasError, Reports.hasWarning, status, he, hw]
  · have waiting := h.waiting s (by rw [none]; decide) fun p hp hn => by
      cases hp.symm.trans ((hf.listed r s).1 hs)
      exact hr hn
    rw [heard_leaf leaf, heard_leaf leaf, ← waiting.error, ← waiting.warning]
    rcases waiting.status with ⟨status, started⟩ | ⟨status, started⟩
    · simp [Reports.hasError, Reports.hasWarning, status, started]
    · simp +contextual [Reports.hasError, Reports.hasWarning, status, started]

theorem verdict_iff_of {error warning : Bool} {E W : Prop} (he : error = true ↔ E)
    (hw : ¬ E → (warning = true ↔ W)) : Verdict E W (Reports.verdict error warning) := by
  cases error with
  | true => exact ⟨fun _ => rfl, fun hn => absurd (he.1 rfl) hn, fun hn => absurd (he.1 rfl) hn⟩
  | false =>
    have none : ¬ E := fun h => Bool.false_ne_true (he.2 h)
    cases warning with
    | true => exact ⟨fun h => absurd h none, fun _ _ => rfl, fun _ hn => absurd ((hw none).1 rfl) hn⟩
    | false =>
      exact ⟨fun h => absurd h none, fun _ h => absurd ((hw none).2 h) Bool.false_ne_true,
        fun _ _ => rfl⟩

theorem mayFinish_iff (links : tree.SameLinks g.reports) : g.mayFinish r = true ↔
    ∀ s ∈ (tree.data r).subReports,
      g.guard s = .ended ∨ g.guard s = .none ∧ (tree.data s).subReports = [] := by
  rw [mayFinish, List.all_eq_true, (links.2 r).2.1]
  refine forall₂_congr fun s _ => ?_
  rw [(links.2 s).2.1, decide_eq_true_eq]

/-- **The end of a guard leaves the verdict on the subtree.** -/
theorem ended_iff {guard : ReportId → Guard} (r x : ReportId) :
    Function.update guard r .ended x = .ended ↔ x = r ∨ guard x = .ended := by
  by_cases hx : x = r
  · simp [hx]
  · rw [Function.update_of_ne hx, or_iff_right hx]

/-- The end of a guard starts nothing and logs nothing. -/
theorem heard_finish (r x : ReportId) (c : ExecutionLogCategory) :
    Heard tree (es ++ [.finish r]) x c ↔ Heard tree es x c := by
  refine ⟨fun ⟨y, hy, hl, hs⟩ => ⟨y, hy, ?_, ?_⟩, fun hc => hc.concat _⟩
  · exact (List.mem_append.1 hl).resolve_right fun hn => nomatch List.mem_singleton.1 hn
  · exact (started_concat hs).resolve_right fun hn => hn.1.elim nofun nofun

theorem Sound.finish (h : Sound tree es g) (hf : tree.Forest) (hb : tree.Bounded)
    (hr : g.guard r = .active) (subsOver : ∀ s ∈ (tree.data r).subReports,
      g.guard s = .ended ∨ g.guard s = .none ∧ (tree.data s).subReports = []) :
    ∃ rs, g.reports.finish r = some rs ∧
      Sound tree (es ++ [.finish r]) ⟨rs, Function.update g.guard r .ended⟩ := by
  have subs : (g.reports.data r).subReports = (tree.data r).subReports := (h.links.2 r).2.1
  have hr' : g.guard r ≠ .ended := by rw [hr]; decide
  have parent : ∀ p, tree.parent r = some p → g.guard p ≠ .ended := by
    intro p hp hn
    rcases h.closed p hn r ((hf.listed p r).2 hp) with he | ⟨he, -⟩
    · exact hr' he
    · cases hr.symm.trans he
  have started := h.started r (by rw [hr]; decide)
  have waiting := h.waiting r hr' parent
  have running : g.reports.status r = .running :=
    (waiting.status.resolve_left fun hn => hn.2 started).1
  obtain ⟨rs, hrs, links, marks, status⟩ := Reports.finish_spec (h.links.forest hf)
    (h.links.bounded hb) running fun s hs hpending => by
      rw [subs] at hs
      rw [(h.links.2 s).2.1]
      refine ((subsOver s hs).resolve_left fun ended => ?_).2
      rcases (h.verdict s ended).status_cases with hs | hs | hs <;> cases hs.symm.trans hpending
  have last : ∀ x, (Event.finish r ≠ .init x) ∧ (Event.finish r ≠ .guard x) ∧
      ∀ c, Event.finish r ≠ .log x c := fun x => ⟨nofun, nofun, nofun⟩
  have irrefl : r ∉ (tree.data r).subReports := fun h => hf.acyclic r (.single ((hf.listed r r).1 h))
  have ended := @ended_iff g.guard r
  refine ⟨rs, hrs, h.links.trans links, fun x => ?_, fun x hx => ?_, fun x hx s hs => ?_,
    fun x hx hp => ?_, fun x hx => ?_⟩
  · rw [ended, List.mem_append, List.mem_singleton, h.finished, or_comm, Event.finish.injEq]
  · by_cases hxr : x = r
    · subst hxr
      exact started.concat _
    · dsimp only at hx
      rw [Function.update_of_ne hxr] at hx
      exact (h.started x hx).concat _
  · dsimp only
    rw [ended]
    by_cases hsr : s = r
    · exact .inl (.inl hsr)
    · rw [Function.update_of_ne hsr, or_iff_right hsr]
      rcases (ended x).1 hx with rfl | hx
      · exact subsOver s hs
      · exact h.closed x hx s hs
  · have hxr : x ≠ r := fun he => hx ((ended x).2 (.inl he))
    have old := h.waiting x (fun hn => hx ((ended x).2 (.inr hn)))
      fun p hxp hn => hp p hxp ((ended p).2 (.inr hn))
    have apart : x ∉ (g.reports.data r).subReports := by
      rw [subs]
      exact fun hm => hp r ((hf.listed r x).1 hm) ((ended r).2 (.inl rfl))
    exact (old.of_marks (marks x hxr (.inl apart))).concat (last x).1 (last x).2.1 (last x).2.2
  · rw [heard_finish, heard_finish]
    by_cases hxr : x = r
    · subst hxr
      dsimp only
      rw [status, subs]
      have sub := fun s hs => h.heard_sub hf hr' hs (subsOver s hs)
      refine verdict_iff_of ?_ fun silent => ?_
      · rw [Bool.or_eq_true, List.any_eq_true, or_comm, waiting.error, heard_iff started]
        refine or_congr_right (exists_congr fun s => and_congr_right fun hs => (sub s hs).1)
      · rw [Bool.or_eq_true, List.any_eq_true, or_comm, waiting.warning, heard_iff started]
        refine or_congr_right (exists_congr fun s => and_congr_right fun hs => (sub s hs).2 ?_)
        exact fun he => silent ((heard_iff started).2 (.inr ⟨s, hs, he⟩))
    · have hx := ((ended x).1 hx).resolve_left hxr
      have old := h.verdict x hx
      have final : (g.reports.status x).isFinal := by
        rcases old.status_cases with hs | hs | hs <;> rw [hs] <;> rfl
      have same : rs.status x = g.reports.status x := (marks x hxr (.inr final)).1
      dsimp only
      rw [same]
      exact old

/-- **Every step keeps the invariant.** -/
theorem Sound.next (h : Sound tree es g) (hf : tree.Forest) (hb : tree.Bounded) {e : Event}
    (he : step g e = some g') : Sound tree (es ++ [e]) g' := by
  have forest := h.links.forest hf
  have bounded := h.links.bounded hb
  cases e with
  | init r =>
    obtain ⟨-, he⟩ := Option.ite_none_right_eq_some.1 he
    rw [forest.init_eq bounded] at he
    cases he
    exact h.init hf (.inl rfl)
  | guard r =>
    obtain ⟨⟨-, none, isOpen⟩, he⟩ := Option.ite_none_right_eq_some.1 he
    rw [forest.init_eq bounded] at he
    cases he
    have isOpen := (h.isOpen_iff hf hb).1 isOpen
    have unended : ∀ p, tree.parent r = some p → .finish p ∉ es := fun p hp hm =>
      isOpen p (.single ((hf.listed p r).2 hp)) ((h.finished p).1 hm)
    have started : Started tree (es ++ [.guard r]) r := by
      refine .now (.inr (List.mem_append_right es (List.mem_singleton_self _))) fun p hp hm => ?_
      exact unended p hp ((List.mem_append.1 hm).resolve_right fun hn =>
        nomatch List.mem_singleton.1 hn)
    exact (h.init hf (.inr rfl)).arm started isOpen
  | finish r =>
    obtain ⟨⟨active, subsOver⟩, he⟩ := Option.ite_none_right_eq_some.1 he
    obtain ⟨rs, hrs, hs⟩ := h.finish hf hb active ((mayFinish_iff h.links).1 subsOver)
    rw [hrs] at he
    cases he
    exact hs
  | log r c =>
    obtain ⟨⟨-, isOpen⟩, he⟩ := Option.ite_none_right_eq_some.1 he
    rw [forest.log_eq bounded] at he
    cases he
    exact h.log hf ((h.isOpen_iff hf hb).1 isOpen)

/-- **Along every run the invariant holds.** -/
theorem sound_of_runs (hf : tree.Forest) (hb : tree.Bounded) (fresh : Fresh tree)
    (h : runs step (Guarded.start tree) es = some g) : Sound tree es g :=
  runs_induction (P := Sound tree) (.start fresh) (fun _ _ _ _ hs he => hs.next hf hb he) h

/-- What was logged by something that was not started makes no difference. -/
def Covered (tree : Reports) (es : List Event) (r : ReportId) : Prop :=
  (Logged tree es r .error → Heard tree es r .error) ∧
    (¬ Logged tree es r .error → Logged tree es r .warning → Heard tree es r .warning)

theorem Heard.logged {c : ExecutionLogCategory} (h : Heard tree es r c) : Logged tree es r c := by
  obtain ⟨x, hx, hl, -⟩ := h
  exact ⟨x, hx, hl⟩

/-- **The status that a guard leaves is the verdict on all that was logged in its subtree if, and
only if, this does not depend on what was not started.** -/
theorem verdict_iff (tree : Reports) (es : List Event) (g : Guarded) (root : ReportId)
    (hf : tree.Forest) (hb : tree.Bounded) (fresh : Fresh tree)
    (h : runs step (start tree) es = some g) (ended : g.guard root = .ended) :
    Verdict (Logged tree es root .error) (Logged tree es root .warning) (g.reports.status root) ↔
      Covered tree es root := by
  obtain ⟨error, warning, finished⟩ := (sound_of_runs hf hb fresh h).verdict root ended
  constructor
  · rintro ⟨error', warning', -⟩
    refine ⟨fun hl => ?_, fun hn hl => ?_⟩
    · by_contra he
      by_cases hw : Heard tree es root .warning
      · cases (error' hl).symm.trans (warning he hw)
      · cases (error' hl).symm.trans (finished he hw)
    · by_contra hw
      have he : ¬ Heard tree es root .error := fun he => hn he.logged
      cases (warning' hn hl).symm.trans (finished he hw)
  · rintro ⟨error', warning'⟩
    refine ⟨fun hl => error (error' hl), fun hn hl => ?_, fun hn hl => ?_⟩
    · exact warning (fun he => hn he.logged) (warning' hn hl)
    · exact finished (fun he => hn he.logged) fun hw => hl hw.logged

/-- A report with one sub-report. -/
def pair : Reports := empty.new.new.attach 0 1

theorem pair_forest : pair.Forest ∧ pair.Bounded :=
  (forest_empty.new bounded_empty).createSubReport bounded_empty.new (Nat.lt_succ_self 0)

theorem pair_fresh : Fresh pair :=
  @fresh_of_build pair [.new, .createSubReport 0] rfl

theorem verdict_iff_pair : ∃ g, runs step (start pair) [.guard 0, .init 1, .log 1 .error, .finish 0] = some g ∧
    (Verdict (Logged pair [.guard 0, .init 1, .log 1 .error, .finish 0] 0 .error)
      (Logged pair [.guard 0, .init 1, .log 1 .error, .finish 0] 0 .warning) (g.reports.status 0) ↔
        Covered pair [.guard 0, .init 1, .log 1 .error, .finish 0] 0) :=
  ⟨_, rfl, verdict_iff pair _ _ 0 pair_forest.1 pair_forest.2 pair_fresh rfl rfl⟩

/-- The error of a report that was not started is lost: the status is Finished. -/
theorem error_swallowed : ¬ ∀ (tree : Reports) (es : List Event) (g : Guarded) (root : ReportId),
    tree.Forest → tree.Bounded → Fresh tree → runs step (start tree) es = some g →
      g.guard root = .ended →
        Verdict (Logged tree es root .error) (Logged tree es root .warning) (g.reports.status root) := by
  intro h
  obtain ⟨error, -⟩ := h pair [.guard 0, .log 1 .error, .finish 0] _ 0 pair_forest.1 pair_forest.2
    pair_fresh rfl rfl
  have logged : Logged pair [.guard 0, .log 1 .error, .finish 0] 0 .error :=
    ⟨1, .single (by decide), by decide⟩
  cases error logged

end Guarded

end EzCpp.Reporting
