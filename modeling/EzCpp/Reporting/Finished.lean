import EzCpp.Reporting.Guard
import EzCpp.Reporting.Propagation

/-!
# Finished reports

`set_status` completes the progress of a report that finishes, and nothing keeps it there: it can be
set again, and every change below makes a new mean of it. So a call leaves all finished reports
complete exactly if the means that it makes of finished reports come to 100 (`Harmless`).
-/

namespace EzCpp.Reporting

open EzCpp.Lib Relation Progressing

namespace Reports

variable {rs rs' : Reports} {r q x a : ReportId} {p : ExecutionProgress}
  {v w : ReportId → ExecutionProgress}

/-! ## What a new progress leads to -/

theorem passesTo_rightUnique (rs : Reports) : Relator.RightUnique rs.PassesTo :=
  fun _ _ _ h h' => Option.some.inj (h.2.symm.trans h'.2)

theorem showsMean_unique (h : rs.ShowsMean v a) (h' : rs.ShowsMean w a)
    (same : ∀ c ∈ rs.active a, v c = w c) : v a = w a := by
  have terms : (rs.active a).map (fun c =>
      ((rs.data c).progressWeightInParent : ℚ) * (v c).val) =
        (rs.active a).map fun c => ((rs.data c).progressWeightInParent : ℚ) * (w c).val :=
    List.map_congr_left fun c hc => by rw [same c hc]
  have means : rs.mean v a = rs.mean w a := by rw [mean, mean, terms]
  rw [ShowsMean, means, ← h'] at h
  exact Fin.ext (Int.ofNat.inj h)

/-- The law leaves no choice. -/
theorem Prescribed.unique (hf : rs.Forest) (h : rs.Prescribed r p v) (h' : rs.Prescribed r p w)
    (ha : ReflTransGen rs.PassesTo r a) : v a = w a := by
  induction ha with
  | refl => rw [h.own, h'.own]
  | @tail a b hra hab ih =>
    have above : TransGen rs.PassesTo r b := .tail' hra hab
    refine showsMean_unique (h.means b above) (h'.means b above) fun c hc => ?_
    obtain ⟨hc, hw⟩ := List.mem_filter.1 hc
    have passes : rs.PassesTo c b := ⟨of_decide_eq_true hw, (hf.listed b c).1 hc⟩
    by_cases hca : c = a
    · exact hca ▸ ih
    -- no other sub-report is on the way up
    have apart : ¬ ReflTransGen rs.PassesTo r c := by
      intro hrc
      rcases ReflTransGen.total_of_right_unique rs.passesTo_rightUnique hrc hra with hl | hl
      · rcases ReflTransGen.cases_head hl with he | ⟨d, hd, hda⟩
        · exact hca he
        · cases passes.2.symm.trans hd.2
          exact hf.not_transGen .refl (.head' hab hda)
      · rcases ReflTransGen.cases_head hl with he | ⟨d, hd, hdc⟩
        · exact hca he.symm
        · cases hab.2.symm.trans hd.2
          exact hf.not_transGen .refl (.head' passes hdc)
    have below : c ≠ r ∧ ¬ TransGen rs.PassesTo r c :=
      ⟨fun he => apart (he ▸ .refl), fun ht => apart ht.to_reflTransGen⟩
    rw [h.rest c below.1 below.2, h'.rest c below.1 below.2]

theorem SameLinks.prescribed_iff (h : rs.SameLinks rs')
    (hp : ∀ x, progress rs' x = progress rs x) :
    rs'.Prescribed r p v ↔ rs.Prescribed r p v := by
  constructor
  · rintro ⟨own, means, rest⟩
    simp only [h.passesTo_eq, ShowsMean, h.mean_eq, hp] at means rest
    exact ⟨own, means, rest⟩
  · rintro ⟨own, means, rest⟩
    refine ⟨own, ?_, ?_⟩
    · simpa only [h.passesTo_eq, ShowsMean, h.mean_eq] using means
    · simpa only [h.passesTo_eq, hp] using rest

/-! ## Finished reports -/

/-- Every finished report is complete. -/
def Complete (rs : Reports) : Prop := ∀ r, rs.status r = .finished → progress rs r = 100

/-- Nothing comes of the new progress, or what comes of it is 100 wherever a report is finished. -/
def Harmless (rs : Reports) (r : ReportId) (p : ExecutionProgress) : Prop :=
  progress rs r = p ∨ ∀ v, rs.Prescribed r p v →
    ∀ a, ReflTransGen rs.PassesTo r a → rs.status a = .finished → v a = 100

theorem Complete.setProgress_iff (hc : ∀ x, x ≠ r → rs.status x = .finished → progress rs x = 100)
    (hr : progress rs r = p → rs.Complete) (hf : rs.Forest) (hb : rs.Bounded)
    (h : rs.setProgress r p = some rs') : rs'.Complete ↔ rs.Harmless r p := by
  by_cases hp : progress rs r = p
  · rw [setProgress, if_pos (show (rs.data r).progress = p from hp)] at h
    cases h
    exact iff_of_true (hr hp) (.inl hp)
  · obtain ⟨rs'', h', propagated⟩ := hf.setProgress_spec hb r hp
    cases h.symm.trans h'
    obtain ⟨only, prescribed⟩ := propagated.prescribed hf
    have statuses : ∀ x, rs'.status x = rs.status x := fun x => (only.marks x).1
    constructor
    · refine fun hc' => .inr fun v hv a ha hs => ?_
      rw [hv.unique hf prescribed ha]
      exact hc' a ((statuses a).trans hs)
    · rintro (he | hv) x hx
      · exact absurd he hp
      rw [statuses] at hx
      by_cases above : ReflTransGen rs.PassesTo r x
      · exact hv _ prescribed x above hx
      · have below : x ≠ r ∧ ¬ TransGen rs.PassesTo r x :=
          ⟨fun he => above (he ▸ .refl), fun ht => above ht.to_reflTransGen⟩
        rw [prescribed.rest x below.1 below.2]
        exact hc x below.1 hx

/-! ## Operations -/

inductive Operation
  | event (e : Event)
  | setProgress (r : ReportId) (p : ExecutionProgress)
  | setProgressWeight (r : ReportId) (w : Nat)
  | log (r : ReportId) (category : ExecutionLogCategory)

def operate (rs : Reports) : Operation → Option Reports
  | .event e => rs.step e
  | .setProgress r p => if r < rs.size then rs.setProgress r p else none
  | .setProgressWeight r w => if r < rs.size then some (rs.setProgressWeight r w) else none
  | .log r category => if r < rs.size then rs.log r category else none

/-- The new progress that the operation sets, if any, is harmless. -/
def Operation.Keeps (rs : Reports) : Operation → Prop
  | .setProgress r p => rs.Harmless r p
  | .event (.setStatus r .finished) => rs.status r = .finished ∨ rs.Harmless r 100
  | _ => True

theorem Complete.of_same (hc : rs.Complete)
    (statuses : ∀ x, rs'.status x = .finished → rs.status x = .finished)
    (progresses : ∀ x, rs.status x = .finished → progress rs' x = progress rs x) :
    rs'.Complete := by
  intro x hx
  have finished := statuses x hx
  rw [progresses x finished]
  exact hc x finished

/-- An edit that has no part in it. -/
theorem Complete.edit (hc : rs.Complete) {f : ExecutionReportData → ExecutionReportData}
    (hs : (f (rs.data r)).status = .finished → (rs.data r).status = .finished)
    (hp : (f (rs.data r)).progress = (rs.data r).progress) : (rs.edit r f).Complete := by
  have self : (rs.edit r f).data r = f (rs.data r) := edit_data_self ..
  refine hc.of_same (fun x hx => ?_) fun x _ => ?_
  · by_cases hxr : x = r
    · subst hxr
      rw [Reports.status, self] at hx
      exact hs hx
    · rwa [Reports.status, edit_data_of_ne _ _ hxr] at hx
  · by_cases hxr : x = r
    · subst hxr
      rw [progress, self]
      exact hp
    · rw [progress, edit_data_of_ne _ _ hxr]
      rfl

theorem Complete.new (hc : rs.Complete) : rs.new.Complete := by
  have other : ∀ x, x ≠ rs.size → rs.new.data x = rs.data x := fun x hx => Function.update_of_ne hx ..
  intro x hx
  by_cases hxs : x = rs.size
  · subst hxs
    have fresh : rs.new.data rs.size = {} := Function.update_self ..
    rw [Reports.status, fresh] at hx
    cases hx
  · rw [Reports.status, other x hxs] at hx
    rw [progress, other x hxs]
    exact hc x hx

/-- A cascade writes nothing but the status `Cancelled`. -/
theorem Complete.cancel {n : Nat} (hc : rs.Complete)
    (h : setStatusWithin n rs r .cancelled = some rs') : rs'.Complete := by
  induction n generalizing rs r rs' with
  | zero => cases h
  | succ n ih =>
    rw [setStatusWithin] at h
    split at h
    next =>
      cases h
      exact hc
    next =>
      obtain ⟨l, hl, h⟩ := Option.bind_eq_some_iff.1 h
      rw [if_neg (by decide), if_pos rfl] at h
      have written : (rs.writeStatus r .cancelled).Complete := hc.edit (fun hs => by cases hs) rfl
      generalize ((rs.writeStatus r .cancelled).data r).subReports = subs at h
      generalize rs.writeStatus r .cancelled = mid at h written
      induction subs generalizing mid with
      | nil =>
        cases h
        exact written
      | cons s subs ihs =>
        rw [List.foldlM_cons] at h
        obtain ⟨next, hn, h⟩ := Option.bind_eq_some_iff.1 h
        refine ihs next h ?_
        split at hn
        next =>
          cases hn
          exact written
        next => exact ih written hn

theorem Complete.setStatus_iff (hc : rs.Complete) (hf : rs.Forest) (hb : rs.Bounded)
    {status : ExecutionStatus} (h : rs.setStatus r status = some rs') :
    rs'.Complete ↔ Operation.Keeps rs (.event (.setStatus r status)) := by
  by_cases hr : rs.status r = status
  · rw [setStatus, setStatusWithin, if_pos (show (rs.data r).status = status from hr)] at h
    cases h
    refine iff_of_true hc ?_
    cases status with
    | finished => exact .inl hr
    | _ => trivial
  by_cases hcancel : status = .cancelled
  · subst hcancel
    exact iff_of_true (hc.cancel h) trivial
  rw [hf.setStatus_eq hb hr hcancel] at h
  by_cases hfinished : status = .finished
  · subst hfinished
    rw [if_pos rfl] at h
    have links := rs.sameLinks_writeStatus r .finished
    have progresses : ∀ x, progress (rs.writeStatus r .finished) x = progress rs x := by
      intro x
      by_cases hx : x = r
      · subst hx
        rw [progress, writeStatus, edit_data_self]
        rfl
      · rw [progress, writeStatus, edit_data_of_ne _ _ hx]
        rfl
    have others : ∀ x, x ≠ r → (rs.writeStatus r .finished).status x = .finished →
        progress (rs.writeStatus r .finished) x = 100 := by
      intro x hx hs
      rw [status_writeStatus_of_ne _ _ hx] at hs
      rw [progresses]
      exact hc x hs
    have own : progress (rs.writeStatus r .finished) r = 100 →
        (rs.writeStatus r .finished).Complete := by
      intro hp x hs
      by_cases hx : x = r
      · rw [hx]
        exact hp
      · exact others x hx hs
    rw [Complete.setProgress_iff others own (links.forest hf) (links.bounded hb) h]
    have harmless : (rs.writeStatus r .finished).Harmless r 100 ↔ rs.Harmless r 100 := by
      refine or_congr (by rw [progresses]) (forall_congr' fun v => ?_)
      rw [links.prescribed_iff progresses, links.passesTo_eq]
      refine imp_congr_right fun hv => forall_congr' fun a => imp_congr_right fun _ => ?_
      by_cases ha : a = r
      · rw [ha, hv.own]
        exact iff_of_true (fun _ => rfl) fun _ => rfl
      · rw [status_writeStatus_of_ne _ _ ha]
    rw [harmless]
    exact ⟨.inr, fun hk => hk.resolve_left hr⟩
  · rw [if_neg hfinished] at h
    cases h
    refine iff_of_true (hc.edit (fun hs => absurd ?_ hfinished) ?_) ?_
    · cases status <;> exact hs
    · cases status <;> rfl
    · cases status <;> trivial

theorem forest_setProgressWeight (hf : rs.Forest) (hb : rs.Bounded) (r : ReportId) (w : Nat) :
    (rs.setProgressWeight r w).Forest ∧ (rs.setProgressWeight r w).Bounded := by
  have links : ∀ x, (rs.setProgressWeight r w).parent x = rs.parent x ∧
      ((rs.setProgressWeight r w).data x).subReports = (rs.data x).subReports := by
    intro x
    by_cases hx : x = r
    · subst hx
      rw [parent, setProgressWeight, edit_data_self]
      exact ⟨rfl, rfl⟩
    · rw [parent, setProgressWeight, edit_data_of_ne _ _ hx]
      exact ⟨rfl, rfl⟩
  have parents : (rs.setProgressWeight r w).parent = rs.parent := funext fun x => (links x).1
  refine ⟨⟨?_, fun a b => ?_, fun a => ?_⟩, ⟨fun a b => ?_, fun a => ?_⟩⟩
  · rw [parents]
    exact hf.acyclic
  · rw [(links a).2, parents]
    exact hf.listed a b
  · rw [(links a).2]
    exact hf.once a
  · rw [parents]
    exact hb.parent a b
  · rw [(links a).2, parents]
    exact hb.rest a

theorem operate_forest {o : Operation} (hf : rs.Forest) (hb : rs.Bounded)
    (h : rs.operate o = some rs') : rs'.Forest ∧ rs'.Bounded := by
  cases o with
  | event e => exact step_forest hf hb h
  | setProgress r p =>
    obtain ⟨-, h⟩ := Option.ite_none_right_eq_some.1 h
    obtain ⟨rs'', h', only⟩ := hf.setProgress_isSome hb r p
    cases h.symm.trans h'
    exact ⟨only.links.forest hf, only.links.bounded hb⟩
  | setProgressWeight r w =>
    obtain ⟨-, h⟩ := Option.ite_none_right_eq_some.1 h
    cases h
    exact forest_setProgressWeight hf hb r w
  | log r category =>
    obtain ⟨-, h⟩ := Option.ite_none_right_eq_some.1 h
    rw [hf.log_eq hb category] at h
    cases h
    have links := rs.sameLinks_writeLog r category
    exact ⟨links.forest hf, links.bounded hb⟩

/-- **What an operation does to the finished reports.** -/
theorem operate_complete_iff {o : Operation} (hc : rs.Complete) (hf : rs.Forest) (hb : rs.Bounded)
    (h : rs.operate o = some rs') : rs'.Complete ↔ o.Keeps rs := by
  cases o with
  | event e =>
    cases e with
    | new =>
      cases h
      exact iff_of_true hc.new trivial
    | createSubReport r =>
      obtain ⟨-, h⟩ := Option.ite_none_right_eq_some.1 h
      obtain ⟨l, hl, h⟩ := Option.bind_eq_some_iff.1 h
      cases h
      exact iff_of_true ((hc.new.edit id rfl).edit id rfl) trivial
    | setStatus r status =>
      obtain ⟨-, h⟩ := Option.ite_none_right_eq_some.1 h
      exact hc.setStatus_iff hf hb h
  | setProgress r p =>
    obtain ⟨-, h⟩ := Option.ite_none_right_eq_some.1 h
    exact Complete.setProgress_iff (fun x _ => hc x) (fun _ => hc) hf hb h
  | setProgressWeight r w =>
    obtain ⟨-, h⟩ := Option.ite_none_right_eq_some.1 h
    cases h
    exact iff_of_true (hc.edit id rfl) trivial
  | log r category =>
    obtain ⟨-, h⟩ := Option.ite_none_right_eq_some.1 h
    rw [hf.log_eq hb category] at h
    cases h
    refine iff_of_true (hc.edit ?_ ?_) trivial
    · cases category <;> exact id
    · cases category <;> rfl

/-- **Along a history all finished reports are complete if, and only if, every progress that is set
is harmless.** -/
theorem finished_complete_iff (os : List Operation) :
    (∀ os₁ os₂ rs, os = os₁ ++ os₂ → runs operate empty os₁ = some rs → rs.Complete) ↔
      ∀ os₁ o os₂ rs rs', os = os₁ ++ o :: os₂ → runs operate empty os₁ = some rs →
        rs.operate o = some rs' → o.Keeps rs := by
  have forest : ∀ {os₁ rs}, runs operate empty os₁ = some rs → rs.Forest ∧ rs.Bounded :=
    fun h => runs_invariant (P := fun rs => rs.Forest ∧ rs.Bounded)
      (fun _ _ _ hi hs => operate_forest hi.1 hi.2 hs) h ⟨forest_empty, bounded_empty⟩
  constructor
  · intro h os₁ o os₂ rs rs' hos hrs hs
    obtain ⟨hf, hb⟩ := forest hrs
    have before := h os₁ (o :: os₂) rs hos hrs
    have after := h (os₁ ++ [o]) os₂ rs' (by simp [hos]) (runs_concat.2 ⟨rs, hrs, hs⟩)
    exact (operate_complete_iff before hf hb hs).1 after
  · intro h os₁ os₂ rs hos hrs
    have invariant : runs operate empty os₁ = some rs ∧
        ((∃ os₂, os = os₁ ++ os₂) → rs.Complete) := by
      refine runs_induction (P := fun os₁ rs => runs operate empty os₁ = some rs ∧
        ((∃ os₂, os = os₁ ++ os₂) → rs.Complete)) ⟨rfl, fun _ => nofun⟩
        (fun os₁ rs o rs' ih hs => ?_) hrs
      refine ⟨runs_concat.2 ⟨rs, ih.1, hs⟩, fun ⟨os₂, hos⟩ => ?_⟩
      rw [List.append_assoc] at hos
      obtain ⟨hf, hb⟩ := forest ih.1
      exact (operate_complete_iff (ih.2 ⟨_, hos⟩) hf hb hs).2 (h os₁ o os₂ rs rs' hos ih.1 hs)
    exact invariant.2 ⟨os₂, hos⟩

/-- A report that is finished goes back with its sub-report. -/
theorem finished_incomplete : ¬ ∀ os rs, runs operate empty os = some rs → rs.Complete := by
  intro h
  have complete := h [.event .new, .event (.createSubReport 0), .event (.setStatus 0 .finished),
    .setProgress 1 50] _ rfl 0 rfl
  exact absurd complete (by decide)

end Reports

end EzCpp.Reporting
