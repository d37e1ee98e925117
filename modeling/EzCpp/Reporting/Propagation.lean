import EzCpp.Reporting.Progress
import Mathlib.Algebra.BigOperators.Ring.Finset
import Mathlib.Algebra.Order.Round
import Mathlib.Data.Rat.Floor
import Mathlib.Tactic.FieldSimp
import Mathlib.Tactic.Ring

/-!
# The propagation of progress

A report that is written passes its change on to its parent, unless its weight is zero: the parent
gets the mean of its sub-reports, and passes that on in turn (`PassesTo`). What is written above
leaves the sub-reports below as they are, so that in the end all the means hold at once
(`Propagated`).
-/

namespace EzCpp.Reporting

open EzCpp.Lib Relation Progressing

namespace Reports

variable {rs rs' : Reports} {r q x a : ReportId}

/-! ## The mean -/

/-- The sub-reports with a weight. -/
def active (rs : Reports) (r : ReportId) : List ReportId :=
  (rs.data r).subReports.filter fun c => (rs.data c).progressWeightInParent ≠ 0

/-- The weighted mean over the sub-reports with a weight, if this is the progress of the reports. -/
def mean (rs : Reports) (v : ReportId → ExecutionProgress) (r : ReportId) : ℚ :=
  ((rs.active r).map fun c => ((rs.data c).progressWeightInParent : ℚ) * (v c).val).sum /
    ((rs.active r).map fun c => ((rs.data c).progressWeightInParent : ℚ)).sum

/-- The progress is the mean, rounded. No mean is negative, and halves are rounded up. -/
def ShowsMean (rs : Reports) (v : ReportId → ExecutionProgress) (r : ReportId) : Prop :=
  ((v r).val : ℤ) = round (rs.mean v r)

theorem round_div (total : Nat) {weights : Nat} (hw : weights ≠ 0) :
    round ((total : ℚ) / weights) = ((2 * total + weights) / (2 * weights) : Nat) := by
  have hw' : (weights : ℚ) ≠ 0 := Nat.cast_ne_zero.2 hw
  have quotient : (total : ℚ) / weights + 1 / 2 =
      ((2 * total + weights : Nat) : ℚ) / ((2 * weights : Nat) : ℚ) := by
    push_cast
    field_simp
  rw [round_eq, quotient, Rat.floor_natCast_div_natCast, Int.natCast_div]

/-- No mean is over 100. -/
theorem rounded_val {total weights : Nat} (hw : weights ≠ 0) (h : total ≤ 100 * weights) :
    (ExecutionProgress.rounded total weights).val = (2 * total + weights) / (2 * weights) := by
  refine Nat.min_eq_left (Nat.le_of_lt_succ ?_)
  rw [Nat.div_lt_iff_lt_mul (by omega)]
  omega

theorem total_le (l : List ReportId) : (l.map fun c =>
    (rs.data c).progress.val * (rs.data c).progressWeightInParent).sum ≤
      100 * (l.map fun c => (rs.data c).progressWeightInParent).sum := by
  induction l with
  | nil => exact Nat.le_refl _
  | cons c l ih =>
    simp only [List.map_cons, List.sum_cons, Nat.mul_add]
    have bound : (rs.data c).progress.val ≤ 100 := Nat.le_of_lt_succ (rs.data c).progress.isLt
    exact Nat.add_le_add (Nat.mul_le_mul_right _ bound) ih

theorem progressFromSubReports_active (rs : Reports) (r : ReportId) : rs.progressFromSubReports r =
    if ((rs.active r).map fun c => (rs.data c).progressWeightInParent).sum = 0 then none
    else some (.rounded ((rs.active r).map fun c =>
        (rs.data c).progress.val * (rs.data c).progressWeightInParent).sum
      ((rs.active r).map fun c => (rs.data c).progressWeightInParent).sum) := by
  have datas : ((rs.data r).subReports.map rs.data).filter (·.progressWeightInParent ≠ 0) =
      (rs.active r).map rs.data := by
    rw [active, List.filter_map]
    rfl
  simp only [progressFromSubReports, datas, List.map_map, Function.comp_def]

/-- What is written is the mean. -/
theorem showsMean_of_progress (h : rs.progressFromSubReports r = some (progress rs r)) :
    rs.ShowsMean (progress rs) r := by
  rw [progressFromSubReports_active] at h
  split at h
  next => cases h
  next hw =>
    have val := congrArg Fin.val (Option.some.inj h)
    rw [rounded_val hw (total_le _)] at val
    have sum_cast : ∀ (f : ReportId → Nat) (l : List ReportId),
        ((l.map f).sum : ℚ) = (l.map fun c => (f c : ℚ)).sum := by
      intro f l
      rw [Nat.cast_list_sum, List.map_map]
      rfl
    rw [ShowsMean, ← val, ← round_div _ hw, mean, sum_cast, sum_cast]
    simp only [progress, Nat.cast_mul, mul_comm]

theorem progressFromSubReports_isSome {c : ReportId} (hc : c ∈ (rs.data r).subReports)
    (hw : (rs.data c).progressWeightInParent ≠ 0) : ∃ p, rs.progressFromSubReports r = some p := by
  rw [progressFromSubReports_active, if_neg]
  · exact ⟨_, rfl⟩
  · intro hz
    have member : c ∈ rs.active r := List.mem_filter.2 ⟨hc, decide_eq_true hw⟩
    exact hw (List.sum_eq_zero_iff_forall_eq_nat.1 hz _ (List.mem_map_of_mem member))

/-- The mean only depends on the sub-reports with a weight. -/
theorem OnlyProgress.mean_eq (h : rs.OnlyProgress rs')
    (same : ∀ c ∈ (rs.data r).subReports, (rs.data c).progressWeightInParent ≠ 0 →
      progress rs' c = progress rs c) :
    rs'.progressFromSubReports r = rs.progressFromSubReports r := by
  have weights : ∀ c, (rs'.data c).progressWeightInParent = (rs.data c).progressWeightInParent :=
    fun c => (h.links.2 c).2.2
  have actives : rs'.active r = rs.active r := by
    simp only [active, (h.links.2 r).2.1, weights]
  have progresses : (rs.active r).map (fun c =>
      (rs'.data c).progress.val * (rs.data c).progressWeightInParent) =
        (rs.active r).map fun c => (rs.data c).progress.val * (rs.data c).progressWeightInParent := by
    refine List.map_congr_left fun c hc => ?_
    obtain ⟨hc, hw⟩ := List.mem_filter.1 hc
    rw [show (rs'.data c).progress = (rs.data c).progress from same c hc (of_decide_eq_true hw)]
  simp only [progressFromSubReports_active, actives, weights, progresses]

/-! ## The way up -/

/-- A change of the first report is passed on to the second one. -/
def PassesTo (rs : Reports) (a b : ReportId) : Prop :=
  (rs.data a).progressWeightInParent ≠ 0 ∧ rs.parent a = some b

theorem SameLinks.passesTo_eq (h : rs.SameLinks rs') : rs'.PassesTo = rs.PassesTo := by
  funext a b
  rw [PassesTo, PassesTo, h.parent_eq, (h.2 a).2.2]

theorem PassesTo.transGen_iff (h : rs.PassesTo r q) :
    TransGen rs.PassesTo r a ↔ a = q ∨ TransGen rs.PassesTo q a := by
  rw [TransGen.head'_iff]
  constructor
  · rintro ⟨b, hb, hba⟩
    cases h.2.symm.trans hb.2
    exact reflTransGen_iff_eq_or_transGen.1 hba
  · intro ha
    exact ⟨q, h, reflTransGen_iff_eq_or_transGen.2 ha⟩

theorem Forest.not_transGen (hf : rs.Forest) (h : ReflTransGen (HasParent rs.parent) a r) :
    ¬ TransGen rs.PassesTo r a := by
  intro hr
  have up : TransGen (HasParent rs.parent) r a := TransGen.mono (fun _ _ hab => hab.2) _ _ hr
  exact hf.acyclic r (up.trans_left h)

/-- The change of a report has been passed on: all above it that it reaches show their means, and
nothing else is different. -/
structure Propagated (rs : Reports) (r : ReportId) (rs' : Reports) : Prop where
  written : rs.OnlyProgress rs'
  means : ∀ a, TransGen rs.PassesTo r a → rs'.progressFromSubReports a = some (progress rs' a)
  rest : ∀ x, ¬ TransGen rs.PassesTo r x → progress rs' x = progress rs x

theorem propagated_refl (h : ∀ a, ¬ rs.PassesTo r a) : rs.Propagated r rs where
  written := .refl rs
  means a ha := by
    obtain ⟨b, hb, -⟩ := TransGen.head'_iff.1 ha
    exact absurd hb (h b)
  rest _ _ := rfl

/-- A parent that is written, and has passed that on. -/
theorem Propagated.of_parent (hf : rs.Forest) (hq : rs.PassesTo r q) {p : ExecutionProgress}
    (hp : rs.progressFromSubReports q = some p) (h : (rs.writeProgress q p).Propagated q rs') :
    rs.Propagated r rs' := by
  have written := rs.onlyProgress_writeProgress q p
  have passes : (rs.writeProgress q p).PassesTo = rs.PassesTo := written.links.passesTo_eq
  have only := written.trans h.written
  have kept : ∀ x, x ≠ q → ¬ TransGen rs.PassesTo q x →
      progress rs' x = progress rs x := by
    intro x hx hxq
    rw [h.rest x (passes ▸ hxq), progress_writeProgress_of_ne _ _ hx]
  refine ⟨only, fun a ha => ?_, fun x hx => ?_⟩
  · rcases hq.transGen_iff.1 ha with rfl | ha
    · have own : progress rs' a = p := by
        rw [h.rest a (passes ▸ hf.not_transGen .refl), progress_writeProgress_self]
      rw [own, ← hp]
      -- the sub-reports are below, where nothing is written
      refine only.mean_eq fun c hc _ => kept c ?_ ?_
      · rintro rfl
        exact hf.acyclic c (.single ((hf.listed c c).1 hc))
      · exact hf.not_transGen (.single ((hf.listed a c).1 hc))
    · exact h.means a (passes ▸ ha)
  · refine kept x ?_ fun hxq => hx (hq.transGen_iff.2 (.inr hxq))
    rintro rfl
    exact hx (.single hq)

/-- One step of the way up. -/
theorem propagated_step (hf : rs.Forest) {update : Reports → ReportId → Option Reports}
    (hu : ∀ q, rs.PassesTo r q → ∃ p rs', rs.progressFromSubReports q = some p ∧
      update rs q = some rs' ∧ (rs.writeProgress q p).Propagated q rs') :
    ∃ rs', rs.tryPropagateProgressToParent update r = some rs' ∧ rs.Propagated r rs' := by
  unfold tryPropagateProgressToParent
  split
  next hw => exact ⟨rs, rfl, propagated_refl fun a ha => ha.1 hw⟩
  next hw =>
    cases hp : (rs.data r).parent with
    | none => exact ⟨rs, rfl, propagated_refl fun a ha => nomatch hp.symm.trans ha.2⟩
    | some q =>
      have passes : rs.PassesTo r q := ⟨hw, hp⟩
      obtain ⟨p, rs', hm, hrs, h⟩ := hu q passes
      exact ⟨rs', hrs, h.of_parent hf passes hm⟩

/-- The way up ends where the walk of `notify` does. -/
theorem propagated_update {n : Nat} {l : List ReportId} (hf : rs.Forest) (hb : rs.Bounded)
    (hl : ancestors rs.parent n q = some l) (hq : rs.PassesTo r q) :
    ∃ p rs', rs.progressFromSubReports q = some p ∧
      updateProgressFromSubReports n rs q = some rs' ∧ (rs.writeProgress q p).Propagated q rs' := by
  induction n generalizing rs r q l with
  | zero => cases hl
  | succ n ih =>
    obtain ⟨p, hp⟩ := progressFromSubReports_isSome ((hf.listed q r).2 hq.2) hq.1
    have links := (rs.onlyProgress_writeProgress q p).links
    have hf' := links.forest hf
    have hb' := links.bounded hb
    obtain ⟨l', hl'⟩ := hf'.notify_isSome hb' q
    have next : ∀ q', (rs.writeProgress q p).PassesTo q q' →
        ∃ p' rs', (rs.writeProgress q p).progressFromSubReports q' = some p' ∧
          updateProgressFromSubReports n (rs.writeProgress q p) q' = some rs' ∧
            ((rs.writeProgress q p).writeProgress q' p').Propagated q' rs' := by
      intro q' hq'
      have parent : rs.parent q = some q' := (links.2 q).1.symm.trans hq'.2
      rw [ancestors_of_some parent, ← links.parent_eq] at hl
      obtain ⟨l', hl, -⟩ := Option.map_eq_some_iff.1 hl
      exact ih hf' hb' hl hq'
    obtain ⟨rs', hrs, h⟩ := propagated_step hf' next
    refine ⟨p, rs', hp, ?_, h⟩
    rw [updateProgressFromSubReports, hp]
    simp only [hl', Option.bind_eq_bind, Option.bind_some]
    exact hrs

/-- **What `set_progress` does**: it writes, and what it has written is passed on. -/
theorem Forest.setProgress_spec (hf : rs.Forest) (hb : rs.Bounded) (r : ReportId)
    {p : ExecutionProgress} (hp : progress rs r ≠ p) :
    ∃ rs', rs.setProgress r p = some rs' ∧ (rs.writeProgress r p).Propagated r rs' := by
  have links := (rs.onlyProgress_writeProgress r p).links
  have hf' := links.forest hf
  have hb' := links.bounded hb
  obtain ⟨l, hl⟩ := hf'.notify_isSome hb' r
  have next : ∀ q, (rs.writeProgress r p).PassesTo r q →
      ∃ p' rs', (rs.writeProgress r p).progressFromSubReports q = some p' ∧
        updateProgressFromSubReports (rs.size + 1) (rs.writeProgress r p) q = some rs' ∧
          ((rs.writeProgress r p).writeProgress q p').Propagated q rs' := by
    intro q hq
    obtain ⟨l, hl⟩ := hf'.notify_isSome hb' q
    rw [← links.1]
    exact propagated_update hf' hb' hl hq
  obtain ⟨rs', hrs, h⟩ := propagated_step hf' next
  refine ⟨rs', ?_, h⟩
  rw [setProgress, if_neg (show ¬ (rs.data r).progress = p from hp)]
  simp only [hl, Option.bind_eq_bind, Option.bind_some]
  exact hrs

/-! ## The law of the means -/

/-- The progress of all reports once `r` has the progress `p`, by the law of the means alone: all
that `r` reaches through reports with a weight show their means, and nothing else is different. -/
structure Prescribed (rs : Reports) (r : ReportId) (p : ExecutionProgress)
    (v : ReportId → ExecutionProgress) : Prop where
  own : v r = p
  means : ∀ a, TransGen rs.PassesTo r a → rs.ShowsMean v a
  rest : ∀ x, x ≠ r → ¬ TransGen rs.PassesTo r x → v x = progress rs x

theorem SameLinks.mean_eq (h : rs.SameLinks rs') : rs'.mean = rs.mean := by
  have actives : rs'.active = rs.active := by
    funext r
    simp only [active, (h.2 _).2.1, (h.2 _).2.2]
  funext v r
  simp only [mean, actives, (h.2 _).2.2]

theorem Propagated.prescribed (hf : rs.Forest) {p : ExecutionProgress}
    (h : (rs.writeProgress r p).Propagated r rs') :
    rs.OnlyProgress rs' ∧ rs.Prescribed r p (progress rs') := by
  have written := rs.onlyProgress_writeProgress r p
  have passes : (rs.writeProgress r p).PassesTo = rs.PassesTo := written.links.passesTo_eq
  have only := written.trans h.written
  refine ⟨only, ?_, fun a ha => ?_, fun x hx hxr => ?_⟩
  · rw [h.rest r (passes ▸ hf.not_transGen .refl), progress_writeProgress_self]
  · have shows := showsMean_of_progress (h.means a (passes ▸ ha))
    rwa [ShowsMean, only.links.mean_eq] at shows
  · rw [h.rest x (passes ▸ hxr), progress_writeProgress_of_ne _ _ hx]

/-- **Setting a new progress returns, writes nothing but progress, and leaves the means that the law
prescribes.** -/
theorem setProgress_mean (rs : Reports) (hf : rs.Forest) (hb : rs.Bounded) (r : ReportId)
    (p : ExecutionProgress) (hp : progress rs r ≠ p) :
    ∃ rs', rs.setProgress r p = some rs' ∧ rs.OnlyProgress rs' ∧
      rs.Prescribed r p (progress rs') := by
  obtain ⟨rs', hrs, h⟩ := hf.setProgress_spec hb r hp
  exact ⟨rs', hrs, h.prescribed hf⟩

theorem three_bounded : three.Bounded :=
  ((bounded_empty.new.new.attach (by decide) (by decide)).new.attach (by decide) (by decide)).new.attach
    (by decide) (by decide)

theorem setProgress_mean_three : ∃ rs', three.setProgress 2 100 = some rs' ∧
    three.ShowsMean (progress rs') 0 := by
  obtain ⟨rs', h, -, -, means, -⟩ :=
    setProgress_mean three three_forest three_bounded 2 100 (by decide)
  exact ⟨rs', h, means 0 (.single ⟨by decide, rfl⟩)⟩

end Reports

end EzCpp.Reporting
