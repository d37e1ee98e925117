import EzCpp.Reporting.Report
import EzCpp.Lib.Runs

/-!
# The hierarchy of reports

`create_sub_report` attaches a report that is new. `add_sub_report` attaches any report to any other
one and looks at neither, so that the hierarchy stays a forest exactly as long as what is attached is
a root, and not above what it is attached to (`hierarchy_iff`). In a forest the walks up end.
-/

namespace EzCpp.Reporting

open EzCpp.Lib Relation

namespace Reports

variable {rs : Reports} {r s x y : ReportId}

@[simp] theorem edit_data_self (rs : Reports) (r : ReportId) (f) :
    (rs.edit r f).data r = f (rs.data r) :=
  Function.update_self ..

theorem edit_data_of_ne (rs : Reports) (f) (h : x ≠ r) : (rs.edit r f).data x = rs.data x :=
  Function.update_of_ne h ..

/-- The hierarchy is a forest, and the lists of sub-reports are the parent relation. -/
structure Forest (rs : Reports) : Prop where
  acyclic : Acyclic rs.parent
  listed : ∀ r s, s ∈ (rs.data r).subReports ↔ rs.parent s = some r
  once : ∀ r, (rs.data r).subReports.Nodup

/-- There is nothing linked beyond the reports there are. -/
structure Bounded (rs : Reports) : Prop where
  parent : ∀ s p, rs.parent s = some p → p < rs.size
  rest : ∀ r, rs.size ≤ r → rs.parent r = none ∧ (rs.data r).subReports = []

/-! ## The walks up -/

/-- What comes after the links are written. -/
def SameLinks (rs rs' : Reports) : Prop := rs'.size = rs.size ∧ ∀ r,
  rs'.parent r = rs.parent r ∧ (rs'.data r).subReports = (rs.data r).subReports ∧
    (rs'.data r).progressWeightInParent = (rs.data r).progressWeightInParent

theorem SameLinks.refl (rs : Reports) : rs.SameLinks rs := ⟨rfl, fun _ => ⟨rfl, rfl, rfl⟩⟩

theorem SameLinks.trans {rs' rs'' : Reports} (h : rs.SameLinks rs') (h' : rs'.SameLinks rs'') :
    rs.SameLinks rs'' := by
  refine ⟨h'.1.trans h.1, fun r => ?_⟩
  obtain ⟨hp, hs, hw⟩ := h.2 r
  obtain ⟨hp', hs', hw'⟩ := h'.2 r
  exact ⟨hp'.trans hp, hs'.trans hs, hw'.trans hw⟩

theorem SameLinks.parent_eq {rs' : Reports} (h : rs.SameLinks rs') : rs'.parent = rs.parent :=
  funext fun r => (h.2 r).1

theorem SameLinks.notify_eq {rs' : Reports} (h : rs.SameLinks rs') (r : ReportId) :
    rs'.notify r = rs.notify r := by
  rw [notify, notify, h.parent_eq, h.1]

theorem SameLinks.forest {rs' : Reports} (h : rs.SameLinks rs') (hf : rs.Forest) : rs'.Forest where
  acyclic := by
    rw [h.parent_eq]
    exact hf.acyclic
  listed r s := by
    rw [(h.2 r).2.1, (h.2 s).1]
    exact hf.listed r s
  once r := by
    rw [(h.2 r).2.1]
    exact hf.once r

theorem SameLinks.bounded {rs' : Reports} (h : rs.SameLinks rs') (hb : rs.Bounded) :
    rs'.Bounded where
  parent s p hp := by
    rw [h.1]
    exact hb.parent s p ((h.2 s).1.symm.trans hp)
  rest r hr := by
    rw [(h.2 r).1, (h.2 r).2.1]
    exact hb.rest r (h.1 ▸ hr)

theorem sameLinks_edit (rs : Reports) (r : ReportId) {f : ExecutionReportData → ExecutionReportData}
    (hf : ∀ d, (f d).parent = d.parent ∧ (f d).subReports = d.subReports ∧
      (f d).progressWeightInParent = d.progressWeightInParent) : rs.SameLinks (rs.edit r f) := by
  refine ⟨rfl, fun x => ?_⟩
  by_cases hx : x = r
  · subst hx
    rw [Reports.parent, edit_data_self]
    exact hf _
  · rw [Reports.parent, edit_data_of_ne rs f hx]
    exact ⟨rfl, rfl, rfl⟩

/-- What comes after only progress is written. -/
def OnlyProgress (rs rs' : Reports) : Prop := rs'.size = rs.size ∧ ∀ r,
  ∃ p, rs'.data r = { rs.data r with progress := p }

theorem OnlyProgress.refl (rs : Reports) : rs.OnlyProgress rs :=
  ⟨rfl, fun r => ⟨(rs.data r).progress, rfl⟩⟩

theorem OnlyProgress.trans {rs' rs'' : Reports} (h : rs.OnlyProgress rs')
    (h' : rs'.OnlyProgress rs'') : rs.OnlyProgress rs'' := by
  refine ⟨h'.1.trans h.1, fun r => ?_⟩
  obtain ⟨p, hp⟩ := h.2 r
  obtain ⟨p', hp'⟩ := h'.2 r
  exact ⟨p', by rw [hp', hp]⟩

theorem OnlyProgress.links {rs' : Reports} (h : rs.OnlyProgress rs') : rs.SameLinks rs' := by
  refine ⟨h.1, fun r => ?_⟩
  obtain ⟨p, hp⟩ := h.2 r
  rw [Reports.parent, hp]
  exact ⟨rfl, rfl, rfl⟩

theorem onlyProgress_writeProgress (rs : Reports) (r : ReportId) (p : ExecutionProgress) :
    rs.OnlyProgress (rs.writeProgress r p) := by
  refine ⟨rfl, fun x => ?_⟩
  by_cases hx : x = r
  · subst hx
    exact ⟨p, edit_data_self ..⟩
  · exact ⟨(rs.data x).progress, edit_data_of_ne rs _ hx⟩

/-- `notify` returns. -/
theorem Forest.notify_isSome (hf : rs.Forest) (hb : rs.Bounded) (r : ReportId) :
    ∃ l, rs.notify r = some l := by
  have parents : ∀ a p, rs.parent a = some p → p ∈ Finset.range rs.size :=
    fun a p hp => Finset.mem_range.2 (hb.parent a p hp)
  obtain ⟨l, hl⟩ := hf.acyclic.exists_ancestors parents r
  rw [Finset.card_range] at hl
  exact ⟨l, hl⟩

theorem tryPropagate_isSome {rs₀ : Reports} (hrs : rs₀.OnlyProgress rs)
    {update : Reports → ReportId → Option Reports} (hu : ∀ q, rs₀.parent r = some q →
      ∃ rs', update rs q = some rs' ∧ rs₀.OnlyProgress rs') :
    ∃ rs', rs.tryPropagateProgressToParent update r = some rs' ∧ rs₀.OnlyProgress rs' := by
  have same : (rs.data r).parent = rs₀.parent r := (hrs.links.2 r).1
  unfold tryPropagateProgressToParent
  split
  · exact ⟨rs, rfl, hrs⟩
  · rw [same]
    cases hp : rs₀.parent r with
    | none => exact ⟨rs, rfl, hrs⟩
    | some q => exact hu q hp

/-- The propagation of progress follows the walk of `notify`. -/
theorem updateProgress_isSome {n : Nat} {rs₀ : Reports} (notify : ∀ r, ∃ l, rs₀.notify r = some l)
    {l : List ReportId} (hl : ancestors rs₀.parent n r = some l) {rs : Reports}
    (hrs : rs₀.OnlyProgress rs) :
    ∃ rs', updateProgressFromSubReports n rs r = some rs' ∧ rs₀.OnlyProgress rs' := by
  induction n generalizing r l rs with
  | zero => cases hl
  | succ n ih =>
    rw [updateProgressFromSubReports]
    cases hm : rs.progressFromSubReports r with
    | none => exact ⟨rs, rfl, hrs⟩
    | some p =>
      have written := hrs.trans (rs.onlyProgress_writeProgress r p)
      obtain ⟨l', hl'⟩ := notify r
      have walk : (rs.writeProgress r p).notify r = some l' :=
        (written.links.notify_eq r).trans hl'
      simp only [walk, Option.bind_eq_bind, Option.bind_some]
      refine tryPropagate_isSome written fun q hp => ?_
      rw [ancestors_of_some hp] at hl
      obtain ⟨l', hl, -⟩ := Option.map_eq_some_iff.1 hl
      exact ih hl written

/-- `set_progress` returns, and writes nothing else. -/
theorem Forest.setProgress_isSome (hf : rs.Forest) (hb : rs.Bounded) (r : ReportId)
    (p : ExecutionProgress) : ∃ rs', rs.setProgress r p = some rs' ∧ rs.OnlyProgress rs' := by
  rw [setProgress]
  split
  · exact ⟨rs, rfl, .refl rs⟩
  · have written := rs.onlyProgress_writeProgress r p
    obtain ⟨l, hl⟩ := hf.notify_isSome hb r
    have walk : (rs.writeProgress r p).notify r = some l := (written.links.notify_eq r).trans hl
    simp only [walk, Option.bind_eq_bind, Option.bind_some]
    refine tryPropagate_isSome written fun q _ => ?_
    obtain ⟨l', hl'⟩ := hf.notify_isSome hb q
    exact updateProgress_isSome (hf.notify_isSome hb) hl' written

/-! ## Attaching reports -/

theorem attach_parent (rs : Reports) (r s : ReportId) :
    (rs.attach r s).parent = Function.update rs.parent s (some r) := by
  have first : (rs.edit s fun d => { d with parent := some r }).parent =
      Function.update rs.parent s (some r) := by
    funext x
    by_cases hx : x = s
    · subst hx
      rw [parent, edit_data_self, Function.update_self]
    · rw [parent, edit_data_of_ne rs _ hx, Function.update_of_ne hx]
      rfl
  rw [← first]
  funext x
  by_cases hx : x = r
  · subst hx
    rw [attach, parent, edit_data_self]
    rfl
  · rw [attach, parent, edit_data_of_ne _ _ hx]
    rfl

theorem attach_subReports (rs : Reports) (r s x : ReportId) :
    ((rs.attach r s).data x).subReports =
      if x = r then (rs.data r).subReports ++ [s] else (rs.data x).subReports := by
  have first : ∀ x, ((rs.edit s fun d => { d with parent := some r }).data x).subReports =
      (rs.data x).subReports := by
    intro x
    by_cases hx : x = s
    · subst hx
      rw [edit_data_self]
    · rw [edit_data_of_ne rs _ hx]
  by_cases hx : x = r
  · subst hx
    rw [attach, edit_data_self, if_pos rfl]
    exact congrArg (· ++ [s]) (first x)
  · rw [attach, edit_data_of_ne _ _ hx, if_neg hx]
    exact first x

/-- What may be attached: a root that is not above the other report. -/
def Attachable (rs : Reports) (r s : ReportId) : Prop :=
  rs.parent s = none ∧ ¬ ReflTransGen (HasParent rs.parent) r s

theorem mem_attach_iff : x ∈ ((rs.attach r s).data y).subReports ↔
    x ∈ (rs.data y).subReports ∨ y = r ∧ x = s := by
  rw [attach_subReports]
  by_cases hy : y = r
  · simp [hy]
  · simp [hy]

theorem attach_hasParent_iff (hs : rs.parent s = none) :
    (rs.attach r s).parent x = some y ↔ rs.parent x = some y ∨ y = r ∧ x = s := by
  rw [attach_parent]
  by_cases hx : x = s
  · subst hx
    rw [Function.update_self, hs]
    simp [eq_comm]
  · rw [Function.update_of_ne hx]
    simp [hx]

/-- **A report can be attached without harm if, and only if, it is a root and not above the other.** -/
theorem attach_forest_iff (hf : rs.Forest) : (rs.attach r s).Forest ↔ rs.Attachable r s := by
  constructor
  · intro h
    have root : rs.parent s = none := by
      by_contra hn
      obtain ⟨p, hp⟩ := Option.ne_none_iff_exists'.1 hn
      have old : s ∈ (rs.data p).subReports := (hf.listed p s).2 hp
      have new : (rs.attach r s).parent s = some r := by rw [attach_parent, Function.update_self]
      have parent := (h.listed p s).1 (mem_attach_iff.2 (.inl old))
      obtain rfl : p = r := Option.some.inj (parent.symm.trans new)
      have once := h.once p
      rw [attach_subReports, if_pos rfl] at once
      exact (List.nodup_append.1 once).2.2 s old s (List.mem_singleton_self s) rfl
    refine ⟨root, ?_⟩
    rw [← acyclic_update_iff hf.acyclic, ← attach_parent]
    exact h.acyclic
  · rintro ⟨root, above⟩
    have fresh : ∀ r, s ∉ (rs.data r).subReports := fun r hs => by
      cases root.symm.trans ((hf.listed r s).1 hs)
    constructor
    · rw [attach_parent]
      exact (acyclic_update_iff hf.acyclic).2 above
    · intro x y
      rw [mem_attach_iff, attach_hasParent_iff root, hf.listed]
    · intro x
      rw [attach_subReports]
      split
      · refine List.nodup_append.2 ⟨hf.once r, List.nodup_singleton s, fun y hy z hz he => ?_⟩
        rw [List.mem_singleton.1 hz] at he
        exact fresh r (he ▸ hy)
      · exact hf.once x

/-! ## Histories -/

inductive Building
  /-- a report is constructed -/
  | new
  | createSubReport (r : ReportId)
  | addSubReport (r s : ReportId)

/-- What a call writes, which is before it notifies. -/
def build (rs : Reports) : Building → Option Reports
  | .new => some rs.new
  | .createSubReport r => if r < rs.size then some (rs.new.attach r rs.size) else none
  | .addSubReport r s => if r < rs.size ∧ s < rs.size then some (rs.attach r s) else none

theorem Bounded.new_data (hb : rs.Bounded) (x : ReportId) : rs.new.parent x = rs.parent x ∧
    (rs.new.data x).subReports = (rs.data x).subReports := by
  by_cases hx : x = rs.size
  · obtain ⟨hp, hs⟩ := hb.rest x (Nat.le_of_eq hx.symm)
    have fresh : rs.new.data x = {} := by
      rw [hx]
      exact Function.update_self ..
    rw [Reports.parent, fresh, hp, hs]
    exact ⟨rfl, rfl⟩
  · have old : rs.new.data x = rs.data x := Function.update_of_ne hx ..
    rw [Reports.parent, old]
    exact ⟨rfl, rfl⟩

theorem Bounded.new_parent (hb : rs.Bounded) : rs.new.parent = rs.parent :=
  funext fun x => (hb.new_data x).1

theorem Bounded.new (hb : rs.Bounded) : rs.new.Bounded where
  parent s p hp := by
    rw [hb.new_parent] at hp
    exact (hb.parent s p hp).trans (Nat.lt_succ_self _)
  rest r hr := by
    rw [(hb.new_data r).1, (hb.new_data r).2]
    exact hb.rest r (Nat.le_of_succ_le hr)

theorem Bounded.attach (hb : rs.Bounded) (hr : r < rs.size) (hs : s < rs.size) :
    (rs.attach r s).Bounded where
  parent x p hp := by
    rw [attach_parent] at hp
    by_cases hx : x = s
    · subst hx
      rw [Function.update_self] at hp
      cases hp
      exact hr
    · rw [Function.update_of_ne hx] at hp
      exact hb.parent x p hp
  rest x hx := by
    have hxr : x ≠ r := Nat.ne_of_gt (hr.trans_le hx)
    have hxs : x ≠ s := Nat.ne_of_gt (hs.trans_le hx)
    rw [attach_parent, Function.update_of_ne hxs, attach_subReports, if_neg hxr]
    exact hb.rest x hx

theorem Bounded.build (hb : rs.Bounded) {e : Building} {rs' : Reports} (h : rs.build e = some rs') :
    rs'.Bounded := by
  cases e with
  | new =>
    cases h
    exact hb.new
  | createSubReport r =>
    obtain ⟨hr, h⟩ := Option.ite_none_right_eq_some.1 h
    cases h
    exact hb.new.attach (hr.trans (Nat.lt_succ_self _)) (Nat.lt_succ_self _)
  | addSubReport r s =>
    obtain ⟨⟨hr, hs⟩, h⟩ := Option.ite_none_right_eq_some.1 h
    cases h
    exact hb.attach hr hs

theorem Forest.new (hf : rs.Forest) (hb : rs.Bounded) : rs.new.Forest := by
  constructor
  · rw [hb.new_parent]
    exact hf.acyclic
  · intro r s
    rw [(hb.new_data r).2, hb.new_parent]
    exact hf.listed r s
  · intro r
    rw [(hb.new_data r).2]
    exact hf.once r

/-- A new report can be attached to any other one. -/
theorem Bounded.attachable_new (hb : rs.Bounded) (hr : r < rs.size) : rs.new.Attachable r rs.size := by
  rw [Attachable, hb.new_parent]
  constructor
  · exact (hb.rest _ (Nat.le_refl _)).1
  · intro h
    rcases ReflTransGen.cases_tail h with he | ⟨p, -, hp⟩
    · exact absurd hr (he ▸ Nat.lt_irrefl _)
    · exact Nat.lt_irrefl _ (hb.parent p _ hp)

theorem Forest.createSubReport (hf : rs.Forest) (hb : rs.Bounded) (hr : r < rs.size) :
    (rs.new.attach r rs.size).Forest ∧ (rs.new.attach r rs.size).Bounded :=
  ⟨(attach_forest_iff (hf.new hb)).2 (hb.attachable_new hr),
    hb.new.attach (hr.trans (Nat.lt_succ_self _)) (Nat.lt_succ_self _)⟩

theorem forest_empty : empty.Forest where
  acyclic a h := by
    obtain ⟨p, hp, -⟩ := TransGen.head'_iff.1 h
    cases hp
  listed r s := iff_of_false List.not_mem_nil nofun
  once r := .nil

theorem bounded_empty : empty.Bounded := ⟨nofun, fun _ _ => ⟨rfl, rfl⟩⟩

/-- A hierarchy that is only built has nothing but its links. -/
theorem data_of_build {bs : List Building} (h : runs build empty bs = some rs) (r : ReportId) :
    ∃ parent subReports, rs.data r = { parent, subReports } := by
  have edit : ∀ {rs : Reports} (r : ReportId) {f : ExecutionReportData → ExecutionReportData},
      (∀ x, ∃ parent subReports, rs.data x = { parent, subReports }) →
        (∀ p l, ∃ parent subReports, f { parent := p, subReports := l } = { parent, subReports }) →
          ∀ x, ∃ parent subReports, (rs.edit r f).data x = { parent, subReports } := by
    intro rs r f hrs hf x
    obtain ⟨p, l, hx⟩ := hrs x
    by_cases hxr : x = r
    · subst hxr
      rw [edit_data_self, hx]
      exact hf p l
    · rw [edit_data_of_ne rs f hxr]
      exact ⟨p, l, hx⟩
  have new : ∀ {rs : Reports}, (∀ x, ∃ parent subReports, rs.data x = { parent, subReports }) →
      ∀ x, ∃ parent subReports, rs.new.data x = { parent, subReports } := by
    intro rs hrs x
    by_cases hx : x = rs.size
    · rw [hx]
      exact ⟨none, [], Function.update_self ..⟩
    · obtain ⟨p, l, h⟩ := hrs x
      exact ⟨p, l, (Function.update_of_ne hx ..).trans h⟩
  have attach : ∀ {rs : Reports} (r s : ReportId),
      (∀ x, ∃ parent subReports, rs.data x = { parent, subReports }) →
        ∀ x, ∃ parent subReports, (rs.attach r s).data x = { parent, subReports } := fun r s hrs =>
    edit r (edit s hrs fun _ l => ⟨some r, l, rfl⟩) fun p l => ⟨p, l ++ [s], rfl⟩
  refine runs_invariant (P := fun rs => ∀ x, ∃ parent subReports, rs.data x = { parent, subReports })
    (fun rs e rs' hrs he => ?_) h (fun _ => ⟨none, [], rfl⟩) r
  cases e with
  | new =>
    cases he
    exact new hrs
  | createSubReport r =>
    obtain ⟨-, he⟩ := Option.ite_none_right_eq_some.1 he
    cases he
    exact attach r _ (new hrs)
  | addSubReport r s =>
    obtain ⟨-, he⟩ := Option.ite_none_right_eq_some.1 he
    cases he
    exact attach r s hrs

/-- The hierarchy is a forest, and the walks up that `notify` and `set_progress` take end. -/
def Hierarchical (rs : Reports) : Prop :=
  rs.Forest ∧ ∀ r, (rs.notify r).isSome ∧ ∀ p, (rs.setProgress r p).isSome

theorem Forest.hierarchical (hf : rs.Forest) (hb : rs.Bounded) : rs.Hierarchical := by
  refine ⟨hf, fun r => ⟨?_, fun p => ?_⟩⟩
  · obtain ⟨l, hl⟩ := hf.notify_isSome hb r
    exact Option.isSome_of_eq_some hl
  · obtain ⟨rs', h, -⟩ := hf.setProgress_isSome hb r p
    exact Option.isSome_of_eq_some h

/-- **Along a history the hierarchy is a forest if, and only if, every report that is attached may be
attached.** -/
theorem hierarchy_iff (es : List Building) :
    (∀ es₁ es₂ rs, es = es₁ ++ es₂ → runs build empty es₁ = some rs → rs.Hierarchical) ↔
      ∀ es₁ r s es₂ rs, es = es₁ ++ .addSubReport r s :: es₂ → runs build empty es₁ = some rs →
        r < rs.size → s < rs.size → rs.Attachable r s := by
  constructor
  · intro h es₁ r s es₂ rs he hrs hr hs
    have taken : rs.build (.addSubReport r s) = some (rs.attach r s) := by rw [build, if_pos ⟨hr, hs⟩]
    have before := h es₁ (.addSubReport r s :: es₂) rs he hrs
    have after := h (es₁ ++ [.addSubReport r s]) es₂ (rs.attach r s) (by simp [he])
      (runs_concat.2 ⟨rs, hrs, taken⟩)
    exact (attach_forest_iff before.1).1 after.1
  · intro h es₁ es₂ rs he hrs
    have invariant : runs build empty es₁ = some rs ∧ ((∃ es₂, es = es₁ ++ es₂) →
        rs.Forest ∧ rs.Bounded) := by
      refine runs_induction (P := fun es₁ rs => runs build empty es₁ = some rs ∧
        ((∃ es₂, es = es₁ ++ es₂) → rs.Forest ∧ rs.Bounded))
        ⟨rfl, fun _ => ⟨forest_empty, bounded_empty⟩⟩ (fun es₁ rs e rs' ih hs => ?_) hrs
      refine ⟨runs_concat.2 ⟨rs, ih.1, hs⟩, fun ⟨es₂, he⟩ => ?_⟩
      rw [List.append_assoc] at he
      obtain ⟨hf, hb⟩ := ih.2 ⟨[e] ++ es₂, he⟩
      refine ⟨?_, hb.build hs⟩
      cases e with
      | new =>
        cases hs
        exact hf.new hb
      | createSubReport r =>
        obtain ⟨hr, hs⟩ := Option.ite_none_right_eq_some.1 hs
        cases hs
        exact (hf.createSubReport hb hr).1
      | addSubReport r s =>
        obtain ⟨⟨hr, hs'⟩, hs⟩ := Option.ite_none_right_eq_some.1 hs
        cases hs
        exact (attach_forest_iff hf).2 (h es₁ r s es₂ rs he ih.1 hr hs')
    obtain ⟨hf, hb⟩ := invariant.2 ⟨es₂, he⟩
    exact hf.hierarchical hb

/-- A report that is attached to itself is its own parent. -/
theorem self_attached : ¬ ∀ es rs, runs build empty es = some rs → rs.Hierarchical := by
  intro h
  have hierarchical := h [.new, .addSubReport 0 0] (empty.new.attach 0 0) rfl
  exact hierarchical.1.acyclic 0 (.single rfl)

end Reports

end EzCpp.Reporting
