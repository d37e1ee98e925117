import EzCpp.Reporting.Forest

/-!
# Cancelling a report

`set_status(Cancelled)` writes the status of the report, unless it has it, and goes on to those
sub-reports that are not final. What is cancelled on the way (`Became`) is therefore closed: its
sub-reports are final afterwards. A report below one that was final before is not reached, so that
the whole subtree is final afterwards if, and only if, nothing that is final has something below it
that is not (`cancel_law_iff`).
-/

namespace EzCpp.Reporting

open EzCpp.Lib Relation

namespace Reports

variable {rs rs' rs'' : Reports} {r s x : ReportId} {R S : ReportId → Prop}

def status (rs : Reports) (r : ReportId) : ExecutionStatus := (rs.data r).status

/-- `x` is `r` or one of its descendants. -/
def Below (rs : Reports) (r x : ReportId) : Prop :=
  ReflTransGen (fun a b => b ∈ (rs.data a).subReports) r x

def Became (rs rs' : Reports) (x : ReportId) : Prop :=
  rs.status x ≠ .cancelled ∧ rs'.status x = .cancelled

/-- Some reports became cancelled: starting from those with the property `R`, only from a report to
its sub-reports, and to all of them that were not final. -/
structure Cascade (R : ReportId → Prop) (rs rs' : Reports) : Prop where
  links : rs.SameLinks rs'
  kept : ∀ x, rs'.status x = rs.status x ∨ rs.Became rs' x
  busy : ∀ x, rs.Became rs' x → (rs.status x).isFinal = false
  origin : ∀ x, rs.Became rs' x → R x ∨ ∃ p, x ∈ (rs.data p).subReports ∧ rs.Became rs' p
  closed : ∀ x, rs.Became rs' x → ∀ s ∈ (rs.data x).subReports, (rs'.status s).isFinal

namespace Cascade

theorem refl (R : ReportId → Prop) (rs : Reports) : Cascade R rs rs := by
  have none : ∀ x, ¬ rs.Became rs x := fun x h => h.1 h.2
  exact ⟨.refl rs, fun x => .inl rfl, fun x h => absurd h (none x), fun x h => absurd h (none x),
    fun x h => absurd h (none x)⟩

theorem mono (h : Cascade R rs rs') (hRS : ∀ x, R x → S x) : Cascade S rs rs' where
  links := h.links
  kept := h.kept
  busy := h.busy
  origin x hx := (h.origin x hx).imp_left (hRS x)
  closed := h.closed

theorem final (h : Cascade R rs rs') (hx : (rs.status x).isFinal) : (rs'.status x).isFinal := by
  rcases h.kept x with he | hb
  · rw [he]
    exact hx
  · rw [hb.2]
    rfl

theorem trans (h : Cascade R rs rs') (h' : Cascade R rs' rs'') : Cascade R rs rs'' := by
  have first : ∀ {x}, rs.Became rs' x → rs.Became rs'' x := by
    intro x hx
    refine ⟨hx.1, ?_⟩
    rcases h'.kept x with he | hb
    · exact he.trans hx.2
    · exact hb.2
  have second : ∀ {x}, rs'.Became rs'' x → rs.Became rs'' x := by
    intro x hx
    refine ⟨fun hc => hx.1 ?_, hx.2⟩
    rcases h.kept x with he | hb
    · exact he.trans hc
    · exact hb.2
  have split : ∀ x, rs.Became rs'' x → rs.Became rs' x ∨ rs'.Became rs'' x := by
    intro x hx
    by_cases hc : rs'.status x = .cancelled
    · exact .inl ⟨hx.1, hc⟩
    · exact .inr ⟨hc, hx.2⟩
  refine ⟨h.links.trans h'.links, fun x => ?_, fun x hx => ?_, fun x hx => ?_, fun x hx s hs => ?_⟩
  · rcases h'.kept x with he | hb
    · rcases h.kept x with he' | hb
      · exact .inl (he.trans he')
      · exact .inr (first hb)
    · exact .inr (second hb)
  · rcases split x hx with hx | hx
    · exact h.busy x hx
    · rcases h.kept x with he | hb
      · rw [← he]
        exact h'.busy x hx
      · exact absurd hb.2 hx.1
  · rcases split x hx with hx | hx
    · exact (h.origin x hx).imp_right fun ⟨p, hp, hb⟩ => ⟨p, hp, first hb⟩
    · refine (h'.origin x hx).imp_right fun ⟨p, hp, hb⟩ => ⟨p, ?_, second hb⟩
      rwa [← (h.links.2 p).2.1]
  · rcases split x hx with hx | hx
    · exact h'.final (h.closed x hx s hs)
    · refine h'.closed x hx s ?_
      rwa [(h.links.2 x).2.1]

end Cascade

/-! ## What the function does -/

theorem sameLinks_writeStatus (rs : Reports) (r : ReportId) (status : ExecutionStatus) :
    rs.SameLinks (rs.writeStatus r status) := by
  refine rs.sameLinks_edit r fun d => ?_
  cases status <;> exact ⟨rfl, rfl, rfl⟩

theorem status_writeStatus_self (rs : Reports) (r : ReportId) (status : ExecutionStatus) :
    (rs.writeStatus r status).status r = status := by
  rw [Reports.status, writeStatus, edit_data_self]
  cases status <;> rfl

theorem status_writeStatus_of_ne (rs : Reports) (status : ExecutionStatus) (h : x ≠ r) :
    (rs.writeStatus r status).status x = rs.status x := by
  rw [Reports.status, writeStatus, edit_data_of_ne _ _ h]
  rfl

/-- One turn of the loop of the cascade. -/
def cancelSubReport (n : Nat) (rs : Reports) (s : ReportId) : Option Reports :=
  if (rs.status s).isFinal then some rs else setStatusWithin n rs s .cancelled

theorem setStatusWithin_cancelled {n : Nat} (hr : rs.status r ≠ .cancelled)
    (hn : ∃ l, rs.notify r = some l) : setStatusWithin (n + 1) rs r .cancelled =
      (rs.data r).subReports.foldlM (cancelSubReport n) (rs.writeStatus r .cancelled) := by
  obtain ⟨l, hl⟩ := hn
  have walk : (rs.writeStatus r .cancelled).notify r = some l :=
    ((rs.sameLinks_writeStatus r _).notify_eq r).trans hl
  have links := (rs.sameLinks_writeStatus r .cancelled).2 r
  rw [setStatusWithin, if_neg (show ¬ (rs.data r).status = .cancelled from hr)]
  simp only [walk, Option.bind_eq_bind, Option.bind_some, links.2.1]
  rfl

/-- Writing the status first, and cancelling the sub-reports then. -/
theorem Cascade.write (hr : rs.status r ≠ .cancelled)
    (h : Cascade (· ∈ (rs.data r).subReports) (rs.writeStatus r .cancelled) rs')
    (hs : ∀ s ∈ (rs.data r).subReports, (rs'.status s).isFinal) :
    rs.SameLinks rs' ∧ rs.Became rs' r ∧ (∀ x, rs'.status x = rs.status x ∨ rs.Became rs' x) ∧
      (∀ x, rs.Became rs' x → x = r ∨ (rs.status x).isFinal = false ∧
        ∃ p, x ∈ (rs.data p).subReports ∧ rs.Became rs' p) ∧
      ∀ x, rs.Became rs' x → ∀ s ∈ (rs.data x).subReports, (rs'.status s).isFinal := by
  have links := rs.sameLinks_writeStatus r .cancelled
  have root : rs.Became rs' r := by
    refine ⟨hr, ?_⟩
    rcases h.kept r with he | hb
    · rw [he, status_writeStatus_self]
    · exact hb.2
  have other : ∀ x, x ≠ r → ((rs.writeStatus r .cancelled).Became rs' x ↔ rs.Became rs' x) := by
    intro x hx
    rw [Became, Became, status_writeStatus_of_ne _ _ hx]
  have became : ∀ p, (rs.writeStatus r .cancelled).Became rs' p → rs.Became rs' p := by
    intro p hp
    by_cases hpr : p = r
    · exact hpr ▸ root
    · exact (other p hpr).1 hp
  refine ⟨links.trans h.links, root, fun x => ?_, fun x hx => ?_, fun x hx s hxs => ?_⟩
  · by_cases hxr : x = r
    · exact .inr (hxr ▸ root)
    · rw [← other x hxr, ← status_writeStatus_of_ne rs .cancelled hxr]
      exact h.kept x
  · by_cases hxr : x = r
    · exact .inl hxr
    · have hx' := (other x hxr).2 hx
      refine .inr ⟨?_, ?_⟩
      · rw [← status_writeStatus_of_ne rs .cancelled hxr]
        exact h.busy x hx'
      · rcases h.origin x hx' with hs | ⟨p, hp, hb⟩
        · exact ⟨r, hs, root⟩
        · exact ⟨p, (links.2 p).2.1 ▸ hp, became p hb⟩
  · by_cases hxr : x = r
    · exact hs s (hxr ▸ hxs)
    · exact h.closed x ((other x hxr).2 hx) s ((links.2 x).2.1.symm ▸ hxs)

/-- The loop of a cascade, given what the call in it does. -/
theorem cascade_foldlM {n : Nat}
    (call : ∀ (rs rs' : Reports) (s : ReportId), rs.Forest → rs.Bounded →
      (rs.status s).isFinal = false → setStatusWithin n rs s .cancelled = some rs' →
      Cascade (· = s) rs rs' ∧ rs'.status s = .cancelled)
    {l : List ReportId} (hf : rs.Forest) (hb : rs.Bounded)
    (h : l.foldlM (cancelSubReport n) rs = some rs') :
    Cascade (· ∈ l) rs rs' ∧ ∀ s ∈ l, (rs'.status s).isFinal := by
  induction l generalizing rs with
  | nil =>
    cases h
    exact ⟨.refl _ _, nofun⟩
  | cons s l ih =>
    rw [List.foldlM_cons] at h
    obtain ⟨mid, hm, h⟩ := Option.bind_eq_some_iff.1 h
    have turn : Cascade (· = s) rs mid ∧ (mid.status s).isFinal := by
      rw [cancelSubReport] at hm
      split at hm
      next hs =>
        cases hm
        exact ⟨.refl _ _, hs⟩
      next hs =>
        obtain ⟨hc, hs'⟩ := call rs mid s hf hb (Bool.eq_false_of_not_eq_true hs) hm
        exact ⟨hc, by rw [hs']; rfl⟩
    obtain ⟨hc, hs⟩ := turn
    obtain ⟨hc', hl⟩ := ih (hc.links.forest hf) (hc.links.bounded hb) h
    refine ⟨(hc.mono fun x hx => ?_).trans (hc'.mono fun x hx => List.mem_cons_of_mem s hx), ?_⟩
    · rw [hx]
      exact List.mem_cons_self
    · exact List.forall_mem_cons.2 ⟨hc'.final hs, hl⟩

/-- **The cascade**: the report is cancelled, and then what is below it, from report to report. -/
theorem cascade_setStatusWithin {n : Nat} (hf : rs.Forest) (hb : rs.Bounded)
    (hr : rs.status r ≠ .cancelled) (h : setStatusWithin n rs r .cancelled = some rs') :
    Cascade (· ∈ (rs.data r).subReports) (rs.writeStatus r .cancelled) rs' ∧
      ∀ s ∈ (rs.data r).subReports, (rs'.status s).isFinal := by
  induction n generalizing rs r rs' with
  | zero => cases h
  | succ n ih =>
    have links := rs.sameLinks_writeStatus r .cancelled
    rw [setStatusWithin_cancelled hr (hf.notify_isSome hb r)] at h
    refine cascade_foldlM (fun rs rs' s hf hb hs h => ?_) (links.forest hf) (links.bounded hb) h
    have notCancelled : rs.status s ≠ .cancelled := by
      intro hc
      rw [hc] at hs
      cases hs
    obtain ⟨hc, hsubs⟩ := ih hf hb notCancelled h
    obtain ⟨links, root, kept, origin, closed⟩ := Cascade.write notCancelled hc hsubs
    refine ⟨⟨links, kept, fun x hx => ?_, fun x hx => ?_, closed⟩, root.2⟩
    · rcases origin x hx with rfl | ⟨hbusy, -⟩
      · exact hs
      · exact hbusy
    · exact (origin x hx).imp_right And.right

/-! ## It returns -/

/-- The reports that can still be cancelled. -/
def live (rs : Reports) : Finset ReportId :=
  (Finset.range rs.size).filter fun x => rs.status x ≠ .cancelled

theorem live_mono (h : rs.SameLinks rs') (hc : ∀ x, rs.status x = .cancelled → rs'.status x = .cancelled) :
    rs'.live.card ≤ rs.live.card := by
  refine Finset.card_le_card fun x hx => ?_
  obtain ⟨hlt, hx⟩ := Finset.mem_filter.1 hx
  refine Finset.mem_filter.2 ⟨?_, fun hc' => hx (hc x hc')⟩
  rwa [← h.1]

theorem live_writeStatus (hlt : r < rs.size) (hr : rs.status r ≠ .cancelled) :
    (rs.writeStatus r .cancelled).live.card < rs.live.card := by
  refine Finset.card_lt_card ⟨fun x hx => ?_, fun h => ?_⟩
  · obtain ⟨hx, hc⟩ := Finset.mem_filter.1 hx
    refine Finset.mem_filter.2 ⟨hx, ?_⟩
    by_cases hxr : x = r
    · rwa [hxr]
    · rwa [status_writeStatus_of_ne _ _ hxr] at hc
  · have hr' := h (Finset.mem_filter.2 ⟨Finset.mem_range.2 hlt, hr⟩)
    exact (Finset.mem_filter.1 hr').2 (status_writeStatus_self _ _ _)

theorem Bounded.lt_of_mem (hb : rs.Bounded) (hf : rs.Forest) (h : s ∈ (rs.data r).subReports) :
    s < rs.size := by
  by_contra hn
  cases (hb.rest s (Nat.le_of_not_lt hn)).1.symm.trans ((hf.listed r s).1 h)

theorem setStatusWithin_isSome {n : Nat} (hf : rs.Forest) (hb : rs.Bounded) (hlt : r < rs.size)
    (hr : rs.status r ≠ .cancelled) (hn : rs.live.card < n) :
    ∃ rs', setStatusWithin n rs r .cancelled = some rs' := by
  induction n generalizing rs r with
  | zero => exact absurd hn (Nat.not_lt_zero _)
  | succ n ih =>
    rw [setStatusWithin_cancelled hr (hf.notify_isSome hb r)]
    have loop : ∀ (l : List ReportId) (rs : Reports), rs.Forest → rs.Bounded →
        (∀ s ∈ l, s < rs.size) → rs.live.card < n → ∃ rs', l.foldlM (cancelSubReport n) rs = some rs' := by
      intro l
      induction l with
      | nil => exact fun rs _ _ _ _ => ⟨rs, rfl⟩
      | cons s l ihl =>
        intro rs hf hb hl hn
        obtain ⟨hs, hl⟩ := List.forall_mem_cons.1 hl
        rw [List.foldlM_cons, cancelSubReport]
        split
        · exact ihl rs hf hb hl hn
        · next hfinal =>
          have notCancelled : rs.status s ≠ .cancelled := by
            intro hc
            rw [hc] at hfinal
            exact hfinal rfl
          obtain ⟨mid, hm⟩ := ih hf hb hs notCancelled hn
          obtain ⟨hc, hsubs⟩ := cascade_setStatusWithin hf hb notCancelled hm
          obtain ⟨links, -, kept, -⟩ := hc.write notCancelled hsubs
          have less : mid.live.card ≤ rs.live.card := by
            refine live_mono links fun x hx => ?_
            rcases kept x with he | hb
            · exact he.trans hx
            · exact hb.2
          obtain ⟨rs', h⟩ := ihl mid (links.forest hf) (links.bounded hb)
            (fun s hs => links.1.symm ▸ hl s hs) (less.trans_lt hn)
          exact ⟨rs', by rw [hm]; exact h⟩
    have links := rs.sameLinks_writeStatus r .cancelled
    have less := live_writeStatus hlt hr
    exact loop _ _ (links.forest hf) (links.bounded hb)
      (fun s hs => links.1.symm ▸ hb.lt_of_mem hf hs) (by omega)

/-- A report that is not cancelled can be, and this is a cascade. -/
theorem setStatus_cancelled (hf : rs.Forest) (hb : rs.Bounded) (hlt : r < rs.size)
    (hr : rs.status r ≠ .cancelled) : ∃ rs', rs.setStatus r .cancelled = some rs' ∧
      Cascade (· ∈ (rs.data r).subReports) (rs.writeStatus r .cancelled) rs' ∧
      ∀ s ∈ (rs.data r).subReports, (rs'.status s).isFinal := by
  have few : rs.live.card ≤ rs.size := by
    have := Finset.card_filter_le (Finset.range rs.size) fun x => rs.status x ≠ .cancelled
    rwa [Finset.card_range] at this
  obtain ⟨rs', h⟩ := setStatusWithin_isSome hf hb hlt hr (Nat.lt_succ_of_le few)
  exact ⟨rs', h, cascade_setStatusWithin hf hb hr h⟩

/-! ## The subtree -/

theorem isBusyWithin_iff {n : Nat} : rs.isBusyWithin (n + 1) r = true ↔
    (rs.status r).isFinal = false ∨ ∃ s ∈ (rs.data r).subReports, rs.isBusyWithin n s = true := by
  rw [isBusyWithin, Bool.or_eq_true, Bool.not_eq_true', List.any_eq_true]
  rfl

theorem below_of_isBusyWithin {n : Nat} (h : rs.isBusyWithin n r = true) :
    ∃ x, rs.Below r x ∧ (rs.status x).isFinal = false := by
  induction n generalizing r with
  | zero => cases h
  | succ n ih =>
    rcases isBusyWithin_iff.1 h with h | ⟨s, hs, h⟩
    · exact ⟨r, .refl, h⟩
    · obtain ⟨x, hx, hb⟩ := ih h
      exact ⟨x, .head hs hx, hb⟩

/-- A report is found as far down as it is deeper. -/
theorem isBusyWithin_of_below (hf : rs.Forest) (hb : rs.Bounded) {n : Nat} {l l' : List ReportId}
    (h : rs.Below r x) (hx : (rs.status x).isFinal = false) (hl : rs.notify r = some l)
    (hl' : rs.notify x = some l') (hn : l'.length < n + l.length) : rs.isBusyWithin n r = true := by
  have deeper : ∀ {a b : ReportId} {l l' : List ReportId}, b ∈ (rs.data a).subReports →
      rs.notify a = some l → rs.notify b = some l' → l' = a :: l := by
    intro a b l l' hab hl hl'
    rw [notify, ancestors_of_some ((hf.listed a b).1 hab)] at hl'
    obtain ⟨m, hm, rfl⟩ := Option.map_eq_some_iff.1 hl'
    cases (ancestors_mono hm (Nat.le_succ _)).symm.trans hl
    rfl
  have longer : ∀ {a : ReportId} {l : List ReportId}, rs.Below a x → rs.notify a = some l →
      l.length ≤ l'.length := by
    intro a l h hl
    induction h using ReflTransGen.head_induction_on generalizing l with
    | refl =>
      cases hl.symm.trans hl'
      exact Nat.le_refl _
    | @head a b hab _ ih =>
      obtain ⟨m, hm⟩ := hf.notify_isSome hb b
      have := ih hm
      rw [deeper hab hl hm, List.length_cons] at this
      omega
  induction h using ReflTransGen.head_induction_on generalizing n l with
  | refl =>
    cases hl.symm.trans hl'
    obtain ⟨n, rfl⟩ : ∃ k, n = k + 1 := ⟨n - 1, by omega⟩
    exact isBusyWithin_iff.2 (.inl hx)
  | @head a b hab hbx ih =>
    obtain ⟨m, hm⟩ := hf.notify_isSome hb b
    have below := longer hbx hm
    have cons := deeper hab hl hm
    rw [cons, List.length_cons] at below
    obtain ⟨n, rfl⟩ : ∃ k, n = k + 1 := ⟨n - 1, by omega⟩
    refine isBusyWithin_iff.2 (.inr ⟨b, hab, ih hm ?_⟩)
    rw [cons, List.length_cons]
    omega

/-- **A report is busy if, and only if, something in its subtree is not final.** -/
theorem isBusy_iff (hf : rs.Forest) (hb : rs.Bounded) : rs.isBusy r = true ↔
    ∃ x, rs.Below r x ∧ (rs.status x).isFinal = false := by
  refine ⟨below_of_isBusyWithin, fun ⟨x, h, hx⟩ => ?_⟩
  obtain ⟨l, hl⟩ := hf.notify_isSome hb r
  obtain ⟨l', hl'⟩ := hf.notify_isSome hb x
  have := ancestors_length hl'
  exact isBusyWithin_of_below hf hb h hx hl hl' (by omega)

theorem below_iff (hf : rs.Forest) : rs.Below r x ↔ ReflTransGen (HasParent rs.parent) x r := by
  have swap : (fun a b => b ∈ (rs.data a).subReports) = Function.swap (HasParent rs.parent) := by
    funext a b
    exact propext (hf.listed a b)
  rw [Below, swap, reflTransGen_swap]

theorem Below.antisymm (hf : rs.Forest) (h : rs.Below r x) (h' : rs.Below x r) : r = x :=
  hf.acyclic.antisymm ((below_iff hf).1 h') ((below_iff hf).1 h)

/-- What is promised of `set_status(Cancelled)`: nothing in the subtree is busy any more, and what is
below the report was final and is as it was, or is cancelled. -/
structure CancelsSubtree (rs rs' : Reports) (r : ReportId) : Prop where
  notBusy : rs'.isBusy r = false
  final : ∀ x, rs.Below r x → (rs'.status x).isFinal
  kept : ∀ x, rs.Below r x → x ≠ r → (rs.status x).isFinal → rs'.status x = rs.status x
  cancelled : ∀ x, rs.Below r x → x ≠ r → (rs.status x).isFinal = false → rs'.status x = .cancelled

/-- The cascade does not go on from here: nothing is written. -/
def Stops (rs : Reports) (r d : ReportId) : Prop :=
  (rs.status d).isFinal ∧ (d = r → rs.status r = .cancelled)

/-- Where the cascade stops, there is nothing left to do. -/
def Unblocked (rs : Reports) (r : ReportId) : Prop :=
  ∀ d, rs.Below r d → rs.Stops r d → ∀ x, rs.Below d x → (rs.status x).isFinal

theorem SameLinks.below_iff (h : rs.SameLinks rs') : rs'.Below r x ↔ rs.Below r x := by
  have same : (fun a b => b ∈ (rs'.data a).subReports) = fun a b => b ∈ (rs.data a).subReports := by
    funext a b
    rw [(h.2 a).2.1]
  rw [Below, Below, same]

theorem notBusy_of_final (hf : rs.Forest) (hb : rs.Bounded) (h : rs.SameLinks rs')
    (final : ∀ x, rs.Below r x → (rs'.status x).isFinal) : rs'.isBusy r = false := by
  rw [← Bool.not_eq_true, isBusy_iff (h.forest hf) (h.bounded hb)]
  rintro ⟨x, hx, hbusy⟩
  rw [final x (h.below_iff.1 hx)] at hbusy
  cases hbusy

theorem cancelsSubtree_self_iff (hf : rs.Forest) (hb : rs.Bounded) (hr : rs.status r = .cancelled) :
    rs.CancelsSubtree rs r ↔ rs.Unblocked r := by
  constructor
  · exact fun h d hd _ x hx => h.final x (hd.trans hx)
  · intro h
    have final : ∀ x, rs.Below r x → (rs.status x).isFinal :=
      h r .refl ⟨by rw [hr]; rfl, fun _ => hr⟩
    refine ⟨notBusy_of_final hf hb (.refl rs) final, final, fun _ _ _ _ => rfl, ?_⟩
    intro x hx _ hbusy
    rw [final x hx] at hbusy
    cases hbusy

theorem Cascade.cancelsSubtree_iff (hf : rs.Forest) (hb : rs.Bounded) (hr : rs.status r ≠ .cancelled)
    (h : Cascade (· ∈ (rs.data r).subReports) (rs.writeStatus r .cancelled) rs')
    (hs : ∀ s ∈ (rs.data r).subReports, (rs'.status s).isFinal) :
    rs.CancelsSubtree rs' r ↔ rs.Unblocked r := by
  obtain ⟨links, root, kept, origin, closed⟩ := h.write hr hs
  constructor
  · rintro law d hd ⟨hfinal, hdr⟩ x hx
    by_contra hbusy
    have ne : d ≠ r := fun he => hr (hdr he)
    -- cancelled from `x` up to `d`, since `r` is not on the way
    have up : ∀ x, rs.Below d x → rs.Became rs' x → rs.Became rs' d := by
      intro x hx
      induction hx with
      | refl => exact id
      | @tail p x hp hpx ih =>
        intro hb
        rcases origin x hb with rfl | ⟨-, q, hq, hb⟩
        · exact absurd (Below.antisymm hf hd (hp.tail hpx)) (Ne.symm ne)
        · cases ((hf.listed q x).1 hq).symm.trans ((hf.listed p x).1 hpx)
          exact ih hb
    have hxr : x ≠ r := by
      rintro rfl
      exact ne (Below.antisymm hf hx hd)
    have after := law.cancelled x (hd.trans hx) hxr (Bool.eq_false_of_not_eq_true hbusy)
    have became : rs.Became rs' x := by
      refine ⟨fun hc => hbusy ?_, after⟩
      rw [hc]
      rfl
    rcases origin d (up x hx became) with rfl | ⟨hb, -⟩
    · exact ne rfl
    · rw [hfinal] at hb
      cases hb
  · intro free
    have down : ∀ x, rs.Below r x → rs.Became rs' x ∨ (rs.status x).isFinal := by
      intro x hx
      induction hx with
      | refl => exact .inl root
      | @tail p x hp hpx ih =>
        by_cases hb : rs.Became rs' p
        · rcases kept x with he | hbx
          · rw [← he]
            exact .inr (closed p hb x hpx)
          · exact .inl hbx
        · have hfinal := ih.resolve_left hb
          have stops : rs.Stops r p := ⟨hfinal, fun he => absurd (he ▸ root) hb⟩
          exact .inr (free p hp stops x (.single hpx))
    have final : ∀ x, rs.Below r x → (rs'.status x).isFinal := by
      intro x hx
      rcases kept x with he | hb
      · rcases down x hx with hb | hfinal
        · rw [hb.2]
          rfl
        · rw [he]
          exact hfinal
      · rw [hb.2]
        rfl
    refine ⟨notBusy_of_final hf hb links final, final, fun x hx hxr hfinal => ?_,
      fun x hx _ hbusy => ?_⟩
    · rcases kept x with he | hb
      · exact he
      · rcases origin x hb with he | ⟨hbusy, -⟩
        · exact absurd he hxr
        · rw [hfinal] at hbusy
          cases hbusy
    · rcases down x hx with hb | hfinal
      · exact hb.2
      · rw [hfinal] at hbusy
        cases hbusy

/-- Every report can be cancelled, and when this cancels its subtree. -/
theorem Forest.cancel_iff (hf : rs.Forest) (hb : rs.Bounded) (hlt : r < rs.size) :
    ∃ rs', rs.setStatus r .cancelled = some rs' ∧ (rs.CancelsSubtree rs' r ↔ rs.Unblocked r) := by
  by_cases hr : rs.status r = .cancelled
  · exact ⟨rs, if_pos hr, cancelsSubtree_self_iff hf hb hr⟩
  · obtain ⟨rs', h, hc, hs⟩ := setStatus_cancelled hf hb hlt hr
    exact ⟨rs', h, hc.cancelsSubtree_iff hf hb hr hs⟩

/-! ## Histories -/

/-- The other statuses go nowhere but to the progress. -/
theorem Forest.setStatus_eq (hf : rs.Forest) (hb : rs.Bounded) {status : ExecutionStatus}
    (hr : rs.status r ≠ status) (hc : status ≠ .cancelled) : rs.setStatus r status =
      if status = .finished then (rs.writeStatus r status).setProgress r 100
      else some (rs.writeStatus r status) := by
  obtain ⟨l, hl⟩ := hf.notify_isSome hb r
  have walk : (rs.writeStatus r status).notify r = some l :=
    ((rs.sameLinks_writeStatus r status).notify_eq r).trans hl
  rw [setStatus, setStatusWithin, if_neg (show ¬ (rs.data r).status = status from hr)]
  simp only [walk, Option.bind_eq_bind, Option.bind_some, if_neg hc]

/-- `set_status` returns, and leaves the hierarchy as it is. -/
theorem Forest.setStatus_isSome (hf : rs.Forest) (hb : rs.Bounded) (hlt : r < rs.size)
    (status : ExecutionStatus) : ∃ rs', rs.setStatus r status = some rs' ∧ rs.SameLinks rs' := by
  by_cases hr : rs.status r = status
  · exact ⟨rs, if_pos hr, .refl rs⟩
  by_cases hc : status = .cancelled
  · subst hc
    obtain ⟨rs', h, hc, hs⟩ := setStatus_cancelled hf hb hlt hr
    exact ⟨rs', h, (hc.write hr hs).1⟩
  · have written := rs.sameLinks_writeStatus r status
    rw [hf.setStatus_eq hb hr hc]
    split
    · obtain ⟨rs', h, same⟩ := (written.forest hf).setProgress_isSome (written.bounded hb) r 100
      exact ⟨rs', h, written.trans same.links⟩
    · exact ⟨_, rfl, written⟩

inductive Event
  | new
  | createSubReport (r : ReportId)
  | setStatus (r : ReportId) (status : ExecutionStatus)

def step (rs : Reports) : Event → Option Reports
  | .new => some rs.new
  | .createSubReport r => if r < rs.size then rs.createSubReport r else none
  | .setStatus r status => if r < rs.size then rs.setStatus r status else none

theorem step_forest {e : Event} (hf : rs.Forest) (hb : rs.Bounded) (h : rs.step e = some rs') :
    rs'.Forest ∧ rs'.Bounded := by
  cases e with
  | new =>
    cases h
    exact ⟨hf.new hb, hb.new⟩
  | createSubReport r =>
    obtain ⟨hr, h⟩ := Option.ite_none_right_eq_some.1 h
    obtain ⟨l, hl, h⟩ := Option.bind_eq_some_iff.1 h
    cases h
    exact hf.createSubReport hb hr
  | setStatus r status =>
    obtain ⟨hr, h⟩ := Option.ite_none_right_eq_some.1 h
    obtain ⟨rs'', h', links⟩ := hf.setStatus_isSome hb hr status
    cases h.symm.trans h'
    exact ⟨links.forest hf, links.bounded hb⟩

/-- **A report that is cancelled cancels its subtree if, and only if, there is nothing left to do
where the cascade stops.** -/
theorem cancel_law_iff (es : List Event) (rs : Reports) (r : ReportId)
    (h : runs step empty es = some rs) (hr : r < rs.size) :
    ∃ rs', rs.setStatus r .cancelled = some rs' ∧ (rs.CancelsSubtree rs' r ↔ rs.Unblocked r) := by
  obtain ⟨hf, hb⟩ := runs_invariant (P := fun rs => rs.Forest ∧ rs.Bounded)
    (fun _ _ _ hi hs => step_forest hi.1 hi.2 hs) h ⟨forest_empty, bounded_empty⟩
  exact hf.cancel_iff hb hr

/-- Report 0 has the sub-reports 1, which has finished, and 2, which has the sub-report 3. -/
def finishedBranch : List Event :=
  [.new, .createSubReport 0, .createSubReport 0, .createSubReport 2, .setStatus 3 .running,
    .setStatus 1 .finished]

/-- The finished report keeps its status; the others are cancelled. -/
theorem cancel_law_iff_branch : ∃ rs rs', runs step empty finishedBranch = some rs ∧
    rs.setStatus 0 .cancelled = some rs' ∧ rs.Unblocked 0 ∧ rs.CancelsSubtree rs' 0 ∧
    (List.range 4).map rs'.status = [.cancelled, .finished, .cancelled, .cancelled] := by
  have hrun : ∃ rs, runs step empty finishedBranch = some rs ∧ 0 < rs.size ∧
      (∀ d, (rs.status d).isFinal → d = 1) ∧ (rs.data 1).subReports = [] ∧
      ∃ rs', rs.setStatus 0 .cancelled = some rs' ∧
        (List.range 4).map rs'.status = [.cancelled, .finished, .cancelled, .cancelled] := by
    refine ⟨_, rfl, by decide, fun d hd => ?_, rfl, _, rfl, rfl⟩
    match d with
    | 0 | 2 | 3 => cases hd
    | 1 => rfl
    | _ + 4 => cases hd
  obtain ⟨rs, hrs, hsize, hfinal, hnone, rs', hset, hstatus⟩ := hrun
  have unblocked : rs.Unblocked 0 := by
    rintro d - ⟨hd, -⟩ x hx
    obtain rfl := hfinal d hd
    rcases hx.cases_head with rfl | ⟨y, hy, -⟩
    · exact hd
    · rw [hnone] at hy
      cases hy
  obtain ⟨rs'', hset', law⟩ := cancel_law_iff finishedBranch rs 0 hrs hsize
  obtain rfl := Option.some.inj (hset.symm.trans hset')
  exact ⟨rs, rs', hrs, hset, unblocked, law.mpr unblocked, hstatus⟩

/-- What is below a finished report is not cancelled. -/
theorem finished_blocks : ¬ ∀ (es : List Event) (rs rs' : Reports) (r : ReportId),
    runs step empty es = some rs → r < rs.size → rs.setStatus r .cancelled = some rs' →
      rs.CancelsSubtree rs' r := by
  intro h
  have law := h [.new, .createSubReport 0, .createSubReport 1, .setStatus 1 .finished] _ _ 0 rfl
    (by decide) rfl
  exact Bool.noConfusion law.notBusy

end Reports

end EzCpp.Reporting
