import EzCpp.Reporting.Observers

/-!
# Deliveries

Whatever a call raises goes to the observers of the report that raises it, and then from parent to parent
to those of its ancestors, once to each (`Reaches`). So it is as long as every observer that is added finds
its id free (`rightly_iff`): the ids are 32 bits wide and start again, and an observer whose id is taken is
not inserted.
-/

namespace EzCpp.Reporting

open EzCpp.Lib Relation

/-- The report is gone, and its sub-reports have no parent. -/
def Reports.drop (rs : Reports) (r : ReportId) : Reports where
  size := rs.size
  data x :=
    if x = r then {}
    else if rs.parent x = some r then { rs.data x with parent := none }
    else rs.data x

namespace Watched

/-! ## Histories -/

/-- There is a handle to the report. -/
def usable (w : Watched) (r : ReportId) : Bool := r < w.reports.size ∧ r ∉ w.dropped

def edit (w : Watched) (r : ReportId) (f : Observers → Observers) : Watched :=
  { w with observers := Function.update w.observers r (f (w.observers r)) }

def drop (w : Watched) (r : ReportId) : Watched :=
  { w.edit r fun _ => {} with reports := w.reports.drop r, dropped := r :: w.dropped }

def enabled (w : Watched) (o : Reports.Operation) : Bool := o.report.all w.usable

inductive Event
  | call (o : Reports.Operation)
  | addObserver (r : ReportId)
  | removeObserver (r : ReportId) (id : ExecutionObserverId)
  /-- the last handle to a root is gone -/
  | drop (r : ReportId)

def step (w : Watched) : Event → Option Watched
  | .call o => if w.enabled o then w.perform o else none
  | .addObserver r => if w.usable r then some (w.edit r Observers.addObserver) else none
  | .removeObserver r id => if w.usable r then some (w.edit r (·.removeObserver id)) else none
  | .drop r => if w.usable r ∧ w.reports.parent r = none then some (w.drop r) else none

/-! ## The law -/

/-- The observers that are registered on a report. -/
def registered (w : Watched) (r : ReportId) : List Nat := (w.observers r).registered.map Prod.snd

/-- **What is delivered of an event**: once to each observer that is registered on the report that raises
it or on an ancestor, first to those of the report and then upwards. -/
structure Reaches (w : Watched) (e : Raised) (ds : List Delivery) : Prop where
  once : ds.Nodup
  exactly : ∀ d, d ∈ ds ↔ d.raised = e ∧
    ReflTransGen (HasParent w.reports.parent) e.report d.owner ∧ d.observer ∈ w.registered d.owner
  upward : ds.Pairwise fun d d' => ReflTransGen (HasParent w.reports.parent) d.owner d'.owner

/-- What `w'` has raised and delivered since `w`, event by event. -/
def Since (P : Raised → List Delivery → Prop) (w w' : Watched) : Prop := ∃ rs dss,
  w'.raised = w.raised ++ rs ∧ w'.delivered = w.delivered ++ dss.flatten ∧ List.Forall₂ P rs dss

/-- Every call returns, and what it raises is delivered as it should be. -/
def Rightly (w : Watched) : Prop := ∀ o, w.enabled o →
  ∃ w', w.perform o = some w' ∧ Since w'.Reaches w w'

/-- The id that an observer is added with is free. -/
def Kind (w : Watched) : Event → Prop
  | .addObserver r => w.usable r →
    (w.observers r).observers.find? (w.observers r).nextObserverId = none
  | _ => True

section Calls

variable {w w' w'' : Watched} {r : ReportId} {e : Raised} {ds : List Delivery}

/-! ## What a call tells -/

/-- What `notify` delivers. -/
def Walk (w : Watched) (e : Raised) (ds : List Delivery) : Prop :=
  ∃ n l, ancestors w.reports.parent n e.report = some l ∧ ds = (e.report :: l).flatMap (w.calls e)

/-- The links and the observers are the same, and everything that was raised since is delivered along its
walk. -/
structure Told (w w' : Watched) : Prop where
  parent : w'.reports.parent = w.reports.parent
  observers : w'.observers = w.observers
  dropped : w'.dropped = w.dropped
  since : Since w.Walk w w'

theorem walk_congr (hp : w'.reports.parent = w.reports.parent) (ho : w'.observers = w.observers) :
    w'.Walk = w.Walk := by
  have hcalls : w'.calls = w.calls := by
    funext e owner
    simp only [calls, ho]
  funext e ds
  simp only [Walk, hp, hcalls]

theorem Told.refl (w : Watched) : Told w w := ⟨rfl, rfl, rfl, [], [], by simp, by simp, .nil⟩

theorem Told.trans (h : Told w w') (h' : Told w' w'') : Told w w'' := by
  refine ⟨h'.parent.trans h.parent, h'.observers.trans h.observers, h'.dropped.trans h.dropped, ?_⟩
  obtain ⟨rs, dss, hr, hd, hall⟩ := h.since
  obtain ⟨rs', dss', hr', hd', hall'⟩ := h'.since
  rw [walk_congr h.parent h.observers] at hall'
  refine ⟨rs ++ rs', dss ++ dss', ?_, ?_, List.rel_append hall hall'⟩
  · rw [hr', hr, List.append_assoc]
  · rw [hd', hd, List.flatten_append, List.append_assoc]

/-- Writing to the reports, but not their links, tells nobody. -/
theorem Told.write {rs : Reports} {subitems : ReportId → Nat} (h : rs.parent = w.reports.parent) :
    Told w { w with reports := rs, subitems } :=
  ⟨h, rfl, rfl, [], [], by simp, by simp, .nil⟩

theorem told_notify {type : ExecutionEventType} {index : Option Nat}
    (h : w.notify r type index = some w') : Told w w' := by
  rw [notify_eq] at h
  obtain ⟨l, hl, rfl⟩ := Option.map_eq_some_iff.mp h
  exact ⟨rfl, rfl, rfl, [_], [_], rfl, by simp, .cons ⟨_, l, hl, rfl⟩ .nil⟩

theorem told_tryPropagate {update : Watched → ReportId → Option Watched}
    (hu : ∀ w q w', update w q = some w' → Told w w')
    (h : w.tryPropagateProgressToParent update r = some w') : Told w w' := by
  unfold tryPropagateProgressToParent at h
  split at h
  · cases h
    exact .refl w
  · split at h
    · cases h
      exact .refl w
    · exact hu _ _ _ h

theorem told_update (n : Nat) (w : Watched) (r : ReportId) (w' : Watched)
    (h : updateProgressFromSubReports n w r = some w') : Told w w' := by
  induction n generalizing w r w' with
  | zero => cases h
  | succ n ih =>
    rw [updateProgressFromSubReports] at h
    split at h
    · cases h
      exact .refl w
    next p _ =>
      obtain ⟨v, hv, h⟩ := Option.bind_eq_some_iff.mp h
      have hwritten := (w.reports.onlyProgress_writeProgress r p).links.parent_eq
      exact ((Told.write hwritten).trans (told_notify hv)).trans (told_tryPropagate ih h)

theorem told_setProgress {p : ExecutionProgress} (h : w.setProgress r p = some w') : Told w w' := by
  unfold setProgress at h
  split at h
  · cases h
    exact .refl w
  · obtain ⟨v, hv, h⟩ := Option.bind_eq_some_iff.mp h
    have hwritten := (w.reports.onlyProgress_writeProgress r p).links.parent_eq
    exact ((Told.write hwritten).trans (told_notify hv)).trans (told_tryPropagate (told_update _) h)

theorem told_foldlM {f : Watched → ReportId → Option Watched}
    (hf : ∀ w s w', f w s = some w' → Told w w') {l : List ReportId}
    (h : l.foldlM f w = some w') : Told w w' := by
  induction l generalizing w with
  | nil =>
    cases h
    exact .refl _
  | cons s l ih =>
    rw [List.foldlM_cons] at h
    obtain ⟨v, hv, h⟩ := Option.bind_eq_some_iff.mp h
    exact (hf w s v hv).trans (ih h)

theorem told_setStatusWithin (n : Nat) {status : ExecutionStatus}
    (h : setStatusWithin n w r status = some w') : Told w w' := by
  induction n generalizing w r w' status with
  | zero => cases h
  | succ n ih =>
    rw [setStatusWithin] at h
    split at h
    · cases h
      exact .refl w
    · obtain ⟨v, hv, h⟩ := Option.bind_eq_some_iff.mp h
      have hwritten := (w.reports.sameLinks_writeStatus r status).parent_eq
      refine ((Told.write hwritten).trans (told_notify hv)).trans ?_
      split at h
      · exact told_setProgress h
      · split at h
        · refine told_foldlM (fun w s w' hs => ?_) h
          split at hs
          · cases hs
            exact .refl w
          · exact ih hs
        · cases h
          exact .refl _

theorem told_log {category : ExecutionLogCategory} (h : w.log r category = some w') : Told w w' :=
  (Told.write (w.reports.sameLinks_writeLog r category).parent_eq).trans (told_notify h)

/-- What every call tells, and that it leaves the observers alone. -/
theorem told_perform {o : Reports.Operation} (h : w.perform o = some w') :
    w'.observers = w.observers ∧ w'.dropped = w.dropped ∧ Since w'.Walk w w' := by
  have since (ht : Told w w') : w'.observers = w.observers ∧ w'.dropped = w.dropped ∧
      Since w'.Walk w w' :=
    ⟨ht.observers, ht.dropped, walk_congr ht.parent ht.observers ▸ ht.since⟩
  cases o with
  | event e =>
    cases e with
    | new =>
      cases h
      exact ⟨rfl, rfl, [], [], by simp, by simp, .nil⟩
    | createSubReport r =>
      -- the links are written before anything is raised
      have ht := told_notify h
      exact ⟨ht.observers, ht.dropped, walk_congr ht.parent ht.observers ▸ ht.since⟩
    | setStatus r status => exact since (told_setStatusWithin _ h)
  | setProgress r p => exact since (told_setProgress h)
  | setProgressWeight r weight =>
    cases h
    exact ⟨rfl, rfl, [], [], by simp, by simp, .nil⟩
  | log r category => exact since (told_log h)

end Calls

/-! ## What is booked -/

/-- A report's observers are those that are registered. -/
structure Booked (o : Observers) : Prop where
  kept : o.observers.entries.Perm o.registered
  numbers : (o.registered.map Prod.snd).Nodup
  below : ∀ g ∈ o.registered, g.2 < o.added

section Booked

variable {o : Observers}

theorem Booked.empty : Booked {} := ⟨.nil, .nil, nofun⟩

theorem Booked.add (h : Booked o) (free : o.observers.find? o.nextObserverId = none) :
    Booked o.addObserver where
  kept := by
    have hlast : (o.registered ++ [(o.nextObserverId, o.added)]).Perm
        ((o.nextObserverId, o.added) :: o.registered) := List.perm_append_singleton ..
    exact (SortedMap.entries_insert_perm free o.added).trans ((h.kept.cons _).trans hlast.symm)
  numbers := by
    rw [Observers.addObserver, List.map_append, List.nodup_append]
    refine ⟨h.numbers, List.nodup_singleton _, fun a ha b hb heq => ?_⟩
    obtain ⟨g, hg, rfl⟩ := List.mem_map.mp ha
    rw [List.mem_singleton.mp hb] at heq
    exact Nat.ne_of_lt (h.below g hg) heq
  below g hg := by
    rcases List.mem_append.mp hg with hold | hnew
    · exact Nat.lt_succ_of_lt (h.below g hold)
    · rw [List.mem_singleton.mp hnew]
      exact Nat.lt_succ_self _

theorem Booked.remove (h : Booked o) (id : ExecutionObserverId) : Booked (o.removeObserver id) where
  kept := h.kept.filter _
  numbers := h.numbers.sublist (List.filter_sublist.map _)
  below g hg := h.below g (List.mem_of_mem_filter hg)

/-- Whoever is called was added, with the id that the counter gave, whether it was free or not. -/
structure Counted (o : Observers) : Prop where
  next : o.nextObserverId = .ofNat o.added
  below : ∀ g ∈ o.observers.entries, g.2 < o.added
  id : ∀ g ∈ o.observers.entries, g.1 = .ofNat g.2

theorem Counted.empty : Counted {} := ⟨rfl, nofun, nofun⟩

theorem Counted.add (h : Counted o) : Counted o.addObserver where
  next := by
    show o.nextObserverId + 1 = _
    rw [h.next]
    exact (Int32.ofNat_add o.added 1).symm
  below g hg := by
    rcases SortedMap.mem_insertEntries hg with rfl | hold
    · exact Nat.lt_succ_self _
    · exact Nat.lt_succ_of_lt (h.below g hold)
  id g hg := by
    rcases SortedMap.mem_insertEntries hg with rfl | hold
    · exact h.next
    · exact h.id g hold

theorem Counted.remove (h : Counted o) (id : ExecutionObserverId) : Counted (o.removeObserver id) where
  next := h.next
  below g hg := h.below g (List.mem_of_mem_filter hg)
  id g hg := h.id g (List.mem_of_mem_filter hg)

/-- The ids start again after `2 ^ 32` observers, not before. -/
theorem ofNat_inj {m n : Nat} (hm : m < 2 ^ 32) (hn : n < 2 ^ 32) (h : Int32.ofNat m = .ofNat n) :
    m = n := by
  have hbits := congrArg (fun i : Int32 => i.toBitVec.toNat) h
  have hmod : m % 2 ^ 32 = n % 2 ^ 32 := by simpa using hbits
  rwa [Nat.mod_eq_of_lt hm, Nat.mod_eq_of_lt hn] at hmod

theorem Counted.free (h : Counted o) (few : o.added < 2 ^ 32) :
    o.observers.find? o.nextObserverId = none := by
  by_contra htaken
  obtain ⟨n, hn⟩ := Option.ne_none_iff_exists'.mp htaken
  have hmem := SortedMap.mem_of_find? hn
  have hlt : n < o.added := h.below _ hmem
  have hid : o.nextObserverId = .ofNat n := h.id _ hmem
  have := ofNat_inj (hlt.trans few) few (hid.symm.trans h.next)
  omega

/-- An observer whose id is taken is not inserted. -/
theorem not_inserted (h : Counted o) {n : Nat} (taken : o.observers.find? o.nextObserverId = some n) :
    ∀ g ∈ o.addObserver.observers.entries, g.2 ≠ o.added := by
  intro g hg heq
  rw [Observers.addObserver, SortedMap.insert_eq_self taken] at hg
  exact Nat.ne_of_lt (h.below g hg) heq

end Booked

section Law

variable {w w' : Watched} {r : ReportId} {e : Raised} {ds : List Delivery} {d : Delivery}

theorem mem_calls : d ∈ w.calls e r ↔ d.raised = e ∧ d.owner = r ∧
    ∃ g ∈ (w.observers r).observers.entries, g.2 = d.observer := by
  rw [calls, List.mem_map]
  constructor
  · rintro ⟨g, hg, rfl⟩
    exact ⟨rfl, rfl, g, hg, rfl⟩
  · rintro ⟨rfl, rfl, g, hg, hd⟩
    exact ⟨g, hg, by rw [hd]⟩

/-- **A walk reaches everybody.** -/
theorem reaches_of_walk (ha : Acyclic w.reports.parent) (hb : ∀ r, Booked (w.observers r))
    (h : w.Walk e ds) : w.Reaches e ds := by
  obtain ⟨n, l, hl, rfl⟩ := h
  have hpath := isChain_ancestors hl
  have hmem (x : ReportId) :
      x ∈ e.report :: l ↔ ReflTransGen (HasParent w.reports.parent) e.report x := by
    rw [List.mem_cons, mem_ancestors hl, reflTransGen_iff_eq_or_transGen]
  have howner {x : ReportId} {d : Delivery} (hd : d ∈ w.calls e x) : d.owner = x :=
    (mem_calls.mp hd).2.1
  refine ⟨?_, fun d => ?_, ?_⟩
  · refine List.nodup_flatMap.mpr ⟨fun x _ => ?_, ?_⟩
    · -- the same observer is not registered twice
      have hnodup : ((w.observers x).observers.entries.map Prod.snd).Nodup :=
        ((hb x).kept.map _).nodup_iff.mpr (hb x).numbers
      rw [calls]
      refine List.Nodup.map_on (fun a ha b hb heq => ?_) hnodup.of_map
      exact List.inj_on_of_nodup_map hnodup ha hb (congrArg Delivery.observer heq)
    · refine (ha.nodup_path hpath).imp fun hne d hd hd' => ?_
      exact hne ((howner hd).symm.trans (howner hd'))
  · rw [List.mem_flatMap]
    constructor
    · rintro ⟨x, hx, hd⟩
      obtain ⟨hraised, rfl, g, hg, hobserver⟩ := mem_calls.mp hd
      refine ⟨hraised, (hmem _).mp hx, ?_⟩
      exact hobserver ▸ List.mem_map_of_mem ((hb _).kept.mem_iff.mp hg)
    · rintro ⟨hraised, hup, hd⟩
      obtain ⟨g, hg, hobserver⟩ := List.mem_map.mp hd
      exact ⟨d.owner, (hmem _).mpr hup,
        mem_calls.mpr ⟨hraised, rfl, g, (hb _).kept.mem_iff.mpr hg, hobserver⟩⟩
  · have hup : (e.report :: l).Pairwise (ReflTransGen (HasParent w.reports.parent)) :=
      List.isChain_iff_pairwise.mp (hpath.imp fun _ _ => .single)
    refine List.pairwise_flatMap.mpr ⟨fun x _ => ?_, hup.imp fun hxy d hd d' hd' => ?_⟩
    · refine List.pairwise_of_forall_mem_list fun d hd d' hd' => ?_
      rw [howner hd, howner hd']
    · rw [howner hd, howner hd']
      exact hxy

end Law

end Watched

/-! ## The hierarchy without a root -/

namespace Reports

variable {rs : Reports} {r x y : ReportId}

theorem drop_parent : (rs.drop r).parent x =
    if x = r ∨ rs.parent x = some r then none else rs.parent x := by
  by_cases hx : x = r
  · simp [Reports.parent, Reports.drop, hx]
  · by_cases hp : rs.parent x = some r
    · simp [Reports.parent, Reports.drop, hx, show (rs.data x).parent = some r from hp]
    · simp [Reports.parent, Reports.drop, hx, show ¬ (rs.data x).parent = some r from hp]

theorem drop_subReports :
    ((rs.drop r).data x).subReports = if x = r then [] else (rs.data x).subReports := by
  by_cases hx : x = r
  · simp [Reports.drop, hx]
  · simp only [Reports.drop, if_neg hx]
    split <;> rfl

theorem hasParent_drop : HasParent (rs.drop r).parent x y ↔
    HasParent rs.parent x y ∧ x ≠ r ∧ y ≠ r := by
  rw [HasParent, HasParent, drop_parent]
  by_cases hx : x = r
  · simp [hx]
  · by_cases hp : rs.parent x = some r
    · simp only [hp, hx, or_true, if_true, reduceCtorEq, false_iff]
      rintro ⟨hy, -, hne⟩
      exact hne (Option.some.inj hy).symm
    · simp only [hp, hx, or_false, if_false, not_false_eq_true, ne_eq, true_and]
      exact ⟨fun hy => ⟨hy, fun he => hp (he ▸ hy)⟩, And.left⟩

theorem Forest.drop (hf : rs.Forest) (root : rs.parent r = none) : (rs.drop r).Forest where
  acyclic a h := hf.acyclic a (TransGen.mono (fun _ _ hxy => (hasParent_drop.mp hxy).1) _ _ h)
  listed x y := by
    have hdrop := @hasParent_drop rs r y x
    rw [HasParent, HasParent, ← hf.listed] at hdrop
    rw [hdrop, drop_subReports]
    by_cases hx : x = r
    · simp [hx]
    · rw [if_neg hx]
      refine ⟨fun h => ⟨h, ?_, hx⟩, And.left⟩
      rintro rfl
      cases root.symm.trans ((hf.listed x y).mp h)
  once x := by
    rw [drop_subReports]
    split
    · exact .nil
    · exact hf.once x

theorem Bounded.drop (hb : rs.Bounded) (r : ReportId) : (rs.drop r).Bounded where
  parent x p hp := hb.parent x p (hasParent_drop.mp hp).1
  rest x hx := by
    obtain ⟨hp, hs⟩ := hb.rest x hx
    rw [drop_parent, drop_subReports, hp, hs]
    exact ⟨ite_self _, ite_self _⟩

/-- Every call returns. -/
theorem Forest.operate_isSome (hf : rs.Forest) (hb : rs.Bounded) {o : Operation}
    (h : ∀ r, o.report = some r → r < rs.size) : ∃ rs', rs.operate o = some rs' := by
  cases o with
  | event e =>
    cases e with
    | new => exact ⟨_, rfl⟩
    | createSubReport r =>
      obtain ⟨hforest, hbounded⟩ := hf.createSubReport hb (h r rfl)
      obtain ⟨l, hl⟩ := hforest.notify_isSome hbounded r
      refine ⟨rs.new.attach r rs.size, ?_⟩
      rw [operate, step, if_pos (h r rfl), Reports.createSubReport, addSubReport, hl]
      rfl
    | setStatus r status =>
      obtain ⟨rs', hs, -⟩ := hf.setStatus_isSome hb (h r rfl) status
      exact ⟨rs', (if_pos (h r rfl)).trans hs⟩
  | setProgress r p =>
    obtain ⟨rs', hs, -⟩ := hf.setProgress_isSome hb r p
    exact ⟨rs', (if_pos (h r rfl)).trans hs⟩
  | setProgressWeight r w => exact ⟨_, if_pos (h r rfl)⟩
  | log r category => exact ⟨_, (if_pos (h r rfl)).trans (hf.log_eq hb category)⟩

end Reports

/-! ## Along a history -/

namespace Watched

section Histories

variable {w w' : Watched} {r : ReportId} {e : Event} {es : List Event} {o : Reports.Operation}

theorem lt_of_usable (h : w.usable r = true) : r < w.reports.size := by
  simp only [usable, decide_eq_true_eq] at h
  exact h.1

theorem lt_of_enabled (h : w.enabled o = true) : ∀ r, o.report = some r → r < w.reports.size := by
  intro r hr
  rw [enabled, hr, Option.all_some] at h
  exact lt_of_usable h

theorem edit_observers_self {f : Observers → Observers} :
    (w.edit r f).observers r = f (w.observers r) := Function.update_self ..

theorem edit_observers_of_ne {f : Observers → Observers} {x : ReportId} (h : x ≠ r) :
    (w.edit r f).observers x = w.observers x := Function.update_of_ne h ..

/-- What holds of the observers of each report, and is kept by `f`, holds after an edit. -/
theorem forall_edit {P : Observers → Prop} {f : Observers → Observers} (h : ∀ x, P (w.observers x))
    (hf : P (f (w.observers r))) (x : ReportId) : P ((w.edit r f).observers x) := by
  by_cases hx : x = r
  · subst hx
    rw [edit_observers_self]
    exact hf
  · rw [edit_observers_of_ne hx]
    exact h x

/-- Everything a step can do. -/
theorem step_cases (h : step w e = some w') :
    (∃ o, e = .call o ∧ w.enabled o = true ∧ w.perform o = some w') ∨
    (∃ r, e = .addObserver r ∧ w.usable r = true ∧ w' = w.edit r Observers.addObserver) ∨
    (∃ r id, e = .removeObserver r id ∧ w' = w.edit r (·.removeObserver id)) ∨
    (∃ r, e = .drop r ∧ w.reports.parent r = none ∧ w' = w.drop r) := by
  cases e with
  | call o =>
    obtain ⟨henabled, h⟩ := Option.ite_none_right_eq_some.mp h
    exact .inl ⟨o, rfl, henabled, h⟩
  | addObserver r =>
    obtain ⟨husable, h⟩ := Option.ite_none_right_eq_some.mp h
    exact .inr (.inl ⟨r, rfl, husable, (Option.some.inj h).symm⟩)
  | removeObserver r id =>
    obtain ⟨-, h⟩ := Option.ite_none_right_eq_some.mp h
    exact .inr (.inr (.inl ⟨r, id, rfl, (Option.some.inj h).symm⟩))
  | drop r =>
    obtain ⟨⟨-, hroot⟩, h⟩ := Option.ite_none_right_eq_some.mp h
    exact .inr (.inr (.inr ⟨r, rfl, hroot, (Option.some.inj h).symm⟩))

/-- The hierarchy is a forest. -/
def Grown (w : Watched) : Prop := w.reports.Forest ∧ w.reports.Bounded

theorem grown_step (h : w.Grown) (he : step w e = some w') : w'.Grown := by
  obtain ⟨hf, hb⟩ := h
  rcases step_cases he with ⟨o, -, henabled, ho⟩ | ⟨r, -, -, rfl⟩ | ⟨r, id, -, rfl⟩ |
    ⟨r, -, hroot, rfl⟩
  · have hreports := reports_perform (lt_of_enabled henabled)
    rw [ho] at hreports
    exact Reports.operate_forest hf hb hreports.symm
  · exact ⟨hf, hb⟩
  · exact ⟨hf, hb⟩
  · exact ⟨hf.drop hroot, hb.drop r⟩

theorem counted_step (h : ∀ x, Counted (w.observers x)) (he : step w e = some w') :
    ∀ x, Counted (w'.observers x) := by
  rcases step_cases he with ⟨o, -, -, ho⟩ | ⟨r, -, -, rfl⟩ | ⟨r, id, -, rfl⟩ | ⟨r, -, -, rfl⟩
  · rw [(told_perform ho).1]
    exact h
  · exact forall_edit h (h r).add
  · exact forall_edit h ((h r).remove id)
  · exact forall_edit (f := fun _ => {}) h .empty

theorem booked_step (h : ∀ x, Booked (w.observers x)) (hkind : w.Kind e)
    (he : step w e = some w') : ∀ x, Booked (w'.observers x) := by
  rcases step_cases he with ⟨o, -, -, ho⟩ | ⟨r, rfl, husable, rfl⟩ | ⟨r, id, -, rfl⟩ |
    ⟨r, -, -, rfl⟩
  · rw [(told_perform ho).1]
    exact h
  · exact forall_edit h ((h r).add (hkind husable))
  · exact forall_edit h ((h r).remove id)
  · exact forall_edit (f := fun _ => {}) h .empty

theorem grown (h : runs step {} es = some w) : w.Grown :=
  runs_invariant (fun _ _ _ => grown_step) h ⟨Reports.forest_empty, Reports.bounded_empty⟩

theorem counted (h : runs step {} es = some w) : ∀ x, Counted (w.observers x) :=
  runs_invariant (P := fun w => ∀ x, Counted (w.observers x)) (fun _ _ _ => counted_step) h
    fun _ => .empty

/-- Every call returns. -/
theorem Grown.perform_isSome (h : w.Grown) (henabled : w.enabled o = true) :
    ∃ w', w.perform o = some w' := by
  have hlt := lt_of_enabled henabled
  obtain ⟨rs', hrs⟩ := h.1.operate_isSome h.2 hlt
  rw [← reports_perform hlt] at hrs
  obtain ⟨w', hw, -⟩ := Option.map_eq_some_iff.mp hrs
  exact ⟨w', hw⟩

theorem Since.imp {P Q : Raised → List Delivery → Prop} (h : ∀ e ds, P e ds → Q e ds)
    (hs : Since P w w') : Since Q w w' := by
  obtain ⟨rs, dss, hr, hd, hall⟩ := hs
  exact ⟨rs, dss, hr, hd, hall.imp h⟩

theorem Grown.rightly (h : w.Grown) (hb : ∀ x, Booked (w.observers x)) : w.Rightly := by
  intro o henabled
  obtain ⟨w', hw⟩ := h.perform_isSome henabled
  obtain ⟨hobservers, -, hsince⟩ := told_perform hw
  have hstep : step w (.call o) = some w' := by rw [step, if_pos henabled, hw]
  have hacyclic := (grown_step h hstep).1.acyclic
  exact ⟨w', hw, hsince.imp fun e ds => reaches_of_walk hacyclic (hobservers ▸ hb)⟩

/-- What a message raises, and who is called. -/
theorem log_spec {category : ExecutionLogCategory} (h : w.log r category = some w') :
    ∃ e l, e.report = r ∧ w'.observers = w.observers ∧ w'.raised = w.raised ++ [e] ∧
      w'.delivered = w.delivered ++ (r :: l).flatMap (w.calls e) := by
  unfold Watched.log at h
  rw [notify_eq] at h
  obtain ⟨l, -, rfl⟩ := Option.map_eq_some_iff.mp h
  exact ⟨_, l, rfl, rfl, rfl, rfl⟩

/-- An observer that is registered is called for a message. -/
theorem Rightly.inserted (h : w.Rightly) (husable : w.usable r = true) {n : Nat}
    (hn : n ∈ w.registered r) : ∃ g ∈ (w.observers r).observers.entries, g.2 = n := by
  obtain ⟨w', hw, rs, dss, hraised, hdelivered, hall⟩ := h (.log r .info) husable
  obtain ⟨e, l, rfl, hobservers, hraised', hdelivered'⟩ := log_spec hw
  obtain rfl := List.append_cancel_left (hraised.symm.trans hraised')
  obtain ⟨ds, tail, hreaches, htail, rfl⟩ := List.forall₂_cons_left_iff.mp hall
  obtain rfl := List.forall₂_nil_left_iff.mp htail
  have hds := List.append_cancel_left (hdelivered.symm.trans hdelivered')
  have hregistered : n ∈ w'.registered e.report := by rwa [registered, hobservers]
  have hmem : (⟨e.report, n, e⟩ : Delivery) ∈ ds := (hreaches.exactly _).mpr ⟨rfl, .refl, hregistered⟩
  rw [List.flatten_singleton] at hds
  rw [hds] at hmem
  obtain ⟨x, -, hcall⟩ := List.mem_flatMap.mp hmem
  obtain ⟨-, rfl, hg⟩ := mem_calls.mp hcall
  exact hg

/-- Whoever is registered is called, so the id was free. -/
theorem free_of_rightly (hc : Counted (w.observers r)) (husable : w.usable r = true)
    (h : (w.edit r Observers.addObserver).Rightly) :
    (w.observers r).observers.find? (w.observers r).nextObserverId = none := by
  have hnew : (w.observers r).added ∈ (w.edit r Observers.addObserver).registered r := by
    rw [registered, edit_observers_self, Observers.addObserver, List.map_append]
    exact List.mem_append_right _ List.mem_cons_self
  obtain ⟨g, hg, hadded⟩ := h.inserted husable hnew
  rw [edit_observers_self] at hg
  by_contra htaken
  obtain ⟨n, hn⟩ := Option.ne_none_iff_exists'.mp htaken
  exact not_inserted hc hn g hg hadded

/-- **What is raised reaches its observers all along a history exactly if every observer that is added
finds its id free.** -/
theorem rightly_iff (es : List Event) :
    Throughout step Rightly {} es ↔ Along step Kind {} es := by
  constructor
  · intro hlaw before e after w heq hw
    cases e with
    | addObserver r =>
      intro husable
      have hstep : step w (.addObserver r) = some (w.edit r Observers.addObserver) := if_pos husable
      refine free_of_rightly (counted hw r) husable ?_
      exact hlaw (before ++ [.addObserver r]) after _ (by simp [heq])
        (runs_concat.mpr ⟨w, hw, hstep⟩)
    | _ => trivial
  · intro h before after w heq hw
    have hbooked : Throughout step (fun w => ∀ x, Booked (w.observers x)) {} es :=
      throughout_of_along (fun _ => .empty) (fun _ _ _ => booked_step) h
    exact (grown hw).rightly (hbooked before after w heq hw)

/-! ## How often observers are added -/

def Event.adds (r : ReportId) : Event → Bool
  | .addObserver s => s = r
  | _ => false

theorem added_step (he : step w e = some w') :
    (w'.observers r).added ≤ (w.observers r).added + if e.adds r then 1 else 0 := by
  rcases step_cases he with ⟨o, rfl, -, ho⟩ | ⟨s, rfl, -, rfl⟩ | ⟨s, id, rfl, rfl⟩ | ⟨s, rfl, -, rfl⟩
  · rw [(told_perform ho).1]
    exact Nat.le_add_right _ _
  · by_cases hs : s = r
    · subst hs
      rw [edit_observers_self, Event.adds, if_pos (decide_eq_true rfl)]
      exact Nat.le_refl _
    · rw [edit_observers_of_ne (Ne.symm hs)]
      exact Nat.le_add_right _ _
  · by_cases hs : s = r
    · subst hs
      rw [edit_observers_self]
      exact Nat.le_add_right _ _
    · rw [edit_observers_of_ne (Ne.symm hs)]
      exact Nat.le_add_right _ _
  · show ((w.edit s fun _ => {}).observers r).added ≤ _
    by_cases hs : s = r
    · subst hs
      rw [edit_observers_self]
      exact Nat.zero_le _
    · rw [edit_observers_of_ne (Ne.symm hs)]
      exact Nat.le_add_right _ _

theorem added_le (h : runs step {} es = some w) (r : ReportId) :
    (w.observers r).added ≤ es.countP (·.adds r) := by
  refine runs_induction (P := fun es w => (w.observers r).added ≤ es.countP (·.adds r))
    (Nat.zero_le _) (fun es w e w' ih he => ?_) h
  rw [List.countP_append, List.countP_singleton]
  exact (added_step he).trans (Nat.add_le_add_right ih _)

/-- Up to `2 ^ 32` observers can be added to each report. -/
theorem along_of_few (h : ∀ r, es.countP (·.adds r) ≤ 2 ^ 32) : Along step Kind {} es := by
  rintro before e after w rfl hw
  cases e with
  | addObserver r =>
    intro _
    refine (counted hw r).free ((added_le hw r).trans_lt ?_)
    have hcount := h r
    have hself : Event.adds r (.addObserver r) = true := decide_eq_true rfl
    simp only [List.countP_append, List.countP_cons, hself, if_true] at hcount
    omega
  | _ => trivial

end Histories

/-! ## The ids start again -/

/-- An observer stays, and `n` others come and go. -/
def passing : Nat → List Event
  | 0 => [.call (.event .new), .addObserver 0]
  | n + 1 => passing n ++ [.addObserver 0, .removeObserver 0 (.ofNat (n + 1))]

/-- What the report knows then of its observers. -/
def stayed (n : Nat) : Observers where
  nextObserverId := .ofNat (n + 1)
  observers := SortedMap.empty.insert 0 0
  added := n + 1
  registered := [(0, 0)]

def passed (n : Nat) : Watched :=
  { ({} : Watched) with
    reports := Reports.empty.new, observers := Function.update (fun _ => {}) 0 (stayed n) }

theorem stayed_passes {n : Nat} (hn : n + 1 < 2 ^ 32) :
    (stayed n).addObserver.removeObserver (.ofNat (n + 1)) = stayed (n + 1) := by
  have hne : Int32.ofNat (n + 1) ≠ 0 := fun h => Nat.succ_ne_zero n (ofNat_inj hn (by decide) h)
  have hfree : (stayed n).observers.find? (.ofNat (n + 1)) = none := by
    rw [stayed, SortedMap.find?_insert, if_neg hne]
    rfl
  have hnext : Int32.ofNat (n + 1) + 1 = .ofNat (n + 1 + 1) := (Int32.ofNat_add (n + 1) 1).symm
  have hkept (id : Int32) (h : id ≠ 0) :
      [((0 : Int32), 0), (id, n + 1)].filter (fun g => g.1 ≠ id) = [(0, 0)] := by
    simp [Ne.symm h]
  have herase := SortedMap.erase_insert hfree (n + 1)
  simp only [Observers.addObserver, Observers.removeObserver, stayed, Observers.mk.injEq]
  exact ⟨hnext, herase, trivial, hkept _ hne⟩

theorem runs_passing {n : Nat} (hn : n < 2 ^ 32) : runs step {} (passing n) = some (passed n) := by
  induction n with
  | zero => rfl
  | succ n ih =>
    have hadd : step (passed n) (.addObserver 0) = some ((passed n).edit 0 Observers.addObserver) :=
      rfl
    refine runs_append.mpr ⟨passed n, ih (Nat.lt_of_succ_lt hn), runs_cons.mpr ⟨_, hadd, ?_⟩⟩
    have hupdate : Function.update (Function.update (Function.update (fun _ => ({} : Observers)) 0
        (stayed n)) 0 (stayed n).addObserver) 0
          ((stayed n).addObserver.removeObserver (.ofNat (n + 1))) =
            Function.update (fun _ => {}) 0 (stayed (n + 1)) := by
      rw [Function.update_idem, Function.update_idem, stayed_passes hn]
    exact congrArg (fun f => some { ({} : Watched) with reports := Reports.empty.new, observers := f })
      hupdate

/-- The next observer has the id of the one that stayed. -/
theorem not_rightly_of_next {n : Nat} (hn : n < 2 ^ 32) (hnext : Int32.ofNat (n + 1) = 0) :
    ¬ Throughout step Rightly {} (passing n ++ [.addObserver 0]) := by
  intro hlaw
  have hrun := runs_passing hn
  have hadd : step (passed n) (.addObserver 0) = some ((passed n).edit 0 Observers.addObserver) :=
    rfl
  have hright := hlaw (passing n ++ [.addObserver 0]) [] _ (List.append_nil _).symm
    (runs_concat.mpr ⟨_, hrun, hadd⟩)
  have hfree := free_of_rightly (counted hrun 0) rfl hright
  have hid : ((passed n).observers 0).nextObserverId = 0 := hnext
  rw [hid] at hfree
  cases hfree

/-- When `2 ^ 32 - 1` others have come and gone, the next observer is not called. -/
theorem not_rightly : ¬ Throughout step Rightly {} (passing (2 ^ 32 - 1) ++ [.addObserver 0]) :=
  not_rightly_of_next (by decide) (by decide)

end Watched

end EzCpp.Reporting
