import EzCpp.Reporting.Forest
import Mathlib.Tactic.IntervalCases

/-!
# Progress under concurrent writers

Every sub-report has a writer of its own, and what a call of `set_progress` does to atomic variables
is done one at a time, in any order of the writers: it stores the progress of the sub-report, loads
that of the parent, reads the sub-reports one after the other, and exchanges.

An exchange that succeeds says that the progress of the parent is what it was when it was loaded, not
that nothing happened since. Where nothing did (`Stale` never occurs), what was read of a sub-report
is what it has, or its writer is still to exchange (`Current`), and so the last exchange of a call
leaves the mean of what there is (`converges`). Where a progress comes back, a mean that is out of date
is written, and stays (`comes_back`).
-/

namespace EzCpp.Reporting

open EzCpp.Lib

/-- Where the call of `set_progress` of a writer is. -/
inductive Call
  | idle
  | storing (p : ExecutionProgress)
  | loading
  /-- The old progress of the parent, the sub-reports to be read, and the sums so far. The stamp is no
  part of the program: it is the number of exchanges that had succeeded when the old progress was
  loaded. -/
  | scanning (stamp : Nat) (old : ExecutionProgress) (rest : List ReportId)
      (totalProgress totalWeights : Nat)

/-- The sub-report was stored, and the parent does not show it yet. -/
def Call.pending : Call → Bool
  | .idle | .storing _ => false
  | .loading | .scanning .. => true

structure Progressing where
  reports : Reports
  call : ReportId → Call
  /-- How many exchanges have succeeded, which is no part of the program either. -/
  exchanges : Nat

namespace Progressing

inductive Event
  /-- the call, which compares -/
  | set (s : ReportId) (p : ExecutionProgress)
  | store (s : ReportId)
  | load (s : ReportId)
  /-- the next sub-report is read -/
  | read (s : ReportId)
  | exchange (s : ReportId) (spurious : Bool)

def goto (g : Progressing) (s : ReportId) (call : Call) : Progressing :=
  { g with call := Function.update g.call s call }

def step (parent : ReportId) (g : Progressing) : Event → Option Progressing
  | .set s p =>
    if s ∈ (g.reports.data parent).subReports then
      match g.call s with
      | .idle => some (if (g.reports.data s).progress = p then g else g.goto s (.storing p))
      | _ => none
    else none
  | .store s =>
    match g.call s with
    | .storing p => some { g.goto s (if (g.reports.data s).progressWeightInParent = 0 then .idle else .loading)
        with reports := g.reports.writeProgress s p }
    | _ => none
  | .load s =>
    match g.call s with
    | .loading => some (g.goto s
        (.scanning g.exchanges (g.reports.data parent).progress (g.reports.data parent).subReports 0 0))
    | _ => none
  | .read s =>
    match g.call s with
    | .scanning stamp old (c :: rest) totalProgress totalWeights =>
      let d := g.reports.data c
      let w := d.progressWeightInParent
      some (g.goto s (if w = 0 then .scanning stamp old rest totalProgress totalWeights
        else .scanning stamp old rest (totalProgress + d.progress.val * w) (totalWeights + w)))
    | _ => none
  | .exchange s spurious =>
    match g.call s with
    | .scanning _ old [] totalProgress totalWeights =>
      if totalWeights = 0 then some (g.goto s .idle)
      else if (g.reports.data parent).progress = old ∧ spurious = false then
        some { g.goto s .idle with
          reports := g.reports.writeProgress parent (.rounded totalProgress totalWeights),
          exchanges := g.exchanges + 1 }
      else some (g.goto s .loading)
    | _ => none

def start (tree : Reports) : Progressing := ⟨tree, fun _ => .idle, 0⟩

/-- The exchange would succeed, since the progress of the parent has come back to what it was. -/
def Stale (parent : ReportId) (g : Progressing) (s : ReportId) : Prop :=
  ∃ stamp old totalProgress totalWeights, g.call s = .scanning stamp old [] totalProgress totalWeights ∧
    (g.reports.data parent).progress = old ∧ stamp ≠ g.exchanges

/-! ## Means -/

section means
variable {rs rs' : Reports} {r : ReportId} {v v' : ReportId → ExecutionProgress} {l : List ReportId}

def weight (rs : Reports) (r : ReportId) : Nat := (rs.data r).progressWeightInParent

def progress (rs : Reports) (r : ReportId) : ExecutionProgress := (rs.data r).progress

def totalWeights (rs : Reports) (l : List ReportId) : Nat := (l.map (weight rs)).sum

def totalProgress (rs : Reports) (v : ReportId → ExecutionProgress) (l : List ReportId) : Nat :=
  (l.map fun c => (v c).val * weight rs c).sum

/-- The sub-reports without a weight make no difference to the sums. -/
theorem progressFromSubReports_eq (rs : Reports) (r : ReportId) : rs.progressFromSubReports r =
    if totalWeights rs (rs.data r).subReports = 0 then none
    else some (.rounded (totalProgress rs (progress rs) (rs.data r).subReports)
      (totalWeights rs (rs.data r).subReports)) := by
  have weights : ∀ l : List ReportId, (((l.map rs.data).filter (·.progressWeightInParent ≠ 0)).map
      (·.progressWeightInParent)).sum = totalWeights rs l := by
    intro l
    induction l with
    | nil => rfl
    | cons c l ih =>
      rw [totalWeights] at ih ⊢
      by_cases hc : (rs.data c).progressWeightInParent = 0
      · simpa [hc, weight] using ih
      · simpa [hc, weight] using ih
  have progresses : ∀ l : List ReportId, (((l.map rs.data).filter (·.progressWeightInParent ≠ 0)).map
      fun d => d.progress.val * d.progressWeightInParent).sum = totalProgress rs (progress rs) l := by
    intro l
    induction l with
    | nil => rfl
    | cons c l ih =>
      rw [totalProgress] at ih ⊢
      by_cases hc : (rs.data c).progressWeightInParent = 0
      · simpa [hc, weight, progress] using ih
      · simpa [hc, weight, progress] using ih
  rw [Reports.progressFromSubReports, weights, progresses]

theorem totalProgress_congr (h : ∀ c ∈ l, weight rs c ≠ 0 → v c = v' c) :
    totalProgress rs v l = totalProgress rs v' l := by
  rw [totalProgress, totalProgress]
  refine congrArg List.sum (List.map_congr_left fun c hc => ?_)
  by_cases hw : weight rs c = 0
  · rw [hw, Nat.mul_zero, Nat.mul_zero]
  · rw [h c hc hw]

theorem totalWeights_eq_zero (h : totalWeights rs l = 0) : ∀ c ∈ l, weight rs c = 0 := by
  intro c hc
  exact List.sum_eq_zero_iff_forall_eq_nat.1 h _ (List.mem_map_of_mem hc)

end means

/-! ## The invariant -/

variable {tree : Reports} {parent s c : ReportId} {g g' : Progressing} {es : List Event}
  {v : ReportId → ExecutionProgress} {l : List ReportId}

/-- What was read of the sub-reports in the list is what they have, or their writers are still to
exchange, and this is not `s`. -/
def Current (tree : Reports) (g : Progressing) (s : ReportId) (v : ReportId → ExecutionProgress)
    (l : List ReportId) : Prop :=
  ∀ c ∈ l, weight tree c ≠ 0 →
    v c = progress g.reports c ∨ c ≠ s ∧ (g.call c).pending = true

/-- **The invariant.** The progress of the parent is the mean of something current, and so are the
sums of a scan as long as no exchange has succeeded since it began. -/
structure Sound (tree : Reports) (parent : ReportId) (g : Progressing) : Prop where
  written : tree.OnlyProgress g.reports
  members : ∀ s, g.call s ≠ .idle → s ∈ (tree.data parent).subReports
  stamps : ∀ s stamp old rest tp tw, g.call s = .scanning stamp old rest tp tw → stamp ≤ g.exchanges
  /-- The parent stands for nobody here: it is none of its own sub-reports. -/
  shown : ∃ v, Current tree g parent v (tree.data parent).subReports ∧
    (totalWeights tree (tree.data parent).subReports ≠ 0 →
      progress g.reports parent = .rounded (totalProgress tree v (tree.data parent).subReports)
        (totalWeights tree (tree.data parent).subReports))
  scans : ∀ s stamp old rest tp tw, g.call s = .scanning stamp old rest tp tw →
    ∃ seen, (tree.data parent).subReports = seen ++ rest ∧ tw = totalWeights tree seen ∧
      (stamp = g.exchanges → ∃ v, tp = totalProgress tree v seen ∧ Current tree g s v seen)

theorem weight_eq (h : tree.OnlyProgress g.reports) (c : ReportId) :
    weight g.reports c = weight tree c := (h.links.2 c).2.2

theorem Sound.start (zero : ∀ r, (tree.data r).progress = 0) : Sound tree parent (start tree) where
  written := .refl tree
  members _ h := absurd rfl h
  stamps _ _ _ _ _ _ h := nomatch h
  shown := by
    refine ⟨progress tree, fun c _ _ => .inl rfl, fun _ => ?_⟩
    have none : totalProgress tree (progress tree) (tree.data parent).subReports = 0 := by
      refine List.sum_eq_zero_iff_forall_eq_nat.2 fun n hn => ?_
      obtain ⟨c, -, rfl⟩ := List.mem_map.1 hn
      rw [progress, zero c]
      exact Nat.zero_mul _
    rw [none]
    refine (zero parent).trans (Fin.ext ?_)
    show 0 = min ((2 * 0 + _) / (2 * _)) 100
    rw [Nat.div_eq_of_lt (by omega)]
    rfl
  scans _ _ _ _ _ _ h := nomatch h

/-! ## The steps -/

/-- A step of one writer leaves current what is, if it stores nothing, or is to exchange then. -/
theorem Current.of_step {t : ReportId} (h : Current tree g s v l)
    (other : ∀ c, c ≠ t → c ∈ l → progress g'.reports c = progress g.reports c ∧ g'.call c = g.call c)
    (own : weight tree t ≠ 0 → t ∈ l → progress g'.reports t = progress g.reports t ∧
      ((g.call t).pending = true → (g'.call t).pending = true) ∨
        t ≠ s ∧ (g'.call t).pending = true) : Current tree g' s v l := by
  intro c hc hw
  by_cases hct : c = t
  · subst hct
    rcases own hw hc with ⟨hp, hpending⟩ | hn
    · rw [hp]
      exact (h c hc hw).imp_right (And.imp_right hpending)
    · exact .inr hn
  · obtain ⟨hp, hcall⟩ := other c hct hc
    rw [hp, hcall]
    exact h c hc hw

theorem goto_call_self (g : Progressing) (s : ReportId) (call : Call) : (g.goto s call).call s = call :=
  Function.update_self ..

theorem goto_call_of_ne (g : Progressing) (call : Call) (h : c ≠ s) :
    (g.goto s call).call c = g.call c :=
  Function.update_of_ne h ..

/-- A writer that goes on without writing. -/
theorem Sound.goto (h : Sound tree parent g) {k : Call}
    (hs : s ∈ (tree.data parent).subReports)
    (pending : weight tree s ≠ 0 → (g.call s).pending = true → k.pending = true)
    (stamps : ∀ stamp old rest tp tw, k = .scanning stamp old rest tp tw → stamp ≤ g.exchanges)
    (scans : ∀ stamp old rest tp tw, k = .scanning stamp old rest tp tw →
      ∃ seen, (tree.data parent).subReports = seen ++ rest ∧ tw = totalWeights tree seen ∧
        (stamp = g.exchanges → ∃ v, tp = totalProgress tree v seen ∧ Current tree g s v seen)) :
    Sound tree parent (g.goto s k) := by
  have current : ∀ {t v l}, Current tree g t v l → Current tree (g.goto s k) t v l := by
    intro t v l hc
    refine hc.of_step (t := s) (fun c hcs _ => ⟨rfl, g.goto_call_of_ne k hcs⟩) fun hw _ => .inl ⟨rfl, ?_⟩
    rw [goto_call_self]
    exact pending hw
  refine ⟨h.written, fun t ht => ?_, fun t stamp old rest tp tw ht => ?_, ?_,
    fun t stamp old rest tp tw ht => ?_⟩
  · by_cases hts : t = s
    · exact hts ▸ hs
    · rw [g.goto_call_of_ne k hts] at ht
      exact h.members t ht
  · by_cases hts : t = s
    · subst hts
      rw [goto_call_self] at ht
      exact stamps stamp old rest tp tw ht
    · rw [g.goto_call_of_ne k hts] at ht
      exact h.stamps t stamp old rest tp tw ht
  · obtain ⟨v, hv, hp⟩ := h.shown
    exact ⟨v, current hv, hp⟩
  · have old : ∃ seen, (tree.data parent).subReports = seen ++ rest ∧ tw = totalWeights tree seen ∧
        (stamp = g.exchanges → ∃ v, tp = totalProgress tree v seen ∧ Current tree g t v seen) := by
      by_cases hts : t = s
      · subst hts
        rw [goto_call_self] at ht
        exact scans stamp old rest tp tw ht
      · rw [g.goto_call_of_ne k hts] at ht
        exact h.scans t stamp old rest tp tw ht
    obtain ⟨seen, hseen, htw, hv⟩ := old
    refine ⟨seen, hseen, htw, fun he => ?_⟩
    obtain ⟨v, htp, hv⟩ := hv he
    exact ⟨v, htp, current hv⟩

theorem Sound.load (h : Sound tree parent g) (hs : g.call s = .loading) :
    Sound tree parent (g.goto s (.scanning g.exchanges (g.reports.data parent).progress
      (g.reports.data parent).subReports 0 0)) := by
  refine h.goto (h.members s (by rw [hs]; nofun)) (fun _ _ => rfl) ?_ ?_
  · rintro stamp old rest tp tw ⟨⟩
    exact Nat.le_refl _
  · rintro stamp old rest tp tw ⟨⟩
    exact ⟨[], (h.written.links.2 parent).2.1.symm, rfl, fun _ => ⟨fun _ => 0, rfl, nofun⟩⟩

theorem Sound.read (h : Sound tree parent g) (hf : tree.Forest) {stamp : Nat} {old : ExecutionProgress}
    {rest : List ReportId} {tp tw : Nat} (hs : g.call s = .scanning stamp old (c :: rest) tp tw) :
    Sound tree parent (g.goto s (.scanning stamp old rest
      (tp + (progress g.reports c).val * weight tree c) (tw + weight tree c))) := by
  refine h.goto (h.members s (by rw [hs]; nofun)) (fun _ _ => rfl) ?_ ?_
  · rintro stamp old rest tp tw ⟨⟩
    exact h.stamps _ _ _ _ _ _ hs
  · rintro stamp old rest _ _ ⟨⟩
    obtain ⟨seen, hseen, rfl, scanned⟩ := h.scans _ _ _ _ _ _ hs
    refine ⟨seen ++ [c], by rw [hseen, List.append_assoc]; rfl, ?_, fun he => ?_⟩
    · rw [totalWeights, totalWeights, List.map_append, List.sum_append]
      rfl
    · obtain ⟨v, rfl, hv⟩ := scanned he
      have once : c ∉ seen := by
        have nodup := hf.once parent
        rw [hseen] at nodup
        exact fun hm => (List.nodup_append.1 nodup).2.2 c hm c List.mem_cons_self rfl
      have apart : ∀ x ∈ seen, x ≠ c := fun x hx he => once (he ▸ hx)
      refine ⟨Function.update v c (progress g.reports c), ?_, fun x hx hw => ?_⟩
      · have before : totalProgress tree (Function.update v c (progress g.reports c)) seen =
            totalProgress tree v seen :=
          totalProgress_congr fun x hx _ => Function.update_of_ne (apart x hx) ..
        rw [← before, totalProgress, totalProgress, List.map_append, List.sum_append, List.map_singleton,
          List.sum_singleton, Function.update_self]
      · rcases List.mem_append.1 hx with hx | hx
        · rw [Function.update_of_ne (apart x hx)]
          exact hv x hx hw
        · rw [List.mem_singleton.1 hx, Function.update_self]
          exact .inl rfl

theorem progress_writeProgress_self (rs : Reports) (s : ReportId) (p : ExecutionProgress) :
    progress (rs.writeProgress s p) s = p := by
  rw [progress, Reports.writeProgress, Reports.edit_data_self]

theorem progress_writeProgress_of_ne (rs : Reports) (p : ExecutionProgress) (h : c ≠ s) :
    progress (rs.writeProgress s p) c = progress rs c := by
  rw [progress, Reports.writeProgress, Reports.edit_data_of_ne _ _ h]
  rfl

theorem Sound.store (h : Sound tree parent g) (hf : tree.Forest) {p : ExecutionProgress}
    (hs : g.call s = .storing p) : Sound tree parent
      { g.goto s (if weight tree s = 0 then .idle else .loading) with
        reports := g.reports.writeProgress s p } := by
  have member := h.members s (by rw [hs]; nofun)
  have apart : parent ≠ s := by
    rintro rfl
    exact hf.acyclic parent (.single ((hf.listed parent parent).1 member))
  have moved := h.goto (s := s) (k := if weight tree s = 0 then .idle else .loading) member
    (fun hw _ => by rw [if_neg hw]; rfl) (fun _ _ _ _ _ he => by split at he <;> cases he)
    (fun _ _ _ _ _ he => by split at he <;> cases he)
  have current : ∀ {t v l}, t ≠ s → Current tree g t v l → Current tree
      { g.goto s (if weight tree s = 0 then .idle else .loading) with
        reports := g.reports.writeProgress s p } t v l := by
    intro t v l hts hc
    refine hc.of_step (t := s) (fun c hcs _ => ?_) fun hw _ => .inr ⟨hts.symm, ?_⟩
    · exact ⟨progress_writeProgress_of_ne _ _ hcs, g.goto_call_of_ne _ hcs⟩
    · dsimp only
      rw [goto_call_self, if_neg hw]
      rfl
  refine ⟨h.written.trans (g.reports.onlyProgress_writeProgress s p), moved.members, moved.stamps,
    ?_, fun t stamp old rest tp tw ht => ?_⟩
  · obtain ⟨v, hv, hp⟩ := h.shown
    refine ⟨v, current apart hv, fun hw => ?_⟩
    rw [progress_writeProgress_of_ne _ _ apart]
    exact hp hw
  · have hts : t ≠ s := by
      rintro rfl
      dsimp only at ht
      rw [goto_call_self] at ht
      split at ht <;> cases ht
    dsimp only at ht
    rw [g.goto_call_of_ne _ hts] at ht
    obtain ⟨seen, hseen, htw, hv⟩ := h.scans t stamp old rest tp tw ht
    refine ⟨seen, hseen, htw, fun he => ?_⟩
    obtain ⟨v, htp, hv⟩ := hv he
    exact ⟨v, htp, current hts hv⟩

/-- An exchange that succeeds where no other one has since the old progress was loaded. -/
theorem Sound.exchange (h : Sound tree parent g) (hf : tree.Forest) {old : ExecutionProgress}
    {tp tw : Nat} (hs : g.call s = .scanning g.exchanges old [] tp tw) : Sound tree parent
      { g.goto s .idle with
        reports := g.reports.writeProgress parent (.rounded tp tw), exchanges := g.exchanges + 1 } := by
  have irrefl : ∀ c ∈ (tree.data parent).subReports, c ≠ parent := by
    rintro c hc rfl
    exact hf.acyclic c (.single ((hf.listed c c).1 hc))
  refine ⟨h.written.trans (g.reports.onlyProgress_writeProgress parent _), fun t ht => ?_,
    fun t stamp old rest tp tw ht => ?_, ?_, fun t stamp old rest tp tw ht => ?_⟩
  · by_cases hts : t = s
    · exact hts ▸ h.members s (by rw [hs]; nofun)
    · dsimp only at ht
      rw [g.goto_call_of_ne _ hts] at ht
      exact h.members t ht
  · have hts : t ≠ s := by
      rintro rfl
      dsimp only at ht
      rw [goto_call_self] at ht
      cases ht
    dsimp only at ht
    rw [g.goto_call_of_ne _ hts] at ht
    exact (h.stamps t stamp old rest tp tw ht).trans (Nat.le_succ _)
  · obtain ⟨seen, hseen, rfl, scanned⟩ := h.scans _ _ _ _ _ _ hs
    obtain ⟨v, rfl, hv⟩ := scanned rfl
    rw [List.append_nil] at hseen
    subst hseen
    refine ⟨v, fun c hc hw => ?_, fun _ => progress_writeProgress_self ..⟩
    rw [progress_writeProgress_of_ne _ _ (irrefl c hc)]
    refine (hv c hc hw).imp_right fun ⟨hcs, hpending⟩ => ⟨irrefl c hc, ?_⟩
    dsimp only
    rw [g.goto_call_of_ne _ hcs]
    exact hpending
  · have hts : t ≠ s := by
      rintro rfl
      dsimp only at ht
      rw [goto_call_self] at ht
      cases ht
    dsimp only at ht
    rw [g.goto_call_of_ne _ hts] at ht
    obtain ⟨seen, hseen, htw, -⟩ := h.scans t stamp old rest tp tw ht
    refine ⟨seen, hseen, htw, fun he => ?_⟩
    exact absurd (h.stamps t stamp old rest tp tw ht) (by rw [he]; exact Nat.not_succ_le_self _)

/-- **Every step keeps the invariant**, unless an exchange is taken that is stale. -/
theorem Sound.next (h : Sound tree parent g) (hf : tree.Forest) {e : Event}
    (he : step parent g e = some g') (fresh : ∀ s, e = .exchange s false → ¬ g.Stale parent s) :
    Sound tree parent g' := by
  have subs : (g.reports.data parent).subReports = (tree.data parent).subReports :=
    (h.written.links.2 parent).2.1
  cases e with
  | set s p =>
    obtain ⟨hs, he⟩ := Option.ite_none_right_eq_some.1 he
    split at he
    next hcall =>
      cases he
      split
      · exact h
      · exact h.goto (subs ▸ hs) (fun _ hp => by rw [hcall] at hp; cases hp) nofun nofun
    next => cases he
  | store s =>
    rw [step] at he
    split at he
    next p hcall =>
      cases he
      have := h.store hf hcall
      rwa [← weight_eq h.written] at this
    next => cases he
  | load s =>
    rw [step] at he
    split at he
    next hcall =>
      cases he
      exact h.load hcall
    next => cases he
  | read s =>
    rw [step] at he
    split at he
    next stamp old c rest tp tw hcall =>
      cases he
      have next := h.read hf hcall
      rw [← weight_eq h.written] at next
      split
      next hw =>
        rw [weight, hw, Nat.mul_zero] at next
        exact next
      next => exact next
    next => cases he
  | exchange s spurious =>
    rw [step] at he
    split at he
    next stamp old tp tw hcall =>
      have member := h.members s (by rw [hcall]; nofun)
      split at he
      next hw =>
        cases he
        obtain ⟨seen, hseen, htw, -⟩ := h.scans _ _ _ _ _ _ hcall
        rw [List.append_nil] at hseen
        refine h.goto member (fun hs => absurd ?_ hs) nofun nofun
        exact totalWeights_eq_zero (htw.symm.trans hw) s (hseen ▸ member)
      next =>
        split at he
        next hsucceeds =>
          cases he
          obtain ⟨hold, rfl⟩ := hsucceeds
          by_cases hstamp : stamp = g.exchanges
          · exact h.exchange hf (hstamp ▸ hcall)
          · exact absurd ⟨stamp, old, tp, tw, hcall, hold, hstamp⟩ (fresh s rfl)
        next =>
          cases he
          exact h.goto member (fun _ _ => rfl) nofun nofun
    next => cases he

/-- Once every writer has exchanged, the progress of the parent is the mean. -/
theorem Sound.converged (h : Sound tree parent g) (idle : ∀ s, g.call s = .idle) :
    ∀ p, g.reports.progressFromSubReports parent = some p → (g.reports.data parent).progress = p := by
  intro p hp
  obtain ⟨v, hv, hm⟩ := h.shown
  have subs : (g.reports.data parent).subReports = (tree.data parent).subReports :=
    (h.written.links.2 parent).2.1
  have weights : ∀ l, totalWeights g.reports l = totalWeights tree l := by
    intro l
    rw [totalWeights, totalWeights, List.map_congr_left fun c _ => weight_eq h.written c]
  have sums : totalProgress g.reports (progress g.reports) (tree.data parent).subReports =
      totalProgress tree v (tree.data parent).subReports := by
    rw [totalProgress, List.map_congr_left fun c _ => by rw [weight_eq h.written c], ← totalProgress]
    refine totalProgress_congr fun c hc hw => ?_
    rcases hv c hc hw with hv | ⟨-, hv⟩
    · exact hv.symm
    · rw [idle c] at hv
      cases hv
  rw [progressFromSubReports_eq, subs, weights, sums] at hp
  split at hp
  next => cases hp
  next hw =>
    cases hp
    exact hm hw

/-- **The progress of the parent is the mean whenever no call is in progress**, along every run in
which no exchange is taken that is stale. -/
theorem converges (tree : Reports) (parent : ReportId) (es : List Event) (g : Progressing)
    (hf : tree.Forest) (zero : ∀ r, (tree.data r).progress = 0)
    (h : runs (step parent) (start tree) es = some g)
    (fresh : ∀ es₁ s es₂ t, es = es₁ ++ .exchange s false :: es₂ →
      runs (step parent) (start tree) es₁ = some t → ¬ t.Stale parent s)
    (idle : ∀ s, g.call s = .idle) :
    ∀ p, g.reports.progressFromSubReports parent = some p → (g.reports.data parent).progress = p := by
  have invariant : runs (step parent) (start tree) es = some g ∧
      ((∃ es₂, es = es ++ es₂) → Sound tree parent g) := by
    refine runs_induction (P := fun es₁ t => runs (step parent) (start tree) es₁ = some t ∧
      ((∃ es₂, es = es₁ ++ es₂) → Sound tree parent t))
      ⟨rfl, fun _ => .start zero⟩ (fun es₁ t e u ih he => ?_) h
    refine ⟨runs_concat.2 ⟨t, ih.1, he⟩, fun ⟨es₂, hes⟩ => ?_⟩
    rw [List.append_assoc] at hes
    refine (ih.2 ⟨[e] ++ es₂, hes⟩).next hf he fun s hs => ?_
    exact fresh es₁ s es₂ t (hs ▸ hes) ih.1
  exact (invariant.2 ⟨[], (List.append_nil es).symm⟩).converged idle

/-- A report with three sub-reports. -/
def three : Reports := (((Reports.empty.new).new.attach 0 1).new.attach 0 2).new.attach 0 3

/-- A writer reads what it will exchange. -/
def scan (s : ReportId) : List Event := [.load s, .read s, .read s, .read s]

theorem three_forest : three.Forest := by
  obtain ⟨hf, hb⟩ := (Reports.forest_empty.new Reports.bounded_empty).createSubReport
    Reports.bounded_empty.new (Nat.lt_succ_self 0)
  obtain ⟨hf, hb⟩ := hf.createSubReport hb (r := 0) (by decide)
  exact (hf.createSubReport hb (r := 0) (by decide)).1

theorem three_progress (r : ReportId) : (three.data r).progress = 0 := by
  have built : runs Reports.build .empty
    [.new, .createSubReport 0, .createSubReport 0, .createSubReport 0] = some three := rfl
  obtain ⟨parent, subReports, hr⟩ := Reports.data_of_build built r
  rw [hr]

/-- Two writers, of whom the first one to read is too late with its exchange, and reads again. -/
def interleaved : List Event :=
  [.set 2 100, .store 2, .set 1 1, .store 1] ++ scan 1 ++ scan 2 ++
    [.exchange 2 false, .exchange 1 false] ++ scan 1 ++ [.exchange 1 false]

theorem exchanges_interleaved {n : Nat} {s : ReportId}
    (h : interleaved[n]? = some (.exchange s false)) : s = 2 ∧ n = 12 ∨ s = 1 ∧ (n = 13 ∨ n = 18) := by
  have hn : n < 19 := (List.getElem?_eq_some_iff.mp h).1
  interval_cases n <;> cases h <;> decide

theorem converges_three : ∃ g, runs (step 0) (start three) interleaved = some g ∧
    ∀ p, g.reports.progressFromSubReports 0 = some p → (g.reports.data 0).progress = p := by
  refine ⟨_, rfl, converges three 0 interleaved _ three_forest three_progress rfl
    (fun es₁ s es₂ t he ht => ?_) ?_⟩
  · have hget : interleaved[es₁.length]? = some (.exchange s false) := by simp [he]
    have htake : es₁ = interleaved.take es₁.length := by simp [he]
    rw [htake] at ht
    rintro ⟨stamp, old, tp, tw, hcall, hold, hstamp⟩
    obtain ⟨rfl, hn⟩ | ⟨rfl, hn | hn⟩ := exchanges_interleaved hget <;> rw [hn] at ht <;> cases ht <;> cases hcall
    · exact hstamp rfl
    · exact absurd hold (by decide)
    · exact hstamp rfl
  · rintro (_ | _ | _ | s) <;> rfl

/-- A mean that is out of date is written when the progress of the parent comes back from 34 to 0. -/
theorem comes_back : ¬ ∀ (tree : Reports) (parent : ReportId) (es : List Event) (g : Progressing),
    tree.Forest → (∀ r, (tree.data r).progress = 0) →
      (∀ s ∈ (tree.data parent).subReports, weight tree s ≠ 0) →
        runs (step parent) (start tree) es = some g → (∀ s, g.call s = .idle) →
          ∀ p, g.reports.progressFromSubReports parent = some p →
            (g.reports.data parent).progress = p := by
  intro h
  have back := h three 0 ([.set 2 100, .store 2, .set 1 1, .store 1] ++ scan 1 ++
    scan 2 ++ [.exchange 2 false, .set 2 0, .store 2] ++ scan 2 ++
    [.exchange 2 false, .exchange 1 false]) _ three_forest three_progress (by decide) rfl ?_ 0
    (by decide)
  · exact absurd back (by decide)
  · rintro (_ | _ | _ | s) <;> rfl

end Progressing

end EzCpp.Reporting
