import EzCpp.Lib.Interleaving

/-!
# Requests

A delegate is a coroutine that goes to the thread pool, does its work there and comes back to the io
context with the reply. The interpreter awaits it together with a delay (`when_any`), and goes on
with what comes first; there and then the coroutines of both are destroyed, and the timer with them. So
they are when a wait around here is over and the interpreter is destroyed where it waits.

A timer that is destroyed calls its handler with an error, unless the handler is queued already. A
delegate that is destroyed is not called off: it is posted somewhere, or at work. So a request does no
harm if and only if the reply comes before the timer expires and before anything around it is over
(`harmless_iff`).

Any number of requests are under way, the handlers are executed in any order, and the threads of the
pool at any time.
-/

namespace EzCpp.Flow.Requests

open EzCpp.Lib

/-- Where the coroutine of a delegate is. -/
inductive Delegate (ρ : Type)
  /-- `schedule_on(thread_pool)` -/
  | posted
  | working
  /-- `schedule_on(io_context)` -/
  | returning (reply : ρ)
  | done
deriving DecidableEq, Repr

inductive Timer
  | waiting
  /-- the handler is queued, without an error -/
  | expired
  /-- the handler is queued, with one -/
  | aborted
  | handled
deriving DecidableEq, Repr

/-- What the interpreter goes on with. -/
inductive Result (ρ : Type)
  | reply (r : ρ)
  | timeout
deriving DecidableEq, Repr

/-- One `eval_await`, from the `co_await` on. -/
structure Request (ρ : Type) where
  delegate : Delegate ρ := .posted
  timer : Timer := .waiting
  /-- the interpreter waits: the coroutines of the delegate, of the delay and of `when_any` are there -/
  waits : Bool := true
  results : List (Result ρ) := []
  /-- a coroutine that is not there any more was resumed, or was at work when it was destroyed -/
  fault : Bool := false
deriving DecidableEq, Repr

inductive Event (ρ : Type)
  /-- a thread of the pool resumes the delegate -/
  | work
  /-- its work is done -/
  | reply (r : ρ)
  /-- the io context resumes the delegate -/
  | resume
  | expire
  /-- the io context calls the handler of the timer -/
  | handle
  /-- a wait around here is over -/
  | abandon
deriving DecidableEq, Repr

variable {ρ : Type}

namespace Request

/-- The destructors: of the awaiter of `when_any`, which has the delay, and of the task. -/
def destroy (q : Request ρ) : Request ρ :=
  { q with waits := false, timer := if q.timer = .waiting then .aborted else q.timer }

/-- The interpreter goes on. -/
def goOn (q : Request ρ) (r : Result ρ) : Request ρ := { q.destroy with results := q.results ++ [r] }

/-- What becomes of a coroutine, if it is there. -/
def whileThere (q : Request ρ) (next : Request ρ) : Request ρ :=
  if q.waits then next else { q with fault := true }

/-- After a fault nothing is said. -/
def step (q : Request ρ) (e : Event ρ) : Option (Request ρ) :=
  if q.fault then none
  else match e with
  | .work =>
    match q.delegate with
    | .posted => some (q.whileThere { q with delegate := .working })
    | _ => none
  | .reply r =>
    match q.delegate with
    | .working => some (q.whileThere { q with delegate := .returning r })
    | _ => none
  | .resume =>
    match q.delegate with
    | .returning r => some (q.whileThere ({ q with delegate := .done }.goOn (.reply r)))
    | _ => none
  | .expire => if q.timer = .waiting then some { q with timer := .expired } else none
  | .handle =>
    match q.timer with
    | .expired => some (q.whileThere ({ q with timer := .handled }.goOn .timeout))
    | .aborted => some { q with timer := .handled }
    | _ => none
  | .abandon => if q.waits then some q.destroy else none

end Request

/-- The requests of a process, in the order in which they were made. -/
abbrev step : List (Request ρ) → Interleaving.Move (Event ρ) → Option (List (Request ρ)) :=
  Interleaving.step {} Request.step

/-! ## One request -/

section One

variable {q q' : Request ρ} {e : Event ρ} {es : List (Event ρ)}

/-- What an event does to a request without a fault. -/
inductive Moves (q : Request ρ) : Event ρ → Request ρ → Prop
  /-- the coroutine that goes on is not there -/
  | fault (e : Event ρ) (hw : q.waits = false) (h : q.delegate ≠ .done ∨ q.timer = .expired) :
      Moves q e { q with fault := true }
  | work (hd : q.delegate = .posted) (hw : q.waits = true) :
      Moves q .work { q with delegate := .working }
  | reply (r : ρ) (hd : q.delegate = .working) (hw : q.waits = true) :
      Moves q (.reply r) { q with delegate := .returning r }
  | resume (r : ρ) (hd : q.delegate = .returning r) (hw : q.waits = true) :
      Moves q .resume ({ q with delegate := .done }.goOn (.reply r))
  | expire (ht : q.timer = .waiting) : Moves q .expire { q with timer := .expired }
  | handle (ht : q.timer = .expired) (hw : q.waits = true) :
      Moves q .handle ({ q with timer := .handled }.goOn .timeout)
  | aborted (ht : q.timer = .aborted) : Moves q .handle { q with timer := .handled }
  | abandon (hw : q.waits = true) : Moves q .abandon q.destroy

theorem moves_of_step (h : q.step e = some q') : q.fault = false ∧ Moves q e q' := by
  unfold Request.step at h
  split at h
  · cases h
  next hf =>
    refine ⟨Bool.eq_false_iff.mpr hf, ?_⟩
    have hthere : ∀ {next : Request ρ}, some (q.whileThere next) = some q' →
        q.waits = true ∧ q' = next ∨ q.waits = false ∧ q' = { q with fault := true } := by
      intro next h
      rw [← Option.some.inj h, Request.whileThere]
      cases hw : q.waits <;> simp
    cases e with
    | work =>
      dsimp only at h
      split at h
      next hd =>
        rcases hthere h with ⟨hw, rfl⟩ | ⟨hw, rfl⟩
        · exact .work hd hw
        · exact .fault _ hw (.inl (by rw [hd]; nofun))
      · cases h
    | reply r =>
      dsimp only at h
      split at h
      next hd =>
        rcases hthere h with ⟨hw, rfl⟩ | ⟨hw, rfl⟩
        · exact .reply r hd hw
        · exact .fault _ hw (.inl (by rw [hd]; nofun))
      · cases h
    | resume =>
      dsimp only at h
      split at h
      next r hd =>
        rcases hthere h with ⟨hw, rfl⟩ | ⟨hw, rfl⟩
        · exact .resume r hd hw
        · exact .fault _ hw (.inl (by rw [hd]; nofun))
      · cases h
    | expire =>
      obtain ⟨ht, h⟩ := Option.ite_none_right_eq_some.mp h
      cases h
      exact .expire ht
    | handle =>
      dsimp only at h
      split at h
      next ht =>
        rcases hthere h with ⟨hw, rfl⟩ | ⟨hw, rfl⟩
        · exact .handle ht hw
        · exact .fault _ hw (.inr ht)
      next ht =>
        cases h
        exact .aborted ht
      · cases h
    | abandon =>
      obtain ⟨hw, h⟩ := Option.ite_none_right_eq_some.mp h
      cases h
      exact .abandon hw

/-- The timer has expired, or something around the request was over. -/
def GivenUp (es : List (Event ρ)) : Prop := .expire ∈ es ∨ .abandon ∈ es

theorem GivenUp.concat (h : GivenUp es) (e : Event ρ) : GivenUp (es ++ [e]) :=
  h.imp (List.mem_append_left _) (List.mem_append_left _)

theorem givenUp_abandon : GivenUp (es ++ [.abandon]) :=
  .inr (List.mem_append_right _ (List.mem_singleton_self _))

/-- A request without a fault, after the events `es`. -/
inductive Stands (es : List (Event ρ)) (q : Request ρ) : Prop
  /-- the interpreter waits -/
  | waits (hw : q.waits = true) (hd : q.delegate ≠ .done) (hr : q.results = []) (ha : .abandon ∉ es)
      (ht : q.timer = .waiting ∧ .expire ∉ es ∨ q.timer = .expired ∧ .expire ∈ es)
  /-- the reply came first, and an expired timer is still to call its handler -/
  | replied (r : ρ) (hw : q.waits = false) (hd : q.delegate = .done) (hr : q.results = [.reply r])
      (hm : .reply r ∈ es) (ha : .abandon ∉ es)
      (ht : (q.timer = .aborted ∨ q.timer = .handled) ∧ .expire ∉ es ∨ q.timer = .expired ∧ .expire ∈ es)
  /-- the delegate is still to be resumed, or at work -/
  | left (hw : q.waits = false) (hd : q.delegate ≠ .done) (hr : q.results.length ≤ 1) (h : GivenUp es)

/-- The state of a request, after the events `es`. -/
structure Tracks (es : List (Event ρ)) (q : Request ρ) : Prop where
  reply : ∀ r, q.delegate = .returning r → .reply r ∈ es
  stands : q.fault = false → Stands es q
  fault : q.fault = true → GivenUp es
  once : q.results.length ≤ 1

theorem tracks_new : Tracks [] ({} : Request ρ) where
  reply _ := nofun
  stands _ := .waits rfl nofun rfl List.not_mem_nil (.inl ⟨rfl, List.not_mem_nil⟩)
  fault := nofun
  once := Nat.zero_le 1

theorem Stands.concat_waits (h : Stands es q) (hw : q.waits = true) (hd : q'.delegate ≠ .done)
    (hw' : q'.waits = true) (hr : q'.results = q.results) (ht : q'.timer = q.timer)
    (he : e ≠ .abandon) (he' : e ≠ .expire) : Stands (es ++ [e]) q' := by
  have hmem : ∀ d, d ∈ es ++ [e] ↔ d ∈ es ∨ d = e := fun d => by simp
  rcases h with ⟨-, -, hresults, ha, htimer⟩ | ⟨r, hw', -⟩ | ⟨hw', -⟩
  · refine .waits hw' hd (hr.trans hresults) ?_ ?_
    · simpa [hmem, he.symm] using ha
    · rw [ht]
      simpa [hmem, he'.symm] using htimer
  · rw [hw] at hw'
    cases hw'
  · rw [hw] at hw'
    cases hw'

theorem Tracks.step (h : Tracks es q) (he : q.step e = some q') : Tracks (es ++ [e]) q' := by
  obtain ⟨hf, hm⟩ := moves_of_step he
  have hs := h.stands hf
  have hreply : ∀ r, q.delegate = .returning r → .reply r ∈ es ++ [e] :=
    fun r hr => List.mem_append_left _ (h.reply r hr)
  have hnofault : ∀ {b : Bool}, b = q.fault → b = true → GivenUp (es ++ [e]) := by
    intro b hb hb'
    rw [hb, hf] at hb'
    cases hb'
  cases hm with
  | fault e hw hc =>
    refine ⟨hreply, nofun, fun _ => ?_, h.once⟩
    rcases hs with ⟨hw', -⟩ | ⟨r, -, hd, -, -, -, ht⟩ | ⟨-, -, -, hg⟩
    · rw [hw] at hw'
      cases hw'
    · rcases ht with ⟨ht, -⟩ | ⟨-, he⟩
      · rcases hc with hc | hc
        · exact absurd hd hc
        · rw [hc] at ht
          rcases ht with ht | ht <;> cases ht
      · exact .inl (List.mem_append_left _ he)
    · exact hg.concat _
  | work hd hw =>
    exact ⟨nofun, fun _ => hs.concat_waits hw nofun hw rfl rfl nofun nofun, hnofault rfl, h.once⟩
  | reply r hd hw =>
    refine ⟨fun r' hr' => ?_, fun _ => hs.concat_waits hw nofun hw rfl rfl nofun nofun, hnofault rfl, h.once⟩
    cases hr'
    exact List.mem_append_right _ (List.mem_singleton_self _)
  | resume r hd hw =>
    rcases hs with ⟨-, -, hr, ha, ht⟩ | ⟨r', hw', -⟩ | ⟨hw', -⟩
    · have hresults : ({ q with delegate := .done }.goOn (.reply r)).results = [.reply r] := by
        show q.results ++ _ = _
        rw [hr]
        rfl
      refine ⟨nofun, fun _ => ?_, hnofault rfl, by rw [hresults]; exact Nat.le_refl 1⟩
      refine .replied r rfl rfl hresults (List.mem_append_left _ (h.reply r hd)) ?_ ?_
      · simpa using ha
      · rcases ht with ⟨ht, he⟩ | ⟨ht, he⟩
        · refine .inl ⟨.inl ?_, by simpa using he⟩
          simp [Request.goOn, Request.destroy, ht]
        · refine .inr ⟨?_, by simpa using he⟩
          simp [Request.goOn, Request.destroy, ht]
    · rw [hw] at hw'
      cases hw'
    · rw [hw] at hw'
      cases hw'
  | expire ht =>
    refine ⟨hreply, fun _ => ?_, hnofault rfl, h.once⟩
    rcases hs with ⟨hw, hd, hr, ha, -⟩ | ⟨r, -, -, -, -, -, ht' | ⟨ht', -⟩⟩ | ⟨hw, hd, hr, hg⟩
    · exact .waits hw hd hr (by simpa using ha) (.inr ⟨rfl, by simp⟩)
    · rcases ht'.1 with ht' | ht' <;> cases ht.symm.trans ht'
    · cases ht.symm.trans ht'
    · exact .left hw hd hr (hg.concat _)
  | handle ht hw =>
    rcases hs with ⟨-, hd, hr, -, ht' | ⟨-, he⟩⟩ | ⟨r, hw', -⟩ | ⟨hw', -⟩
    · cases ht.symm.trans ht'.1
    · have hresults : ({ q with timer := .handled }.goOn .timeout).results = [.timeout] := by
        show q.results ++ _ = _
        rw [hr]
        rfl
      have hlen : ({ q with timer := .handled }.goOn .timeout).results.length ≤ 1 := by
        rw [hresults]
        exact Nat.le_refl 1
      exact ⟨hreply, fun _ => .left rfl hd hlen (.inl (List.mem_append_left _ he)), hnofault rfl, hlen⟩
    · cases hw.symm.trans hw'
    · cases hw.symm.trans hw'
  | aborted ht =>
    refine ⟨hreply, fun _ => ?_, hnofault rfl, h.once⟩
    rcases hs with ⟨-, -, -, -, ht' | ht'⟩ | ⟨r, hw, hd, hr, hm, ha, ⟨-, he⟩ | ⟨ht', -⟩⟩ | ⟨hw, hd, hr, hg⟩
    · cases ht.symm.trans ht'.1
    · cases ht.symm.trans ht'.1
    · exact .replied r hw hd hr (List.mem_append_left _ hm) (by simpa using ha)
        (.inl ⟨.inr rfl, by simpa using he⟩)
    · cases ht.symm.trans ht'
    · exact .left hw hd hr (hg.concat _)
  | abandon hw =>
    rcases hs with ⟨-, hd, -, -, -⟩ | ⟨r, hw', -⟩ | ⟨hw', -⟩
    · exact ⟨hreply, fun _ => .left rfl hd h.once givenUp_abandon, hnofault rfl, h.once⟩
    · cases hw.symm.trans hw'
    · cases hw.symm.trans hw'

theorem tracks_of_runs (h : runs Request.step {} es = some q) : Tracks es q :=
  runs_induction tracks_new (fun _ _ _ _ ht he => ht.step he) h

/-- Where nothing is left to do, a request without a fault has had its reply. -/
theorem Stands.at_rest [Inhabited ρ] (h : Stands es q) (hf : q.fault = false)
    (hrest : ∀ e, q.step e = none) : ¬ GivenUp es ∧ ∃ r, .reply r ∈ es ∧ q.results = [.reply r] := by
  have hdelegate : q.delegate = .done := by
    cases hd : q.delegate with
    | posted => simpa [Request.step, hf, hd] using hrest .work
    | working => simpa [Request.step, hf, hd] using hrest (.reply default)
    | returning r => simpa [Request.step, hf, hd] using hrest .resume
    | done => rfl
  have htimer : q.timer ≠ .expired := fun ht => by simpa [Request.step, hf, ht] using hrest .handle
  rcases h with ⟨-, hd, -⟩ | ⟨r, -, -, hr, hm, ha, ⟨-, he⟩ | ⟨ht, -⟩⟩ | ⟨-, hd, -⟩
  · exact absurd hdelegate hd
  · exact ⟨fun hg => hg.elim he ha, r, hm, hr⟩
  · exact absurd ht htimer
  · exact absurd hdelegate hd

/-! How much a request has before it. -/

def Delegate.left : Delegate ρ → Nat
  | .posted => 3
  | .working => 2
  | .returning _ => 1
  | .done => 0

def Timer.left : Timer → Nat
  | .waiting => 2
  | .expired | .aborted => 1
  | .handled => 0

/-- Work, reply, resume, expire, handle and abandon, each at most once, and a fault. -/
def Request.left (q : Request ρ) : Nat :=
  q.delegate.left + q.timer.left + q.waits.toNat + (!q.fault).toNat

theorem left_destroy (q : Request ρ) : q.destroy.timer.left ≤ q.timer.left := by
  unfold Request.destroy
  cases ht : q.timer <;> simp [Timer.left]

theorem left_step (h : q.step e = some q') : q'.left < q.left := by
  obtain ⟨hf, hm⟩ := moves_of_step h
  cases hm with
  | fault e hw hc => simp [Request.left, hf]
  | work hd hw => simp [Request.left, Delegate.left, hd]
  | reply r hd hw => simp [Request.left, Delegate.left, hd]
  | resume r hd hw =>
    have hdestroy := left_destroy { q with delegate := .done }
    simp only [Request.left, Request.goOn, Request.destroy, Delegate.left, hd, hw] at hdestroy ⊢
    simp only [Bool.toNat_true, Bool.toNat_false]
    omega
  | expire ht => simp [Request.left, Timer.left, ht]
  | handle ht hw =>
    simp only [Request.left, Request.goOn, Request.destroy, ht, hw, reduceCtorEq, if_false, Timer.left,
      Bool.toNat_true, Bool.toNat_false]
    omega
  | aborted ht => simp [Request.left, Timer.left, ht]
  | abandon hw =>
    have hdestroy := left_destroy q
    simp only [Request.left, Request.destroy, hw] at hdestroy ⊢
    simp only [Bool.toNat_true, Bool.toNat_false]
    omega

theorem length_le (h : runs Request.step {} es = some q) : es.length ≤ 7 := by
  have hleft : es.length + q.left ≤ 7 := by
    refine runs_induction (P := fun es q => es.length + q.left ≤ 7) (Nat.le_refl 7)
      (fun es r e u hr he => ?_) h
    have hlt := left_step he
    rw [List.length_append, List.length_singleton]
    omega
  omega

end One

/-! ## All of them -/

variable {ms : List (Interleaving.Move (Event ρ))} {s : List (Request ρ)}

/-- **A request does harm exactly when it is given up**: once nothing is left to do, a coroutine that is
not there has been resumed, or destroyed at work, for every request whose timer expired before the reply
was there or around which a wait was over, and for no other one. The others went on with their reply,
once; none takes more than seven steps, and no interpreter goes on twice. -/
theorem harmless_iff [Inhabited ρ] (h : runs step [] ms = some s) (i : Nat) (q : Request ρ)
    (hq : s[i]? = some q) :
    ((∀ e, step s (.move i e) = none) →
      (q.fault = false ↔ .move i .expire ∉ ms ∧ .move i .abandon ∉ ms) ∧
      (q.fault = false → ∃ r, .move i (.reply r) ∈ ms ∧ q.results = [.reply r])) ∧
    (q.fault = true → .move i .expire ∈ ms ∨ .move i .abandon ∈ ms) ∧
    q.results.length ≤ 1 ∧ (Interleaving.part i ms).length ≤ 7 := by
  have hrun := (Interleaving.runs_part h).1 i q hq
  have htracks := tracks_of_runs hrun
  have hgiven : GivenUp (Interleaving.part i ms) ↔ .move i .expire ∈ ms ∨ .move i .abandon ∈ ms :=
    or_congr Interleaving.mem_part Interleaving.mem_part
  refine ⟨fun hrest => ?_, fun hf => hgiven.mp (htracks.fault hf), htracks.once, length_le hrun⟩
  have hlast : q.fault = false → ¬ GivenUp (Interleaving.part i ms) ∧
      ∃ r, .reply r ∈ Interleaving.part i ms ∧ q.results = [.reply r] := fun hf =>
    (htracks.stands hf).at_rest hf (Interleaving.machine_none hrest hq)
  refine ⟨?_, fun hf => ?_⟩
  · rw [← not_or, ← hgiven]
    refine ⟨fun hf => (hlast hf).1, fun hg => ?_⟩
    exact Bool.eq_false_iff.mpr fun hf => hg (htracks.fault hf)
  · obtain ⟨-, r, hr, hresults⟩ := hlast hf
    exact ⟨r, Interleaving.mem_part.mp hr, hresults⟩

/-- Two requests: the first one has its reply in time, the timer of the second one does not wait. -/
def twoRequests : List (Interleaving.Move (Event Nat)) :=
  [.create, .create, .move 0 .work, .move 1 .work, .move 1 .expire, .move 0 (.reply 7), .move 1 .handle,
    .move 0 .resume, .move 0 .handle, .move 1 (.reply 8)]

theorem harmless_first : ∃ s q, runs step [] twoRequests = some s ∧ s[0]? = some q ∧ q.fault = false := by
  have h : runs step [] twoRequests = some _ := rfl
  refine ⟨_, _, h, rfl, ?_⟩
  exact ((harmless_iff h 0 _ rfl).1 fun e => by cases e <;> rfl).1.mpr ⟨by decide, by decide⟩

end EzCpp.Flow.Requests
