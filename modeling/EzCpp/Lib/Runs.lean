import Mathlib.Data.List.Induction

/-!
# Runs of a machine

A machine is a partial step function: `step s e = none` says that the event `e` cannot happen in
`s`. A run is a list of events, each taken where the ones before it lead. What holds along every
run is proved by `runs_induction`, whose step may look at the events so far, and what holds as long as
every event is taken where it may be by `throughout_of_along`.
-/

namespace EzCpp.Lib

variable {σ ε : Type} {step : σ → ε → Option σ} {s t u : σ} {es ds : List ε} {e : ε}

/-- The state a run leads to, if every event of it can happen. -/
def runs (step : σ → ε → Option σ) (s : σ) : List ε → Option σ
  | [] => some s
  | e :: es => (step s e).bind fun t => runs step t es

@[simp] theorem runs_nil : runs step s [] = some s := rfl

theorem runs_cons : runs step s (e :: es) = some u ↔
    ∃ t, step s e = some t ∧ runs step t es = some u := by
  simp only [runs, Option.bind_eq_some_iff]

theorem runs_append : runs step s (es ++ ds) = some u ↔
    ∃ t, runs step s es = some t ∧ runs step t ds = some u := by
  induction es generalizing s with
  | nil => simp
  | cons e es ih =>
    rw [List.cons_append, runs_cons]
    constructor
    · rintro ⟨t, ht, h⟩
      obtain ⟨r, hr, h⟩ := ih.mp h
      exact ⟨r, runs_cons.mpr ⟨t, ht, hr⟩, h⟩
    · rintro ⟨r, hr, h⟩
      obtain ⟨t, ht, hr⟩ := runs_cons.mp hr
      exact ⟨t, ht, ih.mpr ⟨r, hr, h⟩⟩

theorem runs_concat : runs step s (es ++ [e]) = some u ↔
    ∃ t, runs step s es = some t ∧ step t e = some u := by
  simp only [runs_append, runs_cons, runs_nil, Option.some.injEq, exists_eq_right]

/-- The invariant rule, whose step knows of the run that leads to it. -/
theorem runs_induction_reachable {P : List ε → σ → Prop} (start : P [] s)
    (next : ∀ es t e u, runs step s es = some t → P es t → step t e = some u → P (es ++ [e]) u)
    (h : runs step s es = some t) : P es t := by
  induction es using List.reverseRecOn generalizing t with
  | nil => cases h; exact start
  | append_singleton es e ih =>
    obtain ⟨r, hr, he⟩ := runs_concat.mp h
    exact next es r e t hr (ih hr) he

/-- **The invariant rule.** What holds at the start, and after every event that can happen where it
held, holds at the end of every run. -/
theorem runs_induction {P : List ε → σ → Prop} (start : P [] s)
    (next : ∀ es t e u, P es t → step t e = some u → P (es ++ [e]) u)
    (h : runs step s es = some t) : P es t :=
  runs_induction_reachable start (fun es t e u _ => next es t e u) h

/-- The invariant rule for facts about the state alone. -/
theorem runs_invariant {P : σ → Prop} (next : ∀ t e u, P t → step t e = some u → P u)
    (h : runs step s es = some t) (start : P s) : P t :=
  runs_induction (P := fun _ => P) start (fun _ => next) h

/-! ## All along a run -/

/-- An event of a run with one more is the last one, or one of those before. -/
theorem concat_eq_append_cons {α : Type} {l before after : List α} {a b : α} :
    l ++ [a] = before ++ b :: after ↔ before = l ∧ b = a ∧ after = [] ∨
      ∃ init, after = init ++ [a] ∧ l = before ++ b :: init := by
  constructor
  · intro h
    rcases List.eq_nil_or_concat after with rfl | ⟨init, last, rfl⟩
    · obtain ⟨rfl, hlast⟩ := List.append_inj' h rfl
      exact .inl ⟨rfl, (List.singleton_inj.mp hlast).symm, rfl⟩
    · have h : l ++ [a] = (before ++ b :: init) ++ [last] := by simpa using h
      obtain ⟨rfl, hlast⟩ := List.append_inj' h rfl
      obtain rfl := List.singleton_inj.mp hlast
      exact .inr ⟨init, List.concat_eq_append, rfl⟩
  · rintro (⟨rfl, rfl, rfl⟩ | ⟨init, rfl, rfl⟩)
    · rfl
    · simp

/-- Every event of the run is taken in a state where it may be. -/
def Along (step : σ → ε → Option σ) (P : σ → ε → Prop) (s : σ) (es : List ε) : Prop :=
  ∀ before e after t, es = before ++ e :: after → runs step s before = some t → P t e

/-- Every state of the run, from the first one to the last one, has the property. -/
def Throughout (step : σ → ε → Option σ) (P : σ → Prop) (s : σ) (es : List ε) : Prop :=
  ∀ before after t, es = before ++ after → runs step s before = some t → P t

section Along

variable {P : σ → ε → Prop} {I : σ → Prop}

theorem Along.init (h : Along step P s (es ++ ds)) : Along step P s es :=
  fun before e after t heq => h before e (after ++ ds) t (by rw [heq, List.append_assoc]; rfl)

theorem Along.last (h : Along step P s (es ++ [e])) (ht : runs step s es = some t) : P t e :=
  h es e [] t rfl ht

theorem along_concat (ht : runs step s es = some t) :
    Along step P s (es ++ [e]) ↔ Along step P s es ∧ P t e := by
  refine ⟨fun h => ⟨h.init, h.last ht⟩, fun h before d after u heq hu => ?_⟩
  rcases concat_eq_append_cons.mp heq with ⟨rfl, rfl, -⟩ | ⟨init, -, heq⟩
  · cases ht.symm.trans hu
    exact h.2
  · exact h.1 before d init u heq hu

theorem Along.nil : Along step P s [] := fun before e after _ heq =>
  absurd heq.symm (List.append_ne_nil_of_right_ne_nil before (List.cons_ne_nil e after))

theorem Along.cons (he : P s e) (hes : ∀ t, step s e = some t → Along step P t es) :
    Along step P s (e :: es) := by
  intro before d after t heq ht
  cases before with
  | nil =>
    cases heq
    cases ht
    exact he
  | cons b before =>
    obtain ⟨rfl, rfl⟩ := List.cons_eq_cons.mp heq
    obtain ⟨u, hu, ht⟩ := runs_cons.mp ht
    exact hes u hu before d after t rfl ht

/-- **The invariant rule, for events that are taken where they may be.** -/
theorem throughout_of_along (start : I s)
    (next : ∀ t e u, I t → P t e → step t e = some u → I u) (h : Along step P s es) :
    Throughout step I s es := by
  intro before after t heq ht
  have hinv : Along step P s before → I t :=
    runs_induction_reachable (P := fun es t => Along step P s es → I t) (fun _ => start)
      (fun ds r e u hr hds he halong => next r e u (hds halong.init) (halong.last hr) he) ht
  exact hinv (heq ▸ h).init

end Along

end EzCpp.Lib
