import EzCpp.Lib.Runs

/-!
# Interleavings

Machines of one kind that know nothing of each other, and are made as the run goes. A run of all of
them is, for each, a run of its own (`runs_part`), and all are at rest where each is.
-/

namespace EzCpp.Lib.Interleaving

inductive Move (ε : Type)
  | create
  /-- the `i`-th machine goes on -/
  | move (i : Nat) (e : ε)
deriving DecidableEq, Repr

variable {σ ε : Type}

def Move.of? (i : Nat) : Move ε → Option ε
  | .create => none
  | .move j e => if j = i then some e else none

/-- What happens to the `i`-th machine. -/
def part (i : Nat) (ms : List (Move ε)) : List ε := ms.filterMap (Move.of? i)

def step (init : σ) (machine : σ → ε → Option σ) (s : List σ) : Move ε → Option (List σ)
  | .create => some (s ++ [init])
  | .move i e => s[i]?.bind fun c => (machine c e).map fun d => s.set i d

variable {init : σ} {machine : σ → ε → Option σ} {s t : List σ} {ms : List (Move ε)} {i j : Nat}
  {c d : σ} {e : ε}

theorem step_move : step init machine s (.move i e) = some t ↔
    ∃ c d, s[i]? = some c ∧ machine c e = some d ∧ t = s.set i d := by
  simp only [step, Option.bind_eq_some_iff, Option.map_eq_some_iff]
  constructor
  · rintro ⟨c, hc, d, hd, rfl⟩
    exact ⟨c, d, hc, hd, rfl⟩
  · rintro ⟨c, d, hc, hd, rfl⟩
    exact ⟨c, hc, d, hd, rfl⟩

theorem part_concat (m : Move ε) : part i (ms ++ [m]) = part i ms ++ (m.of? i).toList := by
  rw [part, List.filterMap_append]
  cases h : m.of? i <;> simp [part, h]

theorem mem_part : e ∈ part i ms ↔ .move i e ∈ ms := by
  simp only [part, List.mem_filterMap]
  constructor
  · rintro ⟨m, hm, he⟩
    cases m with
    | create => cases he
    | move j f =>
      obtain ⟨rfl, hf⟩ := Option.ite_none_right_eq_some.mp he
      cases hf
      exact hm
  · exact fun h => ⟨.move i e, h, if_pos rfl⟩

/-- **Each machine has a run of its own.** -/
theorem runs_part (h : runs (step init machine) [] ms = some s) :
    (∀ i c, s[i]? = some c → runs machine init (part i ms) = some c) ∧
      ∀ i, s[i]? = none → part i ms = [] := by
  refine runs_induction (P := fun ms s =>
    (∀ i c, s[i]? = some c → runs machine init (part i ms) = some c) ∧
      ∀ i, s[i]? = none → part i ms = []) ⟨fun i c hc => ?_, fun _ _ => rfl⟩ (fun ms s m t ih hm => ?_) h
  · rw [List.getElem?_nil] at hc
    cases hc
  obtain ⟨ih, hnone⟩ := ih
  cases m with
  | create =>
    obtain rfl : s ++ [init] = t := Option.some.inj hm
    refine ⟨fun i c hc => ?_, fun i hi => ?_⟩
    · rw [part_concat, Move.of?, Option.toList_none, List.append_nil]
      rcases Nat.lt_trichotomy i s.length with hlt | rfl | hgt
      · rw [List.getElem?_append_left hlt] at hc
        exact ih i c hc
      · rw [List.getElem?_concat_length] at hc
        cases hc
        rw [hnone _ (List.getElem?_eq_none (Nat.le_refl _))]
        rfl
      · have hlen : (s ++ [init]).length ≤ i := by
          rw [List.length_append]
          exact hgt
        rw [List.getElem?_eq_none hlen] at hc
        cases hc
    · rw [part_concat, Move.of?, Option.toList_none, List.append_nil]
      refine hnone i (List.getElem?_eq_none ?_)
      have := List.getElem?_eq_none_iff.mp hi
      rw [List.length_append] at this
      omega
  | move j e =>
    obtain ⟨c, d, hc, hd, rfl⟩ := step_move.mp hm
    refine ⟨fun i b hb => ?_, fun i hi => ?_⟩
    · rw [part_concat, Move.of?]
      rcases eq_or_ne j i with rfl | hne
      · have hlt := (List.getElem?_eq_some_iff.mp hc).1
        rw [List.getElem?_set_self hlt] at hb
        cases hb
        rw [if_pos rfl, Option.toList_some, runs_concat]
        exact ⟨c, ih j c hc, hd⟩
      · rw [List.getElem?_set_ne hne] at hb
        rw [if_neg hne, Option.toList_none, List.append_nil]
        exact ih i b hb
    · rw [part_concat, Move.of?]
      rcases eq_or_ne j i with rfl | hne
      · have hlt := (List.getElem?_eq_some_iff.mp hc).1
        rw [List.getElem?_set_self hlt] at hi
        cases hi
      · rw [List.getElem?_set_ne hne] at hi
        rw [if_neg hne, Option.toList_none, List.append_nil]
        exact hnone i hi

theorem machine_none (h : ∀ e, step init machine s (.move i e) = none) (hc : s[i]? = some c) (e : ε) :
    machine c e = none := by
  have he := h e
  simp only [step, hc, Option.bind_some, Option.map_eq_none_iff] at he
  exact he

end EzCpp.Lib.Interleaving
