import Mathlib.Data.List.Basic

/-!
# Lists in blocks

A list that only grows can be kept in blocks of one size, of which each is filled before the next one is
begun (`Filled`). The element at `i` is then the one at `i % b` in block `i / b` (`Filled.itemAt`), and
growing moves nothing: what is at a position stays there (`itemAt_push`, `itemAt_concat`).
-/

namespace EzCpp.Lib

variable {α : Type} {b i j k : Nat} {x y : α} {block : List α} {init blocks : List (List α)}

/-- The element at a position: the number of the block, and the place in it. -/
def itemAt (blocks : List (List α)) (k j : Nat) : Option α := blocks[k]?.bind (·[j]?)

/-- All blocks but the last one are full, and the last one is not empty. -/
structure Filled (b : Nat) (blocks : List (List α)) : Prop where
  full : ∀ block ∈ blocks.dropLast, block.length = b
  last : ∀ block ∈ blocks.getLast?, block ≠ [] ∧ block.length ≤ b

theorem Filled.nil : Filled b ([] : List (List α)) where
  full block h := by cases h
  last block h := by cases h

theorem filled_concat : Filled b (init ++ [block]) ↔
    (∀ block ∈ init, block.length = b) ∧ block ≠ [] ∧ block.length ≤ b := by
  constructor
  · rintro ⟨hfull, hlast⟩
    rw [List.dropLast_concat] at hfull
    exact ⟨hfull, hlast block List.getLast?_concat⟩
  · rintro ⟨hfull, hlast⟩
    refine ⟨List.dropLast_concat ▸ hfull, fun other hother => ?_⟩
    rw [List.getLast?_concat] at hother
    cases hother
    exact hlast

/-- No blocks, or some full ones and the last one. -/
theorem Filled.cases (h : Filled b blocks) : blocks = [] ∨ ∃ init block, blocks = init ++ [block] ∧
    (∀ block ∈ init, block.length = b) ∧ block ≠ [] ∧ block.length ≤ b := by
  rcases List.eq_nil_or_concat blocks with rfl | ⟨init, block, rfl⟩
  · exact .inl rfl
  · rw [List.concat_eq_append] at h ⊢
    exact .inr ⟨init, block, rfl, filled_concat.mp h⟩

/-! ## Positions -/

theorem length_flatten_of_full (h : ∀ block ∈ init, block.length = b) :
    init.flatten.length = b * init.length := by
  induction init with
  | nil => rfl
  | cons block init ih =>
    obtain ⟨hblock, hinit⟩ := List.forall_mem_cons.mp h
    rw [List.flatten_cons, List.length_append, ih hinit, hblock, List.length_cons, Nat.mul_succ,
      Nat.add_comm]

theorem Filled.length_le (h : Filled b blocks) : blocks.flatten.length ≤ b * blocks.length := by
  rcases h.cases with rfl | ⟨init, block, rfl, hfull, -, hle⟩
  · exact Nat.zero_le _
  · have hinit := length_flatten_of_full hfull
    simp only [List.flatten_append, List.flatten_singleton, List.length_append, List.length_singleton,
      Nat.mul_succ]
    omega

/-- The blocks from the `k`-th on hold the elements from `k * b` on. -/
theorem Filled.drop (h : Filled b blocks) (k : Nat) :
    blocks.flatten.drop (b * k) = (blocks.drop k).flatten := by
  rcases h.cases with rfl | ⟨init, block, rfl, hfull, -, hle⟩
  · simp
  · by_cases hk : k ≤ init.length
    · have htake : (init.take k).flatten.length = b * k := by
        rw [length_flatten_of_full fun block hblock => hfull block (List.mem_of_mem_take hblock),
          List.length_take, Nat.min_eq_left hk]
      have hsplit : init ++ [block] = init.take k ++ (init.drop k ++ [block]) := by
        rw [← List.append_assoc, List.take_append_drop]
      rw [List.drop_append_of_le_length hk, hsplit, List.flatten_append, ← htake, List.drop_left]
    · have hlength : (init ++ [block]).flatten.length ≤ b * k := by
        have hinit := length_flatten_of_full hfull
        have hk' : b * (init.length + 1) ≤ b * k := Nat.mul_le_mul_left b (Nat.lt_of_not_ge hk)
        rw [List.flatten_append, List.flatten_singleton, List.length_append, hinit]
        rw [Nat.mul_succ] at hk'
        omega
      rw [List.drop_of_length_le hlength, List.drop_of_length_le]
      · rfl
      · rw [List.length_append, List.length_singleton]
        omega

/-- A block that is not full is the last one. -/
theorem Filled.full_or_last (h : Filled b blocks) (hk : blocks[k]? = some block) :
    block.length = b ∨ block ≠ [] ∧ block.length ≤ b ∧ blocks.drop (k + 1) = [] := by
  rcases h.cases with rfl | ⟨init, last, rfl, hfull, hlast⟩
  · cases hk
  · by_cases hlt : k < init.length
    · rw [List.getElem?_append_left hlt] at hk
      exact .inl (hfull block (List.mem_of_getElem? hk))
    · have hrest : (init ++ [last]).drop (k + 1) = [] := by
        apply List.drop_of_length_le
        rw [List.length_append, List.length_singleton]
        omega
      rw [List.getElem?_append_right (Nat.le_of_not_lt hlt), List.getElem?_singleton] at hk
      obtain ⟨-, hk⟩ := Option.ite_none_right_eq_some.mp hk
      cases hk
      exact .inr ⟨hlast.1, hlast.2, hrest⟩

theorem Filled.length_pos (h : Filled b blocks) (hb : 0 < b) (hk : blocks[k]? = some block) :
    0 < block.length := by
  rcases h.full_or_last hk with hfull | ⟨hne, -⟩
  · exact hfull ▸ hb
  · exact List.length_pos_of_ne_nil hne

theorem Filled.drop_of_getElem? (h : Filled b blocks) (hk : blocks[k]? = some block) :
    blocks.flatten.drop (b * k) = block ++ (blocks.drop (k + 1)).flatten := by
  obtain ⟨hlt, rfl⟩ := List.getElem?_eq_some_iff.mp hk
  rw [h.drop, List.drop_eq_getElem_cons hlt, List.flatten_cons]

/-- **The element at `i` is in block `i / b`, at `i % b`.** -/
theorem Filled.itemAt (h : Filled b blocks) (hb : 0 < b) (i : Nat) :
    itemAt blocks (i / b) (i % b) = blocks.flatten[i]? := by
  have hi : blocks.flatten[i]? = (blocks.flatten.drop (b * (i / b)))[i % b]? := by
    rw [List.getElem?_drop, Nat.div_add_mod]
  rw [hi, Lib.itemAt]
  cases hk : blocks[i / b]? with
  | none =>
    rw [h.drop, List.drop_of_length_le (List.getElem?_eq_none_iff.mp hk)]
    rfl
  | some block =>
    rw [h.drop_of_getElem? hk, Option.bind_some]
    have hj : i % b < b := Nat.mod_lt i hb
    rcases h.full_or_last hk with hfull | ⟨-, -, hrest⟩
    · rw [List.getElem?_append_left (hfull ▸ hj)]
    · rw [hrest, List.flatten_nil, List.append_nil]

/-! ## Growing -/

/-- One more element for the last block, which has room for it if there is more room than there are
elements. -/
theorem Filled.push (h : Filled b (init ++ [block])) (hlt : block.length < b) (x : α) :
    Filled b (init ++ [block ++ [x]]) := by
  obtain ⟨hfull, -, -⟩ := filled_concat.mp h
  refine filled_concat.mpr ⟨hfull, List.concat_ne_nil x block, ?_⟩
  rw [List.length_append]
  exact hlt

/-- A new block, once all the others are full. -/
theorem Filled.grow (h : Filled b blocks) (hb : 0 < b) (hfull : blocks.flatten.length = b * blocks.length)
    (x : α) : Filled b (blocks ++ [[x]]) := by
  refine filled_concat.mpr ⟨?_, List.cons_ne_nil x [], hb⟩
  rcases h.cases with rfl | ⟨init, block, rfl, hinit, -, hle⟩
  · exact fun block h => absurd h List.not_mem_nil
  · have hlength := length_flatten_of_full hinit
    simp only [List.flatten_append, List.flatten_singleton, List.length_append, List.length_singleton,
      Nat.mul_succ] at hfull
    intro other hother
    rcases List.mem_append.mp hother with hother | hother
    · exact hinit other hother
    · obtain rfl := List.mem_singleton.mp hother
      omega

theorem itemAt_concat (h : itemAt blocks k j = some x) (other : List α) :
    itemAt (blocks ++ [other]) k j = some x := by
  obtain ⟨found, hk, hj⟩ := Option.bind_eq_some_iff.mp h
  have hlt := (List.getElem?_eq_some_iff.mp hk).1
  rw [itemAt, List.getElem?_append_left hlt, hk, Option.bind_some, hj]

theorem itemAt_push (h : itemAt (init ++ [block]) k j = some x) (y : α) :
    itemAt (init ++ [block ++ [y]]) k j = some x := by
  obtain ⟨found, hk, hj⟩ := Option.bind_eq_some_iff.mp h
  by_cases hlt : k < init.length
  · rw [List.getElem?_append_left hlt] at hk
    rw [itemAt, List.getElem?_append_left hlt, hk, Option.bind_some, hj]
  · have hle := Nat.le_of_not_lt hlt
    rw [List.getElem?_append_right hle, List.getElem?_singleton] at hk
    obtain ⟨hzero, hk⟩ := Option.ite_none_right_eq_some.mp hk
    cases hk
    have hlt' := (List.getElem?_eq_some_iff.mp hj).1
    rw [itemAt, List.getElem?_append_right hle, hzero, List.getElem?_cons_zero, Option.bind_some,
      List.getElem?_append_left hlt', hj]

end EzCpp.Lib
