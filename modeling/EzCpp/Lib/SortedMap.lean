import Mathlib.Order.Lattice
import Mathlib.Data.List.Basic

/-!
# Ordered maps

A map kept as the list of its entries in increasing order of keys, iterated in that order.
`insert` is the insertion that does not overwrite: an entry that is already there stays.
-/

namespace EzCpp.Lib

/-- A map from `κ` to `ν`: its entries, in strictly increasing order of keys. -/
structure SortedMap (κ ν : Type) [LinearOrder κ] where
  entries : List (κ × ν)
  sorted : entries.Pairwise fun a b => a.1 < b.1

namespace SortedMap

variable {κ ν : Type} [LinearOrder κ]

def empty : SortedMap κ ν := ⟨[], .nil⟩

instance : Inhabited (SortedMap κ ν) := ⟨empty⟩

/-- The value of a key. -/
def find? (m : SortedMap κ ν) (k : κ) : Option ν := m.entries.lookup k

def contains (m : SortedMap κ ν) (k : κ) : Bool := (m.find? k).isSome

def size (m : SortedMap κ ν) : Nat := m.entries.length

/-- Insert an entry in its place, unless its key is there. -/
def insertEntries (k : κ) (v : ν) : List (κ × ν) → List (κ × ν)
  | [] => [(k, v)]
  | e :: rest =>
    if k < e.1 then (k, v) :: e :: rest
    else if e.1 < k then e :: insertEntries k v rest
    else e :: rest

theorem mem_insertEntries {k : κ} {v : ν} {l : List (κ × ν)} {e : κ × ν}
    (h : e ∈ insertEntries k v l) : e = (k, v) ∨ e ∈ l := by
  induction l with
  | nil => simpa [insertEntries] using h
  | cons x l ih =>
    simp only [insertEntries] at h
    split at h
    · simpa using h
    · split at h
      · rcases List.mem_cons.mp h with rfl | h
        · exact .inr List.mem_cons_self
        · exact (ih h).imp id (List.mem_cons_of_mem _)
      · exact .inr h

theorem sorted_insertEntries {k : κ} {v : ν} {l : List (κ × ν)}
    (h : l.Pairwise fun a b => a.1 < b.1) :
    (insertEntries k v l).Pairwise fun a b => a.1 < b.1 := by
  induction l with
  | nil => simp [insertEntries]
  | cons x l ih =>
    obtain ⟨hx, hl⟩ := List.pairwise_cons.mp h
    simp only [insertEntries]
    split
    next hk =>
      refine List.pairwise_cons.mpr ⟨fun e he => ?_, h⟩
      rcases List.mem_cons.mp he with rfl | he
      · exact hk
      · exact lt_trans hk (hx e he)
    next =>
      split
      next hk =>
        refine List.pairwise_cons.mpr ⟨fun e he => ?_, ih hl⟩
        rcases mem_insertEntries he with rfl | he
        · exact hk
        · exact hx e he
      next => exact h

theorem insertEntries_perm {k : κ} {l : List (κ × ν)} (h : k ∉ l.map Prod.fst) (v : ν) :
    (insertEntries k v l).Perm ((k, v) :: l) := by
  induction l with
  | nil => exact .refl _
  | cons x l ih =>
    rw [List.map_cons, List.mem_cons, not_or] at h
    rw [insertEntries]
    split
    · exact .refl _
    next hk =>
      rw [if_pos (lt_of_le_of_ne (not_lt.1 hk) (Ne.symm h.1))]
      exact ((ih h.2).cons x).trans (.swap ..)

def insert (m : SortedMap κ ν) (k : κ) (v : ν) : SortedMap κ ν :=
  ⟨insertEntries k v m.entries, sorted_insertEntries m.sorted⟩

theorem lookup_eq_none_of_lt {k : κ} {l : List (κ × ν)} (h : ∀ e ∈ l, k < e.1) :
    l.lookup k = none := by
  induction l with
  | nil => rfl
  | cons x l ih =>
    have hne : (k == x.1) = false := beq_eq_false_iff_ne.mpr (ne_of_lt (h x List.mem_cons_self))
    rw [List.lookup_cons, hne]
    exact ih fun e he => h e (List.mem_cons_of_mem _ he)

theorem lookup_insertEntries {k : κ} {v : ν} {l : List (κ × ν)}
    (h : l.Pairwise fun a b => a.1 < b.1) (j : κ) :
    (insertEntries k v l).lookup j =
      if j = k then some ((l.lookup k).getD v) else l.lookup j := by
  induction l with
  | nil =>
    by_cases hj : j = k
    · simp [insertEntries, hj]
    · have hne : (j == k) = false := beq_eq_false_iff_ne.mpr hj
      simp only [insertEntries, List.lookup_cons, hne, if_neg hj]
  | cons x l ih =>
    obtain ⟨hx, hl⟩ := List.pairwise_cons.mp h
    simp only [insertEntries]
    split
    next hk =>
      have habove : (x :: l).lookup k = none := by
        refine lookup_eq_none_of_lt fun e he => ?_
        rcases List.mem_cons.mp he with rfl | he
        · exact hk
        · exact lt_trans hk (hx e he)
      by_cases hj : j = k
      · simp [hj, habove]
      · have hne : (j == k) = false := beq_eq_false_iff_ne.mpr hj
        rw [List.lookup_cons, hne, if_neg hj]
    next hk =>
      split
      next hk' =>
        have hne : (k == x.1) = false := beq_eq_false_iff_ne.mpr (ne_of_gt hk')
        rw [List.lookup_cons, List.lookup_cons, List.lookup_cons, hne]
        by_cases hj : j = k
        · subst hj
          simp only [hne, ih hl, if_true]
        · rw [if_neg hj]
          cases hjx : (j == x.1) with
          | true => rfl
          | false => simp only [ih hl, if_neg hj]
      next hk' =>
        have heq : k = x.1 := le_antisymm (not_lt.mp hk') (not_lt.mp hk)
        by_cases hj : j = k
        · rw [if_pos hj, hj, List.lookup_cons, beq_iff_eq.mpr heq]
          rfl
        · rw [if_neg hj]

theorem find?_insert (m : SortedMap κ ν) (k j : κ) (v : ν) :
    (m.insert k v).find? j = if j = k then some ((m.find? k).getD v) else m.find? j :=
  lookup_insertEntries m.sorted j

theorem find?_insert_self {m : SortedMap κ ν} {k : κ} (h : m.find? k = none) (v : ν) :
    (m.insert k v).find? k = some v := by
  rw [find?_insert, if_pos rfl, h]
  rfl

theorem mem_of_find? {m : SortedMap κ ν} {k : κ} {v : ν} (h : m.find? k = some v) :
    (k, v) ∈ m.entries := by
  unfold find? at h
  generalize m.entries = l at h
  induction l with
  | nil => simp at h
  | cons x l ih =>
    rw [List.lookup_cons] at h
    split at h
    next hk =>
      have : k = x.1 := eq_of_beq hk
      cases h
      subst this
      exact List.mem_cons_self
    next => exact List.mem_cons_of_mem _ (ih h)

/-- The greatest key comes last. -/
theorem entries_insert_of_lt {m : SortedMap κ ν} {k : κ} (h : ∀ e ∈ m.entries, e.1 < k) (v : ν) :
    (m.insert k v).entries = m.entries ++ [(k, v)] := by
  have last : ∀ l : List (κ × ν), (∀ e ∈ l, e.1 < k) → insertEntries k v l = l ++ [(k, v)] := by
    intro l
    induction l with
    | nil => exact fun _ => rfl
    | cons x l ih =>
      intro hl
      obtain ⟨hx, hl⟩ := List.forall_mem_cons.1 hl
      rw [insertEntries, if_neg (lt_asymm hx), if_pos hx, ih hl]
      rfl
  exact last m.entries h

/-- An insertion changes nothing where the key is there. -/
theorem insert_eq_self {m : SortedMap κ ν} {k : κ} {w : ν} (h : m.find? k = some w) (v : ν) :
    m.insert k v = m := by
  have same : ∀ l : List (κ × ν), l.Pairwise (fun a b => a.1 < b.1) → l.lookup k = some w →
      insertEntries k v l = l := by
    intro l
    induction l with
    | nil => exact nofun
    | cons x l ih =>
      intro hs hl
      obtain ⟨hx, hs'⟩ := List.pairwise_cons.mp hs
      have notBelow : ¬ k < x.1 := by
        intro hk
        rw [lookup_eq_none_of_lt] at hl
        · cases hl
        · intro e he
          rcases List.mem_cons.mp he with rfl | he
          · exact hk
          · exact lt_trans hk (hx e he)
      rw [insertEntries, if_neg notBelow]
      split
      next hk =>
        have hne : (k == x.1) = false := beq_eq_false_iff_ne.mpr (ne_of_gt hk)
        rw [List.lookup_cons, hne] at hl
        rw [ih hs' hl]
      next => rfl
  cases m with
  | mk entries sorted =>
    have he : insertEntries k v entries = entries := same entries sorted h
    simp only [insert, he]

/-! ## Removing entries -/

def erase (m : SortedMap κ ν) (k : κ) : SortedMap κ ν :=
  ⟨m.entries.filter fun e => e.1 ≠ k, m.sorted.filter _⟩

theorem not_mem_keys {m : SortedMap κ ν} {k : κ} (h : m.find? k = none) :
    k ∉ m.entries.map Prod.fst := by
  rw [find?, List.lookup_eq_none_iff] at h
  intro hk
  obtain ⟨e, he, rfl⟩ := List.mem_map.mp hk
  exact absurd rfl (bne_iff_ne.mp (h e he))

theorem entries_insert_perm {m : SortedMap κ ν} {k : κ} (h : m.find? k = none) (v : ν) :
    (m.insert k v).entries.Perm ((k, v) :: m.entries) :=
  insertEntries_perm (not_mem_keys h) v

/-- What is inserted and removed again leaves nothing behind. -/
theorem erase_insert {m : SortedMap κ ν} {k : κ} (h : m.find? k = none) (v : ν) :
    (m.insert k v).erase k = m := by
  have same : ∀ l : List (κ × ν), k ∉ l.map Prod.fst →
      (insertEntries k v l).filter (fun e => e.1 ≠ k) = l := by
    intro l
    induction l with
    | nil => simp [insertEntries]
    | cons x l ih =>
      intro hk
      have kept : (x :: l).filter (fun e => e.1 ≠ k) = x :: l := by
        refine List.filter_eq_self.mpr fun e he => decide_eq_true fun heq => ?_
        exact hk (heq ▸ List.mem_map_of_mem he)
      rw [List.map_cons, List.mem_cons, not_or] at hk
      rw [insertEntries]
      split
      · rw [List.filter_cons, if_neg (by simp), kept]
      next hlt =>
        rw [if_pos (lt_of_le_of_ne (not_lt.mp hlt) (Ne.symm hk.1)), List.filter_cons,
          if_pos (decide_eq_true (Ne.symm hk.1)), ih hk.2]
  cases m with
  | mk entries sorted =>
    have he := same entries (not_mem_keys h)
    simp only [insert, erase, he]

end SortedMap

end EzCpp.Lib
