import EzCpp.Lib.Blocks
import EzCpp.Lib.Runs

/-!
# The append only stable vector

`AppendOnlyStableVector` keeps its elements in a list of blocks and counts them apart from it, as it does
the capacity that decides when a block is added. Where these agree (`Valid`) nothing that it does goes
wrong: it is a list that grows at its end (`Stable.toList`), of which nothing is ever moved.

A visit goes through blocks that may grow while it is under way. It ends all the same, and has called its
function on what was there when it began (`Stable.visit_eq`).
-/

namespace EzCpp.Reporting

open EzCpp.Lib

/-- The number of elements is at most what fits in memory, so that the counters do not wrap around. -/
structure AppendOnlyStableVector (T : Type) (BlockSize : Nat) where
  blocks : List (List T) := []
  size : Nat := 0
  capacity : Nat := 0
  blockCount : Nat := 0

namespace AppendOnlyStableVector

variable {T : Type} {BlockSize : Nat}

def maybeGrow (v : AppendOnlyStableVector T BlockSize) : AppendOnlyStableVector T BlockSize :=
  if v.size = v.capacity then
    { v with
      blocks := v.blocks ++ [[]]
      capacity := v.capacity + BlockSize
      blockCount := v.blockCount + 1 }
  else v

/-- `m_blocks.back().push_back(t)`, where there is a last block and it is not full. -/
def pushBack (v : AppendOnlyStableVector T BlockSize) (t : T) :
    Option (AppendOnlyStableVector T BlockSize) := do
  let block ← v.blocks.getLast?
  if block.length < BlockSize then some { v with blocks := v.blocks.dropLast ++ [block ++ [t]] }
  else none

def append (v : AppendOnlyStableVector T BlockSize) (t : T) :
    Option (AppendOnlyStableVector T BlockSize) := do
  let pushed ← v.maybeGrow.pushBack t
  some { pushed with size := pushed.size + 1 }

/-- `at`, where its assertions hold. -/
def at? (v : AppendOnlyStableVector T BlockSize) (i : Nat) : Option T :=
  if v.size ≠ 0 ∧ i < v.size then itemAt v.blocks (i / BlockSize) (i % BlockSize) else none

/-- `last`, where its assertion holds. -/
def last? (v : AppendOnlyStableVector T BlockSize) : Option T :=
  if 0 < v.size then v.blocks.getLast?.bind (·.getLast?) else none

/-- The position of what `last` refers to. -/
def lastPosition (v : AppendOnlyStableVector T BlockSize) : Nat × Nat :=
  (v.blocks.length - 1, (v.blocks.getLast?.getD []).length - 1)

/-! ## What appending keeps -/

/-- The counters tell of the blocks. -/
structure Valid (v : AppendOnlyStableVector T BlockSize) : Prop where
  positive : 0 < BlockSize
  filled : Filled BlockSize v.blocks
  size : v.size = v.blocks.flatten.length
  capacity : v.capacity = BlockSize * v.blocks.length
  blockCount : v.blockCount = v.blocks.length

variable {v w : AppendOnlyStableVector T BlockSize} {t : T}

theorem valid_empty (h : 0 < BlockSize) : ({} : AppendOnlyStableVector T BlockSize).Valid where
  positive := h
  filled := .nil
  size := rfl
  capacity := rfl
  blockCount := rfl

/-- What an append does: the element is the last one, and nothing else has moved. -/
structure Appended (v : AppendOnlyStableVector T BlockSize) (t : T)
    (w : AppendOnlyStableVector T BlockSize) : Prop where
  valid : w.Valid
  flatten : w.blocks.flatten = v.blocks.flatten ++ [t]
  itemAt : ∀ k j x, itemAt v.blocks k j = some x → Lib.itemAt w.blocks k j = some x

theorem Valid.append_of_full (h : v.Valid) (hfull : v.size = v.capacity) (t : T) :
    ∃ w, v.append t = some w ∧ Appended v t w := by
  have hgrown : v.maybeGrow = ⟨v.blocks ++ [[]], v.size, v.capacity + BlockSize, v.blockCount + 1⟩ :=
    if_pos hfull
  have hpushed : v.append t =
      some ⟨v.blocks ++ [[t]], v.size + 1, v.capacity + BlockSize, v.blockCount + 1⟩ := by
    rw [append, hgrown, pushBack]
    simp only [List.getLast?_concat, List.dropLast_concat, Option.bind_eq_bind, Option.bind_some,
      List.length_nil, if_pos h.positive, List.nil_append]
  refine ⟨_, hpushed, ⟨h.positive, h.filled.grow h.positive ?_ t, ?_, ?_, ?_⟩, ?_, ?_⟩
  · rw [← h.size, ← h.capacity, hfull]
  · simp [h.size]
  · simp [h.capacity, Nat.mul_succ]
  · simp [h.blockCount]
  · simp
  · exact fun k j x hx => itemAt_concat hx [t]

theorem Valid.append_of_room (h : v.Valid) (hroom : v.size ≠ v.capacity) (t : T) :
    ∃ w, v.append t = some w ∧ Appended v t w := by
  have hgrown : v.maybeGrow = v := if_neg hroom
  have hle := h.filled.length_le
  rw [h.size, h.capacity] at hroom
  rcases h.filled.cases with hnil | ⟨init, block, hblocks, hfull, -, -⟩
  · rw [hnil] at hroom
    exact absurd rfl hroom
  · have hlt : block.length < BlockSize := by
      have hinit := length_flatten_of_full hfull
      rw [hblocks] at hroom hle
      simp only [List.flatten_append, List.flatten_singleton, List.length_append, List.length_singleton,
        Nat.mul_succ] at hroom hle
      omega
    have hpushed : v.append t =
        some ⟨init ++ [block ++ [t]], v.size + 1, v.capacity, v.blockCount⟩ := by
      rw [append, hgrown, pushBack, hblocks]
      simp only [List.getLast?_concat, List.dropLast_concat, Option.bind_eq_bind, Option.bind_some,
        if_pos hlt]
    refine ⟨_, hpushed, ⟨h.positive, (hblocks ▸ h.filled).push hlt t, ?_, ?_, ?_⟩, ?_, ?_⟩
    · simp [h.size, hblocks, Nat.add_assoc]
    · simp [h.capacity, hblocks]
    · simp [h.blockCount, hblocks]
    · simp [hblocks]
    · intro k j x hx
      rw [hblocks] at hx
      exact itemAt_push hx t

/-- **An append never fails**, whether it needs a new block or not. -/
theorem Valid.append (h : v.Valid) (t : T) : ∃ w, v.append t = some w ∧ Appended v t w := by
  by_cases hfull : v.size = v.capacity
  · exact h.append_of_full hfull t
  · exact h.append_of_room hfull t

theorem Valid.at?_eq (h : v.Valid) (i : Nat) : v.at? i = v.blocks.flatten[i]? := by
  unfold at?
  split
  · exact h.filled.itemAt h.positive i
  · next hout =>
    rw [h.size] at hout
    refine (List.getElem?_eq_none ?_).symm
    omega

theorem Valid.last?_eq (h : v.Valid) : v.last? = v.blocks.flatten.getLast? := by
  unfold last?
  rw [h.size]
  rcases h.filled.cases with hnil | ⟨init, block, hblocks, -, hne, -⟩
  · rw [hnil]
    rfl
  · have hpos := List.length_pos_of_ne_nil hne
    have hlast : block.getLast? = some (block.getLast hne) := List.getLast?_eq_some_getLast hne
    rw [hblocks, List.getLast?_concat, List.flatten_append, List.flatten_singleton, if_pos,
      Option.bind_some, List.getLast?_append, hlast, Option.some_or]
    rw [List.length_append]
    omega

theorem Valid.itemAt_lastPosition (h : v.Valid) (ht : v.blocks.flatten.getLast? = some t) :
    itemAt v.blocks v.lastPosition.1 v.lastPosition.2 = some t := by
  rcases h.filled.cases with hnil | ⟨init, block, hblocks, -, hne, -⟩
  · rw [hnil] at ht
    cases ht
  · have hlast : block.getLast? = some t := by
      rw [hblocks, List.flatten_append, List.flatten_singleton, List.getLast?_append,
        List.getLast?_eq_some_getLast hne, Option.some_or] at ht
      rw [List.getLast?_eq_some_getLast hne, ht]
    simp only [lastPosition, itemAt, hblocks, List.length_append, List.length_singleton,
      Nat.add_sub_cancel, List.getLast?_concat, Option.getD_some]
    rw [List.getElem?_append_right (Nat.le_refl _), Nat.sub_self, List.getElem?_cons_zero,
      Option.bind_some, ← List.getLast?_eq_getElem?, hlast]

end AppendOnlyStableVector

/-! ## The vector as a list -/

/-- A vector whose counters tell of its blocks. -/
structure Stable (T : Type) (BlockSize : Nat) extends AppendOnlyStableVector T BlockSize where
  valid : toAppendOnlyStableVector.Valid

namespace Stable

variable {T : Type} {BlockSize : Nat}

def empty (h : 0 < BlockSize) : Stable T BlockSize := ⟨{}, AppendOnlyStableVector.valid_empty h⟩

/-- The elements, in the order in which they were appended. -/
def toList (v : Stable T BlockSize) : List T := v.blocks.flatten

theorem append_isSome (v : Stable T BlockSize) (t : T) :
    (v.toAppendOnlyStableVector.append t).isSome := by
  obtain ⟨w, hw, -⟩ := v.valid.append t
  exact Option.isSome_of_eq_some hw

theorem append_get (v : Stable T BlockSize) (t : T) : AppendOnlyStableVector.Appended
    v.toAppendOnlyStableVector t ((v.toAppendOnlyStableVector.append t).get (v.append_isSome t)) := by
  obtain ⟨w, hw, happended⟩ := v.valid.append t
  simp only [hw, Option.get_some]
  exact happended

/-- `append`, which does not fail. -/
def append (v : Stable T BlockSize) (t : T) : Stable T BlockSize :=
  ⟨(v.toAppendOnlyStableVector.append t).get (v.append_isSome t), (v.append_get t).valid⟩

def appendAll (v : Stable T BlockSize) (ts : List T) : Stable T BlockSize := ts.foldl append v

variable {v w : Stable T BlockSize} {t : T} {ts : List T} {i j k : Nat} {x : T}

theorem append_eq (v : Stable T BlockSize) (t : T) :
    v.toAppendOnlyStableVector.append t = some (v.append t).toAppendOnlyStableVector :=
  (Option.some_get (v.append_isSome t)).symm

@[simp] theorem toList_empty (h : 0 < BlockSize) : (empty (T := T) h).toList = [] := rfl

@[simp] theorem toList_append (v : Stable T BlockSize) (t : T) :
    (v.append t).toList = v.toList ++ [t] := (v.append_get t).flatten

@[simp] theorem toList_appendAll (v : Stable T BlockSize) (ts : List T) :
    (v.appendAll ts).toList = v.toList ++ ts := by
  induction ts generalizing v with
  | nil => exact (List.append_nil _).symm
  | cons t ts ih => rw [appendAll, List.foldl_cons, ← appendAll, ih, toList_append, List.append_assoc,
      List.singleton_append]

theorem size_eq (v : Stable T BlockSize) : v.size = v.toList.length := v.valid.size

theorem at?_eq (v : Stable T BlockSize) (i : Nat) : v.at? i = v.toList[i]? := v.valid.at?_eq i

theorem last?_eq (v : Stable T BlockSize) : v.last? = v.toList.getLast? := v.valid.last?_eq

/-- What was appended is where `last` says. -/
theorem itemAt_lastPosition (v : Stable T BlockSize) (t : T) :
    itemAt (v.append t).blocks (v.append t).lastPosition.1 (v.append t).lastPosition.2 = some t := by
  refine (v.append t).valid.itemAt_lastPosition ?_
  rw [← toList, toList_append, List.getLast?_concat]

/-- Nothing that is there moves. -/
theorem itemAt_append (h : itemAt v.blocks k j = some x) (t : T) :
    itemAt (v.append t).blocks k j = some x := (v.append_get t).itemAt k j x h

theorem itemAt_appendAll (h : itemAt v.blocks k j = some x) (ts : List T) :
    itemAt (v.appendAll ts).blocks k j = some x := by
  induction ts generalizing v with
  | nil => exact h
  | cons t ts ih => exact ih (itemAt_append h t)

/-- The runs of appends are the lists. -/
theorem runs_append (v : Stable T BlockSize) (ts : List T) :
    runs AppendOnlyStableVector.append v.toAppendOnlyStableVector ts =
      some (v.appendAll ts).toAppendOnlyStableVector := by
  induction ts generalizing v with
  | nil => rfl
  | cons t ts ih =>
    rw [runs, append_eq, Option.bind_some, ih]
    rfl

/-! ## Visits -/

/-- What a call of the function of a visit does: it returns, it may change whatever else it has access to,
and it may append to the vector that is visited. -/
structure Called (σ T : Type) where
  result : Bool
  state : σ
  appended : List T

/-- The vector during a visit, what the function has changed, and the guard. -/
structure Visiting (σ T : Type) (BlockSize : Nat) where
  vector : Stable T BlockSize
  state : σ
  count : Nat

variable {σ : Type}

section Loops

variable (f : T → σ → Stable T BlockSize → Called σ T)

/-- The loop over the items of a block from the `j`-th on, and whether it returns from the visit. How many
there are is settled before the first one: the end of a block is read once. -/
def visitItems (k : Nat) : Nat → Nat → Visiting σ T BlockSize → Option (Bool × Visiting σ T BlockSize)
  | 0, _, l => some (false, l)
  | left + 1, j, l =>
    if l.count = 0 then some (true, l)
    else do
      let item ← itemAt l.vector.blocks k j
      let called := f item l.state l.vector
      let vector := l.vector.appendAll called.appended
      if called.result then visitItems k left (j + 1) ⟨vector, called.state, l.count - 1⟩
      else some (true, ⟨vector, called.state, l.count⟩)

/-- The loop over the blocks from the `k`-th on, whose end moves as blocks are added; it is given up after
so many blocks. -/
def visitBlocks : Nat → Nat → Visiting σ T BlockSize → Option (Visiting σ T BlockSize)
  | 0, _, _ => none
  | n + 1, k, l =>
    match l.vector.blocks[k]? with
    | none => some l
    | some block => do
      let (returned, l) ← visitItems f k block.length 0 l
      if returned then some l else visitBlocks n (k + 1) l

def visitWhileTrue (v : Stable T BlockSize) (n : Nat) (s : σ) : Option (σ × Stable T BlockSize) :=
  (visitBlocks f n 0 ⟨v, s, v.size⟩).map fun l => (l.state, l.vector)

/-- `visit`, whose function returns nothing. -/
def visit (v : Stable T BlockSize) (f : T → σ → Stable T BlockSize → σ × List T) (n : Nat) (s : σ) :
    Option (σ × Stable T BlockSize) :=
  visitWhileTrue (fun item s v => ⟨true, (f item s v).1, (f item s v).2⟩) v n s

/-- The function is called on items, one after another, until it returns false; whether it does not. -/
def callWhileTrue : List T → σ → Stable T BlockSize → Bool × σ × Stable T BlockSize
  | [], s, v => (true, s, v)
  | item :: items, s, v =>
    let called := f item s v
    let v := v.appendAll called.appended
    if called.result then callWhileTrue items called.state v else (false, called.state, v)

/-- The function is called on items, one after another. -/
def callEach (f : T → σ → Stable T BlockSize → σ × List T) (items : List T) (s : σ)
    (v : Stable T BlockSize) : σ × Stable T BlockSize :=
  items.foldl (fun p item => ((f item p.1 p.2).1, p.2.appendAll (f item p.1 p.2).2)) (s, v)

end Loops

section Visits

variable {f : T → σ → Stable T BlockSize → Called σ T} {items rest : List T} {s : σ}
  {l : Visiting σ T BlockSize} {n : Nat}

theorem callWhileTrue_append : callWhileTrue f (items ++ rest) s v =
    let called := callWhileTrue f items s v
    if called.1 then callWhileTrue f rest called.2.1 called.2.2 else called := by
  induction items generalizing s v with
  | nil => rfl
  | cons item items ih =>
    simp only [List.cons_append, callWhileTrue]
    by_cases hresult : (f item s v).result
    · simp only [if_pos hresult, ih]
    · simp [hresult]

/-- The vector has only grown. -/
theorem exists_appendAll (items : List T) (s : σ) (v : Stable T BlockSize) :
    ∃ ts, (callWhileTrue f items s v).2.2 = v.appendAll ts := by
  induction items generalizing s v with
  | nil => exact ⟨[], rfl⟩
  | cons item items ih =>
    simp only [callWhileTrue]
    split
    · obtain ⟨ts, hts⟩ := ih (f item s v).state (v.appendAll (f item s v).appended)
      refine ⟨(f item s v).appended ++ ts, hts.trans ?_⟩
      exact (List.foldl_append ..).symm
    · exact ⟨_, rfl⟩

/-- The loop over a block calls the function on its items, as far as the guard lets it. -/
theorem visitItems_spec (hitems : ∀ i x, items[i]? = some x → itemAt l.vector.blocks k (j + i) = some x) :
    ∃ b l', visitItems f k items.length j l = some (b, l') ∧
      (l'.state, l'.vector) = (callWhileTrue f (items.take l.count) l.state l.vector).2 ∧
      (b = false ↔ (callWhileTrue f (items.take l.count) l.state l.vector).1 = true ∧
        items.length ≤ l.count) ∧
      (b = false → l'.count = l.count - items.length) := by
  induction items generalizing j l with
  | nil => exact ⟨false, l, rfl, by simp [callWhileTrue], by simp [callWhileTrue], fun _ => rfl⟩
  | cons item items ih =>
    by_cases hcount : l.count = 0
    · refine ⟨true, l, ?_, ?_⟩
      · simp [visitItems, hcount]
      · simp [hcount, callWhileTrue]
    · obtain ⟨c, hc⟩ := Nat.exists_eq_succ_of_ne_zero hcount
      have hitem : itemAt l.vector.blocks k j = some item := hitems 0 item rfl
      rw [List.length_cons, visitItems, if_neg hcount, hitem, hc]
      simp only [Option.bind_eq_bind, Option.bind_some, List.take_succ_cons, callWhileTrue,
        Nat.succ_sub_one]
      split
      · have hrest : ∀ i x, items[i]? = some x → itemAt (l.vector.appendAll
            (f item l.state l.vector).appended).blocks k (j + 1 + i) = some x := by
          intro i x hx
          have hi := hitems (i + 1) x hx
          rw [Nat.add_assoc, Nat.add_comm 1]
          exact itemAt_appendAll hi _
        obtain ⟨b, l', hvisit, hstate, hb, hleft⟩ :=
          ih (l := ⟨_, (f item l.state l.vector).state, c⟩) hrest
        refine ⟨b, l', hvisit, hstate, ?_, fun hfalse => ?_⟩
        · exact hb.trans (and_congr_right fun _ => Nat.succ_le_succ_iff.symm)
        · rw [hleft hfalse]
          exact (Nat.succ_sub_succ c items.length).symm
      · exact ⟨true, _, rfl, rfl, by simp, by simp⟩

/-- What is left to visit is there already, whatever is appended meanwhile. -/
theorem take_drop_appendAll {c : Nat} (hle : i + c ≤ v.toList.length) (ts : List T) :
    ((v.appendAll ts).toList.drop i).take c = (v.toList.drop i).take c := by
  have hi : i ≤ v.toList.length := Nat.le_trans (Nat.le_add_right i c) hle
  rw [toList_appendAll, List.drop_append_of_le_length hi, List.take_append_of_le_length]
  rw [List.length_drop]
  omega

/-- What is left to visit after a block is in the list behind the block, if it is anything. -/
theorem room_next {block : List T} {c : Nat} (hk : v.blocks[k]? = some block) (hle : block.length ≤ c)
    (hroom : BlockSize * k + c ≤ v.toList.length) :
    c - block.length = 0 ∨ BlockSize * (k + 1) + (c - block.length) ≤ v.toList.length := by
  have hdrop : v.toList.drop (BlockSize * k) = block ++ (v.blocks.drop (k + 1)).flatten :=
    v.valid.filled.drop_of_getElem? hk
  have hlength := congrArg List.length hdrop
  rw [List.length_drop, List.length_append] at hlength
  rcases v.valid.filled.full_or_last hk with hfull | ⟨-, -, hlast⟩
  · rw [Nat.mul_succ]
    omega
  · rw [hlast, List.flatten_nil, List.length_nil] at hlength
    omega

theorem take_drop_next {c : Nat} (hnext : c = 0 ∨ BlockSize * (k + 1) + c ≤ v.toList.length)
    (ts : List T) : ((v.appendAll ts).toList.drop (BlockSize * (k + 1))).take c =
      (v.blocks.drop (k + 1)).flatten.take c := by
  rw [← v.valid.filled.drop, ← toList]
  rcases hnext with hnone | hnext
  · simp [hnone]
  · exact take_drop_appendAll hnext ts

/-- **The visit ends**: where more blocks can be gone through than there are items left, it has called the
function on these. -/
theorem visitBlocks_spec (hn : l.count < n)
    (hcount : l.count = 0 ∨ BlockSize * k + l.count ≤ l.vector.toList.length) :
    (visitBlocks f n k l).map (fun l' => (l'.state, l'.vector)) = some
      (callWhileTrue f ((l.vector.toList.drop (BlockSize * k)).take l.count) l.state l.vector).2 := by
  induction n generalizing k l with
  | zero => cases hn
  | succ n ih =>
    rw [visitBlocks]
    cases hk : l.vector.blocks[k]? with
    | none =>
      have hdrop : l.vector.toList.drop (BlockSize * k) = [] := by
        rw [toList, l.vector.valid.filled.drop, List.drop_of_length_le (List.getElem?_eq_none_iff.mp hk)]
        rfl
      rw [hdrop]
      simp [callWhileTrue]
    | some block =>
      have hdrop := l.vector.valid.filled.drop_of_getElem? hk
      have hitems : ∀ i x, block[i]? = some x → itemAt l.vector.blocks k (0 + i) = some x := by
        intro i x hx
        rw [itemAt, hk, Option.bind_some, Nat.zero_add, hx]
      obtain ⟨b, l', hvisit, hstate, hb, hleft⟩ := visitItems_spec (f := f) (l := l) hitems
      rw [← toList] at hdrop
      have hgrown := exists_appendAll (f := f) (block.take l.count) l.state l.vector
      rw [hdrop, List.take_append, callWhileTrue_append]
      generalize callWhileTrue f (block.take l.count) l.state l.vector = called at hstate hb hgrown ⊢
      obtain ⟨all, state, vector⟩ := called
      obtain ⟨rfl, rfl⟩ := Prod.mk.inj hstate
      simp only [hvisit, Option.bind_eq_bind, Option.bind_some]
      cases b with
      | true =>
        -- the function has returned false, or the guard says that the block has new items
        simp only [if_true, Option.map_some]
        cases all with
        | false => rfl
        | true =>
          have hshort : l.count - block.length = 0 := by
            have hlt : ¬ block.length ≤ l.count := fun hle => by simp [hle] at hb
            omega
          rw [hshort]
          rfl
      | false =>
        -- the block is done with, so if anything is left to visit, the block was full
        obtain ⟨rfl, hle⟩ := hb.mp rfl
        obtain ⟨ts, hts⟩ := hgrown
        dsimp only at hts
        have hleft := hleft rfl
        have hpos : 0 < block.length := l.vector.valid.filled.length_pos l.vector.valid.positive hk
        have hnext := room_next hk hle (hcount.resolve_left (by omega))
        have hgrow : l.vector.toList.length ≤ l'.vector.toList.length := by
          rw [hts, toList_appendAll, List.length_append]
          exact Nat.le_add_right _ _
        have hcount' : l'.count = 0 ∨ BlockSize * (k + 1) + l'.count ≤ l'.vector.toList.length := by
          rw [hleft]
          exact hnext.imp_right fun h => Nat.le_trans h hgrow
        have hfewer : l'.count < n := by omega
        rw [if_neg Bool.false_ne_true, if_pos rfl, ih hfewer hcount', hleft]
        rw [hts, take_drop_next hnext ts]

theorem visitWhileTrue_eq (f : T → σ → Stable T BlockSize → Called σ T) (hn : v.size < n) (s : σ) :
    v.visitWhileTrue f n s = some (callWhileTrue f v.toList s v).2 := by
  have hall : v.toList.take v.size = v.toList := by rw [size_eq, List.take_length]
  have hcount : v.size = 0 ∨ BlockSize * 0 + v.size ≤ v.toList.length := by
    rw [size_eq]
    omega
  have hspec := visitBlocks_spec (f := f) (l := ⟨v, s, v.size⟩) hn hcount
  simp only [Nat.mul_zero, List.drop_zero, hall] at hspec
  exact hspec

theorem callWhileTrue_true (f : T → σ → Stable T BlockSize → σ × List T) (items : List T) (s : σ)
    (v : Stable T BlockSize) :
    (callWhileTrue (fun item s v => ⟨true, (f item s v).1, (f item s v).2⟩) items s v).2 =
      callEach f items s v := by
  induction items generalizing s v with
  | nil => rfl
  | cons item items ih => exact ih _ _

theorem visit_eq (f : T → σ → Stable T BlockSize → σ × List T) (hn : v.size < n) (s : σ) :
    v.visit f n s = some (callEach f v.toList s v) := by
  rw [visit, visitWhileTrue_eq _ hn, callWhileTrue_true]

end Visits

/-! ## Refinement -/

/-- **The vector is the list of what was appended to it**: by its index, at its end, by the position of each
element, which is the same after any further appends, and in a visit. The visit ends, as it is not given up
where it may go through more blocks than there are elements. -/
structure Refines (v : Stable T BlockSize) (ts : List T) : Prop where
  run : runs AppendOnlyStableVector.append {} ts = some v.toAppendOnlyStableVector
  size : v.size = ts.length
  index : ∀ i, v.at? i = ts[i]?
  last : v.last? = ts.getLast?
  stays : ∀ us w, runs AppendOnlyStableVector.append v.toAppendOnlyStableVector us = some w →
    ∀ k j x, itemAt v.blocks k j = some x → itemAt w.blocks k j = some x
  visits : ∀ (σ : Type) (f : T → σ → Stable T BlockSize → σ × List T) (s : σ) (n : Nat), v.size < n →
    v.visit f n s = some (callEach f ts s v)
  visitsWhileTrue : ∀ (σ : Type) (f : T → σ → Stable T BlockSize → Called σ T) (s : σ) (n : Nat),
    v.size < n → v.visitWhileTrue f n s = some (callWhileTrue f ts s v).2

theorem exists_refines (h : 0 < BlockSize) (ts : List T) : ∃ v : Stable T BlockSize, v.Refines ts := by
  have htoList : ((empty h).appendAll ts).toList = ts := toList_appendAll (empty h) ts
  refine ⟨(empty h).appendAll ts, runs_append (empty h) ts, ?_, fun i => ?_, ?_, ?_, ?_, ?_⟩
  · rw [size_eq, htoList]
  · rw [at?_eq, htoList]
  · rw [last?_eq, htoList]
  · intro us w hw k j x hx
    rw [runs_append] at hw
    cases hw
    exact itemAt_appendAll hx us
  · intro σ f s n hn
    rw [visit_eq f hn, htoList]
  · intro σ f s n hn
    rw [visitWhileTrue_eq f hn, htoList]

/-- Three elements in blocks of two. -/
theorem exists_refines_two : 0 < 2 ∧ ∃ v : Stable Nat 2, v.Refines [10, 20, 30] :=
  ⟨by decide, exists_refines (by decide) [10, 20, 30]⟩

/-- Every element that is visited appends its double: the block that was half full is filled, and a new one is
begun, but only what was there is visited. -/
example : (((empty (by decide : 0 < 2)).appendAll [1, 2, 3]).visit
    (fun item seen _ => (seen ++ [item], [2 * item])) 4 []).map (fun p => (p.1, p.2.blocks)) =
      some ([1, 2, 3], [[1, 2], [3, 2], [4, 6]]) := by decide

end Stable

end EzCpp.Reporting
