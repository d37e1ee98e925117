import EzCpp.Lib.Runs
import Mathlib.Logic.Function.Basic
import Mathlib.Algebra.GroupWithZero.Nat
import Mathlib.Data.Finset.Max

/-!
# Sections under locks

Threads execute sections: the locks of a section are taken one after another, its body is executed
access by access, and the locks are given back one by one. A lock is shared or exclusive, and each
object of the memory has one. A schedule is a list of threads, each of which takes its next step.

If every access of a section is to an object that it has locked, exclusively where it stores, or that
nobody else has (`WellLocked`), then every interleaving is as good as executing the sections as a
whole, in the order in which their bodies end (`serializable`).
-/

namespace EzCpp.Lib.Locks

inductive Mode
  | shared
  | exclusive
deriving DecidableEq, Repr

/-- One access to one object of the memory. -/
inductive Access (ι α ρ : Type)
  /-- the object goes into the registers -/
  | load (i : ι) (f : α → ρ → ρ)
  /-- the object is written, from the registers -/
  | store (i : ι) (f : ρ → α → α)

structure Section (ι α ρ : Type) where
  /-- in the order in which they are taken -/
  locks : List (ι × Mode)
  body : List (Access ι α ρ)

/-- What a thread is at, with what is left of it. -/
inductive Phase (ι α ρ : Type)
  | idle
  | acquiring (left : List (ι × Mode)) (s : Section ι α ρ)
  | executing (left : List (Access ι α ρ)) (s : Section ι α ρ)
  | releasing

structure Agent (ι α ρ : Type) where
  phase : Phase ι α ρ := .idle
  /-- the locks that it holds, the newest first -/
  held : List (ι × Mode) := []
  registers : ρ
  todo : List (Section ι α ρ)

structure State (τ ι α ρ : Type) where
  memory : ι → α
  holders : ι → List (τ × Mode) := fun _ => []
  agents : τ → Agent ι α ρ
  /-- the threads whose sections were executed, in the order in which the bodies ended -/
  order : List τ := []

variable {τ ι α ρ : Type}

/-! ## Executing a section as a whole -/

section Perform

variable [DecidableEq ι]

def Access.perform : Access ι α ρ → (ι → α) × ρ → (ι → α) × ρ
  | .load i f, (m, r) => (m, f (m i) r)
  | .store i f, (m, r) => (Function.update m i (f r (m i)), r)

def performAll (xs : List (Access ι α ρ)) (c : (ι → α) × ρ) : (ι → α) × ρ :=
  xs.foldl (fun c x => x.perform c) c

@[simp] theorem performAll_nil (c : (ι → α) × ρ) : performAll [] c = c := rfl

@[simp] theorem performAll_cons (x : Access ι α ρ) (xs : List (Access ι α ρ)) (c : (ι → α) × ρ) :
    performAll (x :: xs) c = performAll xs (x.perform c) := rfl

theorem performAll_append (xs ys : List (Access ι α ρ)) (c : (ι → α) × ρ) :
    performAll (xs ++ ys) c = performAll ys (performAll xs c) := List.foldl_append ..

/-- What is left of a process in which the sections are executed as a whole. -/
structure Serial (τ ι α ρ : Type) where
  memory : ι → α
  registers : τ → ρ
  todo : τ → List (Section ι α ρ)

/-- The thread executes its next section. -/
def Serial.execute [DecidableEq τ] (S : Serial τ ι α ρ) (t : τ) : Serial τ ι α ρ :=
  match S.todo t with
  | [] => S
  | s :: todo =>
    let c := performAll s.body (S.memory, S.registers t)
    { memory := c.1
      registers := Function.update S.registers t c.2
      todo := Function.update S.todo t todo }

def serial [DecidableEq τ] (S : Serial τ ι α ρ) (order : List τ) : Serial τ ι α ρ :=
  order.foldl Serial.execute S

end Perform

/-! ## Executing it step by step -/

/-- A lock can be taken in this mode beside the others. -/
def grantable (holders : List (τ × Mode)) : Mode → Bool
  | .shared => holders.all fun h => h.2 = .shared
  | .exclusive => holders.isEmpty

theorem mem_of_grantable {l : List (τ × Mode)} {u : τ} {m n : Mode} (h : grantable l m = true)
    (hn : (u, n) ∈ l) : m = .shared ∧ n = .shared := by
  cases m with
  | shared => exact ⟨rfl, by simpa using List.all_eq_true.mp h _ hn⟩
  | exclusive =>
    rw [List.isEmpty_iff.mp h] at hn
    exact absurd hn List.not_mem_nil

section Set

variable [DecidableEq τ] {s : State τ ι α ρ} {t u : τ}

def State.set (s : State τ ι α ρ) (t : τ) (a : Agent ι α ρ) : State τ ι α ρ :=
  { s with agents := Function.update s.agents t a }

@[simp] theorem set_self (a : Agent ι α ρ) : (s.set t a).agents t = a := Function.update_self ..

@[simp] theorem set_of_ne (h : u ≠ t) (a : Agent ι α ρ) : (s.set t a).agents u = s.agents u :=
  Function.update_of_ne h ..

theorem set_held {a : Agent ι α ρ} (ha : a.held = (s.agents t).held) (u : τ) :
    ((s.set t a).agents u).held = (s.agents u).held := by
  rcases eq_or_ne u t with rfl | hu
  · rw [set_self, ha]
  · rw [set_of_ne hu]

end Set

section Step

variable [DecidableEq τ] [DecidableEq ι]

/-- The next step of a thread; there is none where it has nothing to do or must wait. -/
def step (s : State τ ι α ρ) (t : τ) : Option (State τ ι α ρ) :=
  let a := s.agents t
  match a.phase with
  | .idle =>
    match a.todo with
    | [] => none
    | x :: todo => some (s.set t { a with phase := .acquiring x.locks x, todo })
  | .acquiring [] x => some (s.set t { a with phase := .executing x.body x })
  | .acquiring ((i, m) :: left) x =>
    if grantable (s.holders i) m then
      some { s.set t { a with phase := .acquiring left x, held := (i, m) :: a.held } with
        holders := Function.update s.holders i ((t, m) :: s.holders i) }
    else none
  | .executing [] _ =>
    some { s.set t { a with phase := .releasing } with order := s.order ++ [t] }
  | .executing (x :: left) y =>
    let c := x.perform (s.memory, a.registers)
    some { s.set t { a with phase := .executing left y, registers := c.2 } with memory := c.1 }
  | .releasing =>
    match a.held with
    | [] => some (s.set t { a with phase := .idle })
    | (i, m) :: held =>
      some { s.set t { a with held } with
        holders := Function.update s.holders i ((s.holders i).erase (t, m)) }

/-- A process in which nobody has begun. -/
def start (S : Serial τ ι α ρ) : State τ ι α ρ where
  memory := S.memory
  agents t := { registers := S.registers t, todo := S.todo t }

end Step

/-! ## What a section touches -/

section Touches

variable (owner : ι → Option τ) (t : τ) (s : Section ι α ρ)

/-- The section may load the object: it is the thread's own, or it is locked and nobody's own. -/
def MayLoad (i : ι) : Prop := owner i = some t ∨ owner i = none ∧ ∃ m, (i, m) ∈ s.locks

def MayStore (i : ι) : Prop := owner i = some t ∨ owner i = none ∧ (i, .exclusive) ∈ s.locks

/-- Every access of the section is to an object that it may touch. -/
def WellLocked : Prop := ∀ x ∈ s.body, match x with
  | .load i _ => MayLoad owner t s i
  | .store i _ => MayStore owner t s i

variable {owner t s}

theorem MayStore.mayLoad {i : ι} (h : MayStore owner t s i) : MayLoad owner t s i :=
  h.imp_right fun h => ⟨h.1, _, h.2⟩

end Touches

section Footprint

variable [DecidableEq ι] {owner : ι → Option τ} {t : τ} {s : Section ι α ρ}
  (xs : List (Access ι α ρ)) {c d : (ι → α) × ρ} {i : ι}

theorem perform_unchanged {x : Access ι α ρ} (h : ∀ j f, x = .store j f → i ≠ j) :
    (x.perform c).1 i = c.1 i := by
  cases x with
  | load j f => rfl
  | store j f => exact Function.update_of_ne (h j f rfl) ..

/-- A section leaves alone what it may not store to. -/
theorem performAll_unchanged (hs : WellLocked owner t s) (hxs : ∀ x ∈ xs, x ∈ s.body)
    (hi : ¬ MayStore owner t s i) : (performAll xs c).1 i = c.1 i := by
  induction xs generalizing c with
  | nil => rfl
  | cons x xs ih =>
    rw [performAll_cons, ih fun y hy => hxs y (.tail _ hy)]
    refine perform_unchanged fun j f hx hij => hi ?_
    have hstore := hs x (hxs x (.head _))
    rw [hx] at hstore
    exact hij ▸ hstore

/-- A section sees only what it may load. -/
theorem performAll_congr (hs : WellLocked owner t s) (hxs : ∀ x ∈ xs, x ∈ s.body)
    (hr : c.2 = d.2) (hm : ∀ i, MayLoad owner t s i → c.1 i = d.1 i) :
    (performAll xs c).2 = (performAll xs d).2 ∧
      ∀ i, MayLoad owner t s i → (performAll xs c).1 i = (performAll xs d).1 i := by
  induction xs generalizing c d with
  | nil => exact ⟨hr, hm⟩
  | cons x xs ih =>
    rw [performAll_cons, performAll_cons]
    have hx := hs x (hxs x (.head _))
    refine ih (fun y hy => hxs y (.tail _ hy)) ?_ fun j hj => ?_
    · cases x with
      | load i f => exact congrArg₂ f (hm i hx) hr
      | store i f => exact hr
    · cases x with
      | load i f => exact hm j hj
      | store i f =>
        have hi := hm i (MayStore.mayLoad hx)
        rcases eq_or_ne j i with rfl | hji
        · simp only [Access.perform, Function.update_self, hr, hi]
        · simp only [Access.perform, Function.update_of_ne hji, hm j hj]

end Footprint

/-! ## What one step does -/

section Moves

variable [DecidableEq τ] [DecidableEq ι] {s s' : State τ ι α ρ} {t u : τ}

/-- The steps of a thread, by what it is at. -/
inductive Moves (s : State τ ι α ρ) (t : τ) : State τ ι α ρ → Prop
  | call (x : Section ι α ρ) (todo : List (Section ι α ρ)) (hp : (s.agents t).phase = .idle)
      (ht : (s.agents t).todo = x :: todo) :
      Moves s t (s.set t { s.agents t with phase := .acquiring x.locks x, todo })
  | enter (x : Section ι α ρ) (hp : (s.agents t).phase = .acquiring [] x) :
      Moves s t (s.set t { s.agents t with phase := .executing x.body x })
  | acquire (i : ι) (m : Mode) (left : List (ι × Mode)) (x : Section ι α ρ)
      (hp : (s.agents t).phase = .acquiring ((i, m) :: left) x)
      (hg : grantable (s.holders i) m = true) :
      Moves s t { s.set t { s.agents t with
            phase := .acquiring left x, held := (i, m) :: (s.agents t).held } with
          holders := Function.update s.holders i ((t, m) :: s.holders i) }
  | leave (x : Section ι α ρ) (hp : (s.agents t).phase = .executing [] x) :
      Moves s t { s.set t { s.agents t with phase := .releasing } with order := s.order ++ [t] }
  | access (y : Access ι α ρ) (left : List (Access ι α ρ)) (x : Section ι α ρ)
      (hp : (s.agents t).phase = .executing (y :: left) x) :
      Moves s t { s.set t { s.agents t with
            phase := .executing left x
            registers := (y.perform (s.memory, (s.agents t).registers)).2 } with
          memory := (y.perform (s.memory, (s.agents t).registers)).1 }
  | finish (hp : (s.agents t).phase = .releasing) (hh : (s.agents t).held = []) :
      Moves s t (s.set t { s.agents t with phase := .idle })
  | release (i : ι) (m : Mode) (held : List (ι × Mode)) (hp : (s.agents t).phase = .releasing)
      (hh : (s.agents t).held = (i, m) :: held) :
      Moves s t { s.set t { s.agents t with held } with
          holders := Function.update s.holders i ((s.holders i).erase (t, m)) }

theorem moves_of_step (h : step s t = some s') : Moves s t s' := by
  unfold step at h
  dsimp only at h
  split at h
  next hp =>
    split at h
    · cases h
    next x todo ht =>
      cases h
      exact .call x todo hp ht
  next x hp =>
    cases h
    exact .enter x hp
  next i m left x hp =>
    split at h
    next hg =>
      cases h
      exact .acquire i m left x hp hg
    · cases h
  next x hp =>
    cases h
    exact .leave x hp
  next y left x hp =>
    cases h
    exact .access y left x hp
  next hp =>
    split at h
    next hh =>
      cases h
      exact .finish hp hh
    next i m held hh =>
      cases h
      exact .release i m held hp hh

/-- A step of a thread leaves the others as they are. -/
theorem Moves.others (h : Moves s t s') (hu : u ≠ t) : s'.agents u = s.agents u := by
  cases h <;> exact set_of_ne hu _

end Moves

/-! ## Mutual exclusion -/

/-- The locks that a thread holds are held by it, and an exclusive lock is held by nobody else. -/
structure Locked [DecidableEq τ] [DecidableEq ι] (s : State τ ι α ρ) : Prop where
  counts : ∀ t i m, (s.holders i).count (t, m) = (s.agents t).held.count (i, m)
  alone : ∀ t i, (t, .exclusive) ∈ s.holders i → s.holders i = [(t, .exclusive)]

section Locked

variable [DecidableEq τ] [DecidableEq ι] {s s' : State τ ι α ρ} {t u : τ} {i : ι} {m n : Mode}

theorem Locked.mem_iff (h : Locked s) : (t, m) ∈ s.holders i ↔ (i, m) ∈ (s.agents t).held := by
  rw [← List.count_pos_iff, h.counts, List.count_pos_iff]

/-- **Mutual exclusion**: who holds a lock exclusively is its only holder. -/
theorem Locked.eq_of_exclusive (h : Locked s) (ht : (i, .exclusive) ∈ (s.agents t).held)
    (hu : (i, m) ∈ (s.agents u).held) : u = t := by
  have hm := h.mem_iff.mpr hu
  rw [h.alone t i (h.mem_iff.mpr ht), List.mem_singleton] at hm
  exact congrArg Prod.fst hm

theorem locked_start (S : Serial τ ι α ρ) : Locked (start S) :=
  ⟨fun _ _ _ => rfl, fun _ _ h => absurd h List.not_mem_nil⟩

/-- Steps that take and release no lock. -/
theorem Locked.keep (h : Locked s) (hh : s'.holders = s.holders)
    (ha : ∀ u, (s'.agents u).held = (s.agents u).held) : Locked s' := by
  refine ⟨fun u i m => ?_, fun u i hu => ?_⟩
  · rw [hh, ha, h.counts]
  · rw [hh] at hu ⊢
    exact h.alone u i hu

/-- Taking a lock that can be taken. -/
theorem Locked.acquire (h : Locked s) {a : Agent ι α ρ} (hg : grantable (s.holders i) m = true)
    (ha : a.held = (i, m) :: (s.agents t).held) :
    Locked { s.set t a with holders := Function.update s.holders i ((t, m) :: s.holders i) } := by
  refine ⟨fun u j n => ?_, fun u j hu => ?_⟩
  · have hcount := h.counts u j n
    show (Function.update s.holders i _ j).count (u, n) = ((s.set t a).agents u).held.count (j, n)
    rcases eq_or_ne u t with rfl | hut
    · rw [set_self, ha, List.count_cons, ← hcount]
      rcases eq_or_ne j i with rfl | hj
      · simp [List.count_cons]
      · simp [Function.update_of_ne hj, Ne.symm hj]
    · rw [set_of_ne hut, ← hcount]
      rcases eq_or_ne j i with rfl | hj
      · simp [Ne.symm hut]
      · rw [Function.update_of_ne hj]
  · show Function.update s.holders i _ j = _
    replace hu : (u, .exclusive) ∈ Function.update s.holders i ((t, m) :: s.holders i) j := hu
    rcases eq_or_ne j i with rfl | hj
    · rw [Function.update_self] at hu ⊢
      rcases List.mem_cons.mp hu with heq | hold
      · cases heq
        rw [List.isEmpty_iff.mp hg]
      · exact absurd (mem_of_grantable hg hold).2 (by decide)
    · rw [Function.update_of_ne hj] at hu ⊢
      exact h.alone u j hu

theorem Locked.release (h : Locked s) {a : Agent ι α ρ} (ha : (s.agents t).held = (i, m) :: a.held) :
    Locked { s.set t a with holders := Function.update s.holders i ((s.holders i).erase (t, m)) } := by
  refine ⟨fun u j n => ?_, fun u j hu => ?_⟩
  · have hcount := h.counts u j n
    show (Function.update s.holders i _ j).count (u, n) = ((s.set t a).agents u).held.count (j, n)
    rcases eq_or_ne u t with rfl | hut
    · rw [ha, List.count_cons] at hcount
      rw [set_self]
      rcases eq_or_ne j i with rfl | hj
      · rw [Function.update_self]
        rcases eq_or_ne n m with rfl | hn
        · rw [List.count_erase_self, hcount]
          simp
        · rw [List.count_erase_of_ne (by simpa using hn), hcount]
          simp [Ne.symm hn]
      · simpa [Function.update_of_ne hj, Ne.symm hj] using hcount
    · rw [set_of_ne hut, ← hcount]
      rcases eq_or_ne j i with rfl | hj
      · rw [Function.update_self, List.count_erase_of_ne (by simp [hut])]
      · rw [Function.update_of_ne hj]
  · show Function.update s.holders i _ j = _
    replace hu : (u, .exclusive) ∈ Function.update s.holders i ((s.holders i).erase (t, m)) j := hu
    rcases eq_or_ne j i with rfl | hj
    · rw [Function.update_self] at hu ⊢
      have halone := h.alone u j (List.mem_of_mem_erase hu)
      rw [halone] at hu ⊢
      refine List.erase_of_not_mem fun hm => ?_
      rw [List.mem_singleton.mp hm, List.erase_cons_head] at hu
      exact absurd hu List.not_mem_nil
    · rw [Function.update_of_ne hj] at hu ⊢
      exact h.alone u j hu

theorem Moves.locked (h : Moves s t s') (hl : Locked s) : Locked s' := by
  cases h with
  | call x todo hp ht => exact hl.keep rfl (set_held rfl)
  | enter x hp => exact hl.keep rfl (set_held rfl)
  | acquire i m left x hp hg => exact hl.acquire hg rfl
  | leave x hp => exact hl.keep rfl (set_held rfl)
  | access y left x hp => exact hl.keep rfl (set_held rfl)
  | finish hp hh => exact hl.keep rfl (set_held rfl)
  | release i m held hp hh => exact hl.release hh

end Locked

/-! ## The interleaving and the order -/

section Follows

variable [DecidableEq τ] [DecidableEq ι]

/-- What a thread has done, from where the sections executed as a whole have left it. -/
def AgentFollows (owner : ι → Option τ) (S : Serial τ ι α ρ) (memory : ι → α) (t : τ)
    (a : Agent ι α ρ) : Prop :=
  match a.phase with
  | .idle => S.todo t = a.todo ∧ S.registers t = a.registers
  | .acquiring left x => (∃ done, x.locks = done ++ left ∧ a.held = done.reverse) ∧
      S.todo t = x :: a.todo ∧ S.registers t = a.registers
  | .executing left x => a.held = x.locks.reverse ∧ S.todo t = x :: a.todo ∧
      ∃ done, x.body = done ++ left ∧
        (performAll done (S.memory, S.registers t)).2 = a.registers ∧
        ∀ i, MayLoad owner t x i → (performAll done (S.memory, S.registers t)).1 i = memory i
  | .releasing => S.todo t = a.todo ∧ S.registers t = a.registers

/-- The thread is in the middle of a section that may store to the object. -/
def Writing (owner : ι → Option τ) (s : State τ ι α ρ) (t : τ) (i : ι) : Prop :=
  ∃ left x, (s.agents t).phase = .executing left x ∧ MayStore owner t x i

/-- The interleaving is where the sections as a whole are, but for those that are being executed. -/
structure Follows (owner : ι → Option τ) (S : Serial τ ι α ρ) (s : State τ ι α ρ) : Prop where
  locked : Locked s
  wellLocked : ∀ t, ∀ x ∈ S.todo t, WellLocked owner t x
  idle : ∀ t, (s.agents t).phase = .idle → (s.agents t).held = []
  agents : ∀ t, AgentFollows owner S s.memory t (s.agents t)
  memory : ∀ i, (∀ t, ¬ Writing owner s t i) → S.memory i = s.memory i

variable {owner : ι → Option τ} {S : Serial τ ι α ρ} {s s' : State τ ι α ρ} {t u : τ} {i : ι}
  {x y : Section ι α ρ} {left : List (Access ι α ρ)}

theorem follows_start (h : ∀ t, ∀ x ∈ S.todo t, WellLocked owner t x) :
    Follows owner S (start S) where
  locked := locked_start S
  wellLocked := h
  idle _ _ := rfl
  agents _ := ⟨rfl, rfl⟩
  memory _ _ := rfl

/-- **What one section may store to, no other that has its locks may load.** -/
theorem Locked.disjoint (h : Locked s) (hx : ∀ j ∈ x.locks, j ∈ (s.agents t).held)
    (hy : ∀ j ∈ y.locks, j ∈ (s.agents u).held) (hs : MayStore owner t x i)
    (hl : MayLoad owner u y i) : u = t := by
  rcases hs with hown | ⟨hnone, hexclusive⟩
  · rcases hl with hown' | ⟨hnone, -⟩
    · exact Option.some.inj (hown'.symm.trans hown)
    · cases hown.symm.trans hnone
  · rcases hl with hown | ⟨-, m, hm⟩
    · cases hown.symm.trans hnone
    · exact h.eq_of_exclusive (hx _ hexclusive) (hy _ hm)

theorem Follows.holds (h : Follows owner S s) (hp : (s.agents t).phase = .executing left x) :
    ∀ j ∈ x.locks, j ∈ (s.agents t).held := by
  have ha := h.agents t
  simp only [AgentFollows, hp] at ha
  intro j hj
  rw [ha.1, List.mem_reverse]
  exact hj

/-- A section that has its locks sees what the sections executed as a whole have left. -/
theorem Follows.memory_of_holds (h : Follows owner S s) (hx : ∀ j ∈ x.locks, j ∈ (s.agents t).held)
    (hp : ∀ left y, (s.agents t).phase ≠ .executing left y) (hl : MayLoad owner t x i) :
    S.memory i = s.memory i := by
  refine h.memory i fun u hw => ?_
  obtain ⟨left, y, hu, hs⟩ := hw
  have hut : t = u := h.locked.disjoint (h.holds hu) hx hs hl
  exact hp left y (hut ▸ hu)

omit [DecidableEq τ] in
/-- A thread is where it was if nothing that it depends on has changed. -/
theorem AgentFollows.congr {S' : Serial τ ι α ρ} {a : Agent ι α ρ} {memory memory' : ι → α}
    (h : AgentFollows owner S memory u a) (htodo : S'.todo u = S.todo u)
    (hreg : S'.registers u = S.registers u) (hw : ∀ y ∈ S.todo u, WellLocked owner u y)
    (hm : ∀ left y i, a.phase = .executing left y → MayLoad owner u y i →
      memory' i = memory i ∧ S'.memory i = S.memory i) : AgentFollows owner S' memory' u a := by
  unfold AgentFollows at h ⊢
  rw [htodo, hreg]
  cases hp : a.phase with
  | executing left y =>
    simp only [hp] at h ⊢
    obtain ⟨hheld, htodo, done, hbody, hregisters, hmem⟩ := h
    have hy : WellLocked owner u y := hw y (htodo ▸ List.mem_cons_self)
    obtain ⟨hr, hall⟩ := performAll_congr done (c := (S'.memory, S.registers u))
      (d := (S.memory, S.registers u)) hy
      (fun z hz => hbody ▸ List.mem_append_left left hz) rfl fun i hi => (hm left y i hp hi).2
    refine ⟨hheld, htodo, done, hbody, hr.trans hregisters, fun i hi => ?_⟩
    rw [hall i hi, hmem i hi, (hm left y i hp hi).1]
  | _ => simpa only [hp] using h

/-- Steps outside a body. -/
theorem Follows.quiet (h : Follows owner S s) (hlocked : Locked s')
    (ha : ∀ u, u ≠ t → s'.agents u = s.agents u) (hm : s'.memory = s.memory)
    (hp : ∀ left y, (s.agents t).phase ≠ .executing left y)
    (hidle : (s'.agents t).phase = .idle → (s'.agents t).held = [])
    (ht : AgentFollows owner S s.memory t (s'.agents t)) : Follows owner S s' where
  locked := hlocked
  wellLocked := h.wellLocked
  idle u := by
    rcases eq_or_ne u t with rfl | hu
    · exact hidle
    · rw [ha u hu]
      exact h.idle u
  agents u := by
    rw [hm]
    rcases eq_or_ne u t with rfl | hu
    · exact ht
    · rw [ha u hu]
      exact h.agents u
  memory i hi := by
    rw [hm]
    refine h.memory i fun u hw => hi u ?_
    obtain ⟨left, y, hu, hs⟩ := hw
    have hut : u ≠ t := fun heq => hp left y (heq ▸ hu)
    exact ⟨left, y, (ha u hut).symm ▸ hu, hs⟩

/-- The other threads do not see what a body stores. -/
theorem Follows.unseen (h : Follows owner S s) (hp : (s.agents t).phase = .executing left x)
    (hu : u ≠ t) {rest : List (Access ι α ρ)} (hp' : (s.agents u).phase = .executing rest y)
    (hl : MayLoad owner u y i) : ¬ MayStore owner t x i :=
  fun hs => hu (h.locked.disjoint (h.holds hp) (h.holds hp') hs hl)

theorem Follows.access (h : Follows owner S s) {z : Access ι α ρ}
    (hp : (s.agents t).phase = .executing (z :: left) x) (hlocked : Locked s')
    (ho : ∀ u, u ≠ t → s'.agents u = s.agents u)
    (ha : s'.agents t = { s.agents t with
      phase := .executing left x
      registers := (z.perform (s.memory, (s.agents t).registers)).2 })
    (hm : s'.memory = (z.perform (s.memory, (s.agents t).registers)).1) : Follows owner S s' := by
  have ht := h.agents t
  simp only [AgentFollows, hp] at ht
  obtain ⟨hheld, htodo, done, hbody, hreg, hmem⟩ := ht
  have hx : WellLocked owner t x := h.wellLocked t x (htodo ▸ List.mem_cons_self)
  have hz : ∀ y ∈ [z], y ∈ x.body := fun y hy =>
    List.mem_singleton.mp hy ▸ hbody ▸ List.mem_append_right done List.mem_cons_self
  have hout (i : ι) (hi : ¬ MayStore owner t x i) : s'.memory i = s.memory i := by
    rw [hm]
    exact performAll_unchanged [z] hx hz hi
  obtain ⟨hr, hall⟩ := performAll_congr [z]
    (c := performAll done (S.memory, S.registers t)) (d := (s.memory, (s.agents t).registers)) hx
    hz hreg hmem
  refine ⟨hlocked, h.wellLocked, fun u hu => ?_, fun u => ?_, fun i hi => ?_⟩
  · rcases eq_or_ne u t with rfl | hut
    · rw [ha] at hu
      cases hu
    · rw [ho u hut] at hu ⊢
      exact h.idle u hu
  · rcases eq_or_ne u t with rfl | hut
    · rw [ha, hm]
      refine ⟨hheld, htodo, done ++ [z], by rw [hbody, List.append_assoc]; rfl, ?_, ?_⟩
      · rw [performAll_append]
        exact hr
      · rw [performAll_append]
        exact hall
    · rw [ho u hut]
      exact (h.agents u).congr rfl rfl (h.wellLocked u) fun _ y i hp' hl =>
        ⟨hout i (h.unseen hp hut hp' hl), rfl⟩
  · have hstore : ¬ MayStore owner t x i := fun hs => hi t ⟨left, x, by rw [ha], hs⟩
    rw [hout i hstore]
    refine h.memory i fun u hw => ?_
    obtain ⟨rest, y, hp', hs⟩ := hw
    rcases eq_or_ne u t with rfl | hut
    · rw [hp] at hp'
      cases hp'
      exact hstore hs
    · exact hi u ⟨rest, y, (ho u hut).symm ▸ hp', hs⟩

/-- At the end of its body a section is executed as a whole. -/
theorem Follows.leave (h : Follows owner S s) (hp : (s.agents t).phase = .executing [] x)
    (hlocked : Locked s') (ho : ∀ u, u ≠ t → s'.agents u = s.agents u)
    (ha : s'.agents t = { s.agents t with phase := .releasing }) (hm : s'.memory = s.memory) :
    Follows owner (S.execute t) s' := by
  have ht := h.agents t
  simp only [AgentFollows, hp] at ht
  obtain ⟨hheld, htodo, done, hbody, hreg, hmem⟩ := ht
  rw [List.append_nil] at hbody
  subst hbody
  have hx : WellLocked owner t x := h.wellLocked t x (htodo ▸ List.mem_cons_self)
  have hexecute : S.execute t =
      { memory := (performAll x.body (S.memory, S.registers t)).1
        registers := Function.update S.registers t (s.agents t).registers
        todo := Function.update S.todo t (s.agents t).todo } := by
    rw [Serial.execute, htodo, ← hreg]
  have hout (i : ι) (hi : ¬ MayStore owner t x i) : (S.execute t).memory i = S.memory i := by
    rw [hexecute]
    exact performAll_unchanged x.body hx (fun _ hz => hz) hi
  have htodo' (u : τ) (hu : u ≠ t) : (S.execute t).todo u = S.todo u := by
    rw [hexecute]
    exact Function.update_of_ne hu ..
  have hreg' (u : τ) (hu : u ≠ t) : (S.execute t).registers u = S.registers u := by
    rw [hexecute]
    exact Function.update_of_ne hu ..
  refine ⟨hlocked, fun u z hz => h.wellLocked u z ?_, fun u hu => ?_, fun u => ?_, fun i hi => ?_⟩
  · rcases eq_or_ne u t with rfl | hut
    · rw [hexecute] at hz
      rw [htodo]
      exact List.mem_cons_of_mem x (by simpa using hz)
    · rwa [htodo' u hut] at hz
  · rcases eq_or_ne u t with rfl | hut
    · rw [ha] at hu
      cases hu
    · rw [ho u hut] at hu ⊢
      exact h.idle u hu
  · rcases eq_or_ne u t with rfl | hut
    · rw [ha, hexecute]
      exact ⟨Function.update_self .., Function.update_self ..⟩
    · rw [ho u hut, hm]
      refine (h.agents u).congr (htodo' u hut) (hreg' u hut) (h.wellLocked u) ?_
      intro _ y i hp' hl
      exact ⟨rfl, hout i (h.unseen hp hut hp' hl)⟩
  · rw [hm]
    by_cases hs : MayStore owner t x i
    · rw [hexecute]
      exact hmem i hs.mayLoad
    · rw [hout i hs]
      refine h.memory i fun u hw => ?_
      obtain ⟨rest, y, hp', hs'⟩ := hw
      rcases eq_or_ne u t with rfl | hut
      · rw [hp] at hp'
        cases hp'
        exact hs hs'
      · exact hi u ⟨rest, y, (ho u hut).symm ▸ hp', hs'⟩

end Follows

/-! ## The law -/

section Law

variable [DecidableEq τ] [DecidableEq ι] {owner : ι → Option τ} {S : Serial τ ι α ρ}
  {s s' : State τ ι α ρ} {t u : τ} {i : ι} {es : List τ}

theorem Moves.follows {S₀ : Serial τ ι α ρ} (h : Moves s t s')
    (hf : Follows owner (serial S₀ s.order) s) : Follows owner (serial S₀ s'.order) s' := by
  have hlocked : Locked s' := h.locked hf.locked
  have ho : ∀ u, u ≠ t → s'.agents u = s.agents u := fun u => h.others
  have ht := hf.agents t
  cases h with
  | call x todo hp hto =>
    simp only [AgentFollows, hp] at ht
    refine hf.quiet hlocked ho rfl (by simp [hp]) (by simp) ?_
    rw [set_self]
    exact ⟨⟨[], rfl, hf.idle t hp⟩, ht.1.trans hto, ht.2⟩
  | enter x hp =>
    simp only [AgentFollows, hp] at ht
    obtain ⟨⟨done, hlocks, hheld⟩, htodo, hreg⟩ := ht
    rw [List.append_nil] at hlocks
    have hheld : (s.agents t).held = x.locks.reverse := by rw [hlocks, hheld]
    refine hf.quiet hlocked ho rfl (by simp [hp]) (by simp) ?_
    rw [set_self]
    refine ⟨hheld, htodo, [], rfl, hreg, fun i hi => ?_⟩
    exact hf.memory_of_holds (fun j hj => by rw [hheld, List.mem_reverse]; exact hj)
      (by simp [hp]) hi
  | acquire i m left x hp hg =>
    simp only [AgentFollows, hp] at ht
    obtain ⟨⟨done, hlocks, hheld⟩, htodo, hreg⟩ := ht
    refine hf.quiet hlocked ho rfl (by simp [hp]) (by simp) ?_
    simp only [set_self]
    refine ⟨⟨done ++ [(i, m)], by rw [hlocks, List.append_assoc]; rfl, ?_⟩, htodo, hreg⟩
    rw [hheld, List.reverse_append]
    rfl
  | leave x hp =>
    rw [serial, List.foldl_append]
    exact hf.leave hp hlocked ho (set_self _) rfl
  | access y left x hp => exact hf.access hp hlocked ho (set_self _) rfl
  | finish hp hh =>
    simp only [AgentFollows, hp] at ht
    refine hf.quiet hlocked ho rfl (by simp [hp]) (by simp [hh]) ?_
    rw [set_self]
    exact ht
  | release i m held hp hh =>
    simp only [AgentFollows, hp] at ht
    refine hf.quiet hlocked ho rfl (by simp [hp]) (by simp [hp]) ?_
    simp only [set_self, AgentFollows, hp]
    exact ht

theorem follows_runs (h : ∀ t, ∀ x ∈ S.todo t, WellLocked owner t x)
    (hr : runs step (start S) es = some s) : Follows owner (serial S s.order) s := by
  have hstart : Follows owner (serial S (start S).order) (start S) := follows_start h
  exact runs_invariant (P := fun s => Follows owner (serial S s.order) s)
    (fun _ _ _ hf hs => (moves_of_step hs).follows hf) hr hstart

/-- How many sections of a thread have not come to the end of their bodies. -/
def Agent.left (a : Agent ι α ρ) : Nat :=
  a.todo.length +
    match a.phase with
    | .idle | .releasing => 0
    | .acquiring _ _ | .executing _ _ => 1

theorem Moves.left (h : Moves s t s') (u : τ) :
    s'.order.count u + (s'.agents u).left = s.order.count u + (s.agents u).left := by
  rcases eq_or_ne u t with rfl | hu
  · cases h with
    | call x todo hp ht => simp [Agent.left, hp, ht, State.set]
    | enter x hp => simp [Agent.left, hp, State.set]
    | acquire i m left x hp hg => simp [Agent.left, hp, State.set]
    | leave x hp =>
      simp only [set_self, Agent.left, hp, List.count_append, List.count_singleton_self]
      omega
    | access y left x hp => simp [Agent.left, hp, State.set]
    | finish hp hh => simp [Agent.left, hp, State.set]
    | release i m held hp hh => simp [Agent.left, hp, State.set]
  · rw [h.others hu]
    cases h with
    | leave x hp => simp [List.count_append, hu.symm]
    | _ => rfl

/-- **Every section is executed once.** -/
theorem count_left (hr : runs step (start S) es = some s) (t : τ) :
    s.order.count t + (s.agents t).left = (S.todo t).length := by
  refine runs_invariant (P := fun s => s.order.count t + (s.agents t).left = (S.todo t).length)
    (fun r u r' h hs => ((moves_of_step hs).left t).trans h) hr ?_
  exact Nat.zero_add _

theorem Moves.order (h : Moves s t s') : s.order <+: s'.order := by
  cases h with
  | leave x hp => exact List.prefix_append ..
  | _ => exact List.prefix_refl _

/-- A section that has ended comes before all that begin later. -/
theorem order_prefix (hr : runs step s es = some s') : s.order <+: s'.order :=
  runs_invariant (P := fun u => s.order <+: u.order)
    (fun _ _ _ hp hs => hp.trans (moves_of_step hs).order) hr (List.prefix_refl _)

/-- **Every interleaving is as good as executing the sections as a whole**, in the order in which their
bodies end: an object that nobody is writing to, and the registers of a thread that is in no section,
are what that order leaves. -/
theorem serializable (h : ∀ t, ∀ x ∈ S.todo t, WellLocked owner t x)
    (hr : runs step (start S) es = some s) :
    (∀ i, (∀ t, ¬ Writing owner s t i) → s.memory i = (serial S s.order).memory i) ∧
      ∀ t, (s.agents t).phase = .idle →
        (s.agents t).registers = (serial S s.order).registers t := by
  have hf := follows_runs h hr
  refine ⟨fun i hi => (hf.memory i hi).symm, fun t hp => ?_⟩
  have ht := hf.agents t
  simp only [AgentFollows, hp] at ht
  exact ht.2.symm

end Law

/-! ## Progress -/

section Progress

/-- The locks are taken upwards. -/
def Ordered [LT ι] (x : Section ι α ρ) : Prop := x.locks.Pairwise fun a b => a.1 < b.1

/-- How many steps a section takes. -/
def Section.steps (x : Section ι α ρ) : Nat := 2 * x.locks.length + x.body.length + 4

/-- How many steps a thread still has to take. -/
def Agent.work (a : Agent ι α ρ) : Nat :=
  (a.todo.map Section.steps).sum +
    match a.phase with
    | .idle => 0
    | .acquiring left x => left.length + x.body.length + x.locks.length + 3
    | .executing left x => left.length + x.locks.length + 2
    | .releasing => a.held.length + 1

def Agent.finished (a : Agent ι α ρ) : Prop := a.phase = .idle ∧ a.todo = []

variable [DecidableEq τ] [LinearOrder ι] {S : Serial τ ι α ρ} {s s' : State τ ι α ρ} {t u : τ}
  {i : ι} {m : Mode} {x : Section ι α ρ} {es : List τ}

/-- What a thread holds is what it has taken of its section, and sections take their locks upwards. -/
structure Climbs (a : Agent ι α ρ) : Prop where
  todo : ∀ x ∈ a.todo, Ordered x
  idle : a.phase = .idle → a.held = []
  acquiring : ∀ left x, a.phase = .acquiring left x →
    Ordered x ∧ ∃ done, x.locks = done ++ left ∧ a.held = done.reverse
  executing : ∀ left x, a.phase = .executing left x → a.held.length = x.locks.length

theorem Moves.climbs (h : Moves s t s') (hc : Climbs (s.agents t)) :
    Climbs (s'.agents t) ∧ (s'.agents t).work + 1 = (s.agents t).work := by
  cases h with
  | call x todo hp ht =>
    have hx : Ordered x := hc.todo x (ht ▸ List.mem_cons_self)
    simp only [set_self]
    refine ⟨⟨fun y hy => hc.todo y (ht ▸ List.mem_cons_of_mem x hy), by simp, ?_, by simp⟩, ?_⟩
    · rintro left y ⟨⟩
      exact ⟨hx, [], rfl, hc.idle hp⟩
    · simp only [Agent.work, hp, ht, List.map_cons, List.sum_cons, Section.steps]
      omega
  | enter x hp =>
    obtain ⟨-, done, hlocks, hheld⟩ := hc.acquiring [] x hp
    simp only [set_self]
    refine ⟨⟨hc.todo, by simp, by simp, ?_⟩, ?_⟩
    · rintro left y ⟨⟩
      rw [hheld, hlocks, List.append_nil, List.length_reverse]
    · simp only [Agent.work, hp, List.length_nil]
      omega
  | acquire i m left x hp hg =>
    obtain ⟨hx, done, hlocks, hheld⟩ := hc.acquiring _ x hp
    simp only [set_self]
    refine ⟨⟨hc.todo, by simp, ?_, by simp⟩, ?_⟩
    · rintro _ _ ⟨⟩
      exact ⟨hx, done ++ [(i, m)], by simp [hlocks], by simp [hheld]⟩
    · simp only [Agent.work, hp, List.length_cons]
      omega
  | leave x hp =>
    have hheld := hc.executing [] x hp
    simp only [set_self]
    refine ⟨⟨hc.todo, by simp, by simp, by simp⟩, ?_⟩
    simp only [Agent.work, hp, hheld, List.length_nil]
    omega
  | access y left x hp =>
    have hheld := hc.executing _ x hp
    simp only [set_self]
    refine ⟨⟨hc.todo, by simp, by simp, ?_⟩, ?_⟩
    · rintro _ _ ⟨⟩
      exact hheld
    · simp only [Agent.work, hp, List.length_cons]
      omega
  | finish hp hh =>
    simp only [set_self]
    refine ⟨⟨hc.todo, fun _ => hh, by simp, by simp⟩, ?_⟩
    simp only [Agent.work, hp, hh, List.length_nil]
  | release i m held hp hh =>
    simp only [set_self]
    refine ⟨⟨hc.todo, by simp [hp], by simp [hp], by simp [hp]⟩, ?_⟩
    simp only [Agent.work, hp, hh, List.length_cons]
    omega

/-- What is true along every run. -/
structure Climbing (S : Serial τ ι α ρ) (es : List τ) (s : State τ ι α ρ) : Prop where
  locked : Locked s
  climbs : ∀ t, Climbs (s.agents t)
  work : ∀ t, es.count t + (s.agents t).work = ((start S).agents t).work
  untouched : ∀ t, t ∉ es → (s.agents t).held = []

theorem climbing_runs (h : ∀ t, ∀ x ∈ S.todo t, Ordered x)
    (hr : runs step (start S) es = some s) : Climbing S es s := by
  refine runs_induction (P := Climbing S) ?_ (fun es s t s' hc hs => ?_) hr
  · exact ⟨locked_start S, fun t => ⟨h t, fun _ => rfl, by simp [start], by simp [start]⟩,
      fun t => by simp, fun _ _ => rfl⟩
  · have hm := moves_of_step hs
    obtain ⟨hclimbs, hwork⟩ := hm.climbs (hc.climbs t)
    refine ⟨hm.locked hc.locked, fun u => ?_, fun u => ?_, fun u hu => ?_⟩
    · rcases eq_or_ne u t with rfl | hu
      · exact hclimbs
      · rw [hm.others hu]
        exact hc.climbs u
    · have hold := hc.work u
      rcases eq_or_ne u t with rfl | hu
      · rw [List.count_append, List.count_singleton_self]
        omega
      · rw [List.count_append, List.count_singleton, if_neg (by simpa using hu.symm), hm.others hu]
        omega
    · simp only [List.mem_append, List.mem_singleton, not_or] at hu
      rw [hm.others hu.2]
      exact hc.untouched u hu.1

/-- A thread that cannot take a step has nothing to do, or waits for a lock that somebody holds. -/
theorem waits (h : step s t = none) : (s.agents t).finished ∨
    ∃ i m left x, (s.agents t).phase = .acquiring ((i, m) :: left) x ∧ s.holders i ≠ [] := by
  unfold step at h
  dsimp only at h
  split at h
  next hp =>
    split at h
    next ht => exact .inl ⟨hp, ht⟩
    · cases h
  · cases h
  next i m left x hp =>
    split at h
    · cases h
    next hg =>
      refine .inr ⟨i, m, left, x, hp, fun hnone => hg ?_⟩
      rw [hnone]
      cases m <;> rfl
  · cases h
  · cases h
  · split at h <;> cases h

/-- Where nobody can take a step, whoever holds a lock waits for a greater one, which is held too. -/
theorem Climbing.higher (h : Climbing S es s) (hs : step s t = none)
    (hi : (i, m) ∈ (s.agents t).held) : ∃ j u n, i < j ∧ (j, n) ∈ (s.agents u).held := by
  rcases waits hs with hf | ⟨j, n, left, x, hp, hheld⟩
  · rw [(h.climbs t).idle hf.1] at hi
    exact absurd hi List.not_mem_nil
  · obtain ⟨hx, done, hlocks, hdone⟩ := (h.climbs t).acquiring _ x hp
    rw [Ordered, hlocks, List.pairwise_append] at hx
    rw [hdone, List.mem_reverse] at hi
    obtain ⟨⟨u, k⟩, hu⟩ := List.exists_mem_of_ne_nil _ hheld
    exact ⟨j, u, k, hx.2.2 _ hi _ List.mem_cons_self, h.locked.mem_iff.mp hu⟩

/-- **No deadlock**: where nobody can take a step, everybody has finished. -/
theorem finished_of_stuck (h : ∀ t, ∀ x ∈ S.todo t, Ordered x)
    (hr : runs step (start S) es = some s) (hs : ∀ t, step s t = none) (t : τ) :
    (s.agents t).finished := by
  have hc := climbing_runs h hr
  -- the locks that are held
  let locks : Finset ι := (es.flatMap fun u => (s.agents u).held.map Prod.fst).toFinset
  have hmem {i : ι} {u : τ} {m : Mode} (hi : (i, m) ∈ (s.agents u).held) : i ∈ locks := by
    have hu : u ∈ es := by
      by_contra hu
      rw [hc.untouched u hu] at hi
      exact absurd hi List.not_mem_nil
    exact List.mem_toFinset.mpr (List.mem_flatMap.mpr ⟨u, hu, List.mem_map_of_mem hi⟩)
  have hnone (u : τ) (i : ι) (m : Mode) : (i, m) ∉ (s.agents u).held := by
    intro hi
    have hne : locks.Nonempty := ⟨i, hmem hi⟩
    obtain ⟨v, hv, hmax⟩ := List.mem_flatMap.mp (List.mem_toFinset.mp (locks.max'_mem hne))
    obtain ⟨⟨j, n⟩, hj, heq⟩ := List.mem_map.mp hmax
    obtain ⟨k, w, o, hlt, hk⟩ := hc.higher (hs v) hj
    exact absurd (locks.le_max' k (hmem hk)) (not_le.mpr (heq ▸ hlt))
  rcases waits (hs t) with hf | ⟨j, n, left, x, -, hheld⟩
  · exact hf
  · obtain ⟨⟨u, k⟩, hu⟩ := List.exists_mem_of_ne_nil _ hheld
    exact absurd (hc.locked.mem_iff.mp hu) (hnone u j k)

/-- **No thread takes more steps than its sections have**, so every run comes to its end. -/
theorem count_le_work (h : ∀ t, ∀ x ∈ S.todo t, Ordered x)
    (hr : runs step (start S) es = some s) (t : τ) :
    es.count t ≤ ((S.todo t).map Section.steps).sum := by
  have hwork := (climbing_runs h hr).work t
  simp only [start, Agent.work] at hwork
  omega

end Progress

end EzCpp.Lib.Locks
