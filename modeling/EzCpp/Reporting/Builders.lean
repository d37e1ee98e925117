import EzCpp.Reporting.Items

/-!
# Log builders

A message is logged by the destructor of the builder that holds it, and builders are moved. What they hold is
kept track of in a ledger: the messages that were made, each with the text that was written to it, and who holds
which. A builder that is assigned to forgets what it held, so that a message is logged once and as it was
written exactly if nothing is assigned to the builder that holds it (`logs_once_iff`).
-/

namespace EzCpp.Reporting

open EzCpp.Lib

/-- The pointer is to a handle. As long as it is there and nothing is assigned to it, it is for the same report,
and the pointer is kept as the number of the report. -/
structure ExecutionLogMessageBuilder where
  report : Option ReportId := none
  message : ExecutionLogMessage := {}

namespace ExecutionLogMessageBuilder

/-- The constructor. -/
def new (r : ReportId) (category : ExecutionLogCategory) (header : String) : ExecutionLogMessageBuilder :=
  ⟨some r, { header, category }⟩

/-- The operator `<<`. -/
def write (b : ExecutionLogMessageBuilder) (text : String) : ExecutionLogMessageBuilder :=
  { b with message := b.message.write text }

/-- What is assigned, and what the right-hand side is afterwards: `moved` is what a message is that was moved
from. -/
def moveAssign (moved : ExecutionLogMessage → ExecutionLogMessage) (rhs : ExecutionLogMessageBuilder) :
    ExecutionLogMessageBuilder × ExecutionLogMessageBuilder :=
  (⟨rhs.report, rhs.message⟩, ⟨none, moved rhs.message⟩)

/-- The destructor. It catches what an observer throws, which is called when the message is stored already. -/
def destruct (w : Recorded) (b : ExecutionLogMessageBuilder) : Option Recorded :=
  match b.report with
  | none => some w
  | some r => w.log r b.message

end ExecutionLogMessageBuilder

namespace Recorded

/-! ## The builders that a report makes -/

def info (r : ReportId) (header : String) : ExecutionLogMessageBuilder := .new r .info header

def warning (r : ReportId) (header : String) : ExecutionLogMessageBuilder := .new r .warning header

def error (r : ReportId) (header : String) : ExecutionLogMessageBuilder := .new r .error header

def success (r : ReportId) (header : String) : ExecutionLogMessageBuilder := .new r .success header

def debug (r : ReportId) (header : String) : ExecutionLogMessageBuilder := .new r .debug header

/-- The one for a category. -/
def builder (r : ReportId) (category : ExecutionLogCategory) (header : String) : ExecutionLogMessageBuilder :=
  match category with
  | .info => info r header
  | .warning => warning r header
  | .error => error r header
  | .success => success r header
  | .debug => debug r header

theorem builder_eq (r : ReportId) (category : ExecutionLogCategory) (header : String) :
    builder r category header = .new r category header := by
  cases category <;> rfl

/-- What is logged goes to the messages of the report, and to those of no other. -/
theorem log_messages {w w' : Recorded} {r : ReportId} {msg : ExecutionLogMessage} (h : w.log r msg = some w')
    (x : ReportId) : (w'.contents x).messages.toList =
      (w.contents x).messages.toList ++ if r = x then [msg] else [] := by
  rw [log_eq] at h
  obtain ⟨rs, -, rfl⟩ := Option.map_eq_some_iff.mp h
  split
  · next hx =>
    rw [← hx, edit_contents_self]
    exact Stable.toList_append _ msg
  · next hx => rw [edit_contents_of_ne _ _ (Ne.symm hx), List.append_nil]

end Recorded

/-- The reports of a process, and the builders that a program has, by their numbers. -/
structure Logging where
  recorded : Recorded
  /-- how many builders were made -/
  size : Nat := 0
  builders : Nat → Option ExecutionLogMessageBuilder := fun _ => none

namespace Logging

inductive Event
  | create (r : ReportId) (category : ExecutionLogCategory) (header : String)
  | write (i : Nat) (text : String)
  | moveConstruct (j : Nat)
  | moveAssign (i j : Nat)
  | destroy (i : Nat)

def set (s : Logging) (i : Nat) (b : Option ExecutionLogMessageBuilder) : Logging :=
  { s with builders := Function.update s.builders i b }

def add (s : Logging) (b : ExecutionLogMessageBuilder) : Logging :=
  { s.set s.size (some b) with size := s.size + 1 }

def step (moved : ExecutionLogMessage → ExecutionLogMessage) (s : Logging) : Event → Option Logging
  | .create r category header =>
    if r < s.recorded.reports.size then some (s.add (Recorded.builder r category header)) else none
  | .write i text => do
    let b ← s.builders i
    some (s.set i (some (b.write text)))
  | .moveConstruct j => do
    let rhs ← s.builders j
    some ((s.set j (some (rhs.moveAssign moved).2)).add (rhs.moveAssign moved).1)
  | .moveAssign i j => do
    let _ ← s.builders i
    let rhs ← s.builders j
    some ((s.set i (some (rhs.moveAssign moved).1)).set j (some (rhs.moveAssign moved).2))
  | .destroy i => do
    let b ← s.builders i
    let recorded ← b.destruct s.recorded
    some { s.set i none with recorded }

/-- The builders that an event names. -/
def Event.named : Event → List Nat
  | .create _ _ _ => []
  | .write i _ | .moveConstruct i | .destroy i => [i]
  | .moveAssign i j => [i, j]

/-- The builders that it names are there, and the report that one is made for. -/
def enabled (s : Logging) (e : Event) : Bool :=
  e.named.all (fun i => (s.builders i).isSome) &&
    match e with
    | .create r _ _ => r < s.recorded.reports.size
    | _ => true

end Logging

/-! ## The ledger -/

/-- The messages that were made for reports, as they are written so far, and which of them a builder holds. -/
structure Ledger where
  made : List (ReportId × ExecutionLogMessage) := []
  size : Nat := 0
  holds : Nat → Option Nat := fun _ => none

namespace Ledger

def set (l : Ledger) (i : Nat) (n : Option Nat) : Ledger := { l with holds := Function.update l.holds i n }

def add (l : Ledger) (n : Option Nat) : Ledger := { l.set l.size n with size := l.size + 1 }

/-- A text is written to the message that the builder holds. -/
def write (l : Ledger) (i : Nat) (text : String) : Ledger :=
  match l.holds i with
  | none => l
  | some n => { l with made := l.made.modify n fun e => (e.1, e.2.write text) }

def step (l : Ledger) : Logging.Event → Ledger
  | .create r category header =>
    { l.add (some l.made.length) with made := l.made ++ [(r, { header, category })] }
  | .write i text => l.write i text
  | .moveConstruct j => (l.set j none).add (l.holds j)
  | .moveAssign i j => (l.set i (l.holds j)).set j none
  | .destroy i => l.set i none

/-- What the events make of the ledger. -/
def ofEvents (es : List Logging.Event) : Ledger := es.foldl step {}

/-- The messages that were made for a report. -/
def madeFor (l : Ledger) (r : ReportId) : List ExecutionLogMessage :=
  (l.made.filter (·.1 = r)).map Prod.snd

/-- The message with a number, if it was made for the report. -/
def sentTo (l : Ledger) (r : ReportId) (n : Nat) : Option ExecutionLogMessage :=
  l.made[n]?.bind fun e => if e.1 = r then some e.2 else none

end Ledger

namespace Logging

/-- **Each message is logged once**, on the report that it was made for and as it was written: what is new in
the reports is what was made for them. -/
def LogsOnce (w : Recorded) (s : Logging) (es : List Event) : Prop := ∀ r, ∃ new,
  (s.recorded.contents r).messages.toList = (w.contents r).messages.toList ++ new ∧
    new.Perm ((Ledger.ofEvents es).madeFor r)

/-- Nothing is assigned to a builder that holds a message. -/
def Careful (s : Logging) : Event → Prop
  | .moveAssign i _ => ∀ b, s.builders i = some b → b.report = none
  | _ => True

/-! ## Where the messages are -/

/-- A builder holds the message that it has in the ledger. -/
inductive Matches (made : List (ReportId × ExecutionLogMessage)) :
    Option ExecutionLogMessageBuilder → Option Nat → Prop
  | gone : Matches made none none
  | empty {b : ExecutionLogMessageBuilder} : b.report = none → Matches made (some b) none
  | held {n : Nat} {r : ReportId} {msg : ExecutionLogMessage} : made[n]? = some (r, msg) →
    Matches made (some ⟨some r, msg⟩) (some n)

/-- **Every message is held by one builder, or logged once, or lost.** -/
structure Inv (w : Recorded) (s : Logging) (l : Ledger) (logged lost : List Nat) : Prop where
  size : l.size = s.size
  beyond : ∀ i, s.size ≤ i → s.builders i = none
  holds : ∀ i, Matches l.made (s.builders i) (l.holds i)
  alone : ∀ i j n, l.holds i = some n → l.holds j = some n → i = j
  cover : ∀ n, n < l.made.length ↔ (∃ i, l.holds i = some n) ∨ n ∈ logged ∨ n ∈ lost
  apart : ∀ i n, l.holds i = some n → n ∉ logged ∧ n ∉ lost
  once : logged.Nodup
  disjoint : ∀ n ∈ logged, n ∉ lost
  messages : ∀ r, (s.recorded.contents r).messages.toList =
    (w.contents r).messages.toList ++ logged.filterMap (l.sentTo r)

variable {moved : ExecutionLogMessage → ExecutionLogMessage} {w : Recorded} {s s' : Logging} {l : Ledger}
  {logged lost : List Nat} {e : Event} {es : List Event} {i j k n m : Nat} {r : ReportId}
  {b rhs : ExecutionLogMessageBuilder} {o : Option ExecutionLogMessageBuilder} {v : Option Nat}
  {made : List (ReportId × ExecutionLogMessage)}

theorem builders_set (s : Logging) (i : Nat) (o : Option ExecutionLogMessageBuilder) (k : Nat) :
    (s.set i o).builders k = if k = i then o else s.builders k := by
  by_cases hk : k = i
  · rw [if_pos hk, hk]
    exact Function.update_self ..
  · rw [if_neg hk]
    exact Function.update_of_ne hk ..

theorem holds_set (l : Ledger) (i : Nat) (v : Option Nat) (k : Nat) :
    (l.set i v).holds k = if k = i then v else l.holds k := by
  by_cases hk : k = i
  · rw [if_pos hk, hk]
    exact Function.update_self ..
  · rw [if_neg hk]
    exact Function.update_of_ne hk ..

theorem set_set (s : Logging) (i : Nat) (o o' : Option ExecutionLogMessageBuilder) :
    (s.set i o).set i o' = s.set i o' := by
  simp only [set, Function.update_idem]

theorem ledger_set_set (l : Ledger) (i : Nat) (v v' : Option Nat) : (l.set i v).set i v' = l.set i v' := by
  simp only [Ledger.set, Function.update_idem]

/-- It is the same whether the new builder or the other one is set first. -/
theorem add_set_set (b b' : ExecutionLogMessageBuilder) (hj : j ≠ s.size) :
    ((s.add b).set s.size (some b')).set j o = (s.set j o).add b' := by
  simp only [add, set, Function.update_idem, Function.update_comm hj]

theorem ledger_add_set_set (v : Option Nat) (hj : j ≠ l.size) :
    ((l.add none).set l.size v).set j none = (l.set j none).add v := by
  simp only [Ledger.add, Ledger.set, Function.update_idem, Function.update_comm hj]

theorem matches_none (h : ∀ b, o = some b → b.report = none) : Matches made o none := by
  cases o with
  | none => exact .gone
  | some b => exact .empty (h b rfl)

theorem Matches.eq_none (h : Matches made none v) : v = none := by
  cases h
  rfl

theorem Matches.eq_none_iff (h : Matches made (some b) v) : v = none ↔ b.report = none := by
  cases h with
  | empty hb => exact iff_of_true rfl hb
  | held hmade => exact iff_of_false (Option.some_ne_none _) (Option.some_ne_none _)

theorem Inv.lt (h : Inv w s l logged lost) (hb : s.builders i = some b) : i < s.size := by
  refine Nat.lt_of_not_le fun hle => ?_
  cases hb.symm.trans (h.beyond i hle)

theorem Inv.holds_size (h : Inv w s l logged lost) : l.holds s.size = none := by
  have hmatch := h.holds s.size
  rw [h.beyond s.size (Nat.le_refl _)] at hmatch
  exact hmatch.eq_none

/-- What is said of each builder goes on, if it goes on for the one that is set. -/
theorem Inv.matches_set (h : Inv w s l logged lost) (hset : Matches l.made o v) (k : Nat) :
    Matches l.made ((s.set i o).builders k) ((l.set i v).holds k) := by
  rw [builders_set, holds_set]
  split
  · exact hset
  · exact h.holds k

theorem Inv.beyond_set (h : Inv w s l logged lost) (hi : i < s.size) (k : Nat) (hk : s.size ≤ k) :
    (s.set i o).builders k = none := by
  rw [builders_set, if_neg (Nat.ne_of_gt (Nat.lt_of_lt_of_le hi hk))]
  exact h.beyond k hk

/-- A builder forgets what it holds. -/
theorem Inv.forget (h : Inv w s l logged lost) (hi : i < s.size)
    (ho : ∀ b, o = some b → b.report = none) :
    Inv w (s.set i o) (l.set i none) logged ((l.holds i).toList ++ lost) where
  size := h.size
  beyond := h.beyond_set hi
  holds := h.matches_set (matches_none ho)
  alone k j n hk hj := by
    rw [holds_set] at hk hj
    split at hk
    · cases hk
    · split at hj
      · cases hj
      · exact h.alone k j n hk hj
  cover n := by
    have hholder : (∃ k, l.holds k = some n) ↔ (∃ k, (l.set i none).holds k = some n) ∨ l.holds i = some n := by
      constructor
      · rintro ⟨k, hk⟩
        by_cases hki : k = i
        · exact .inr (hki ▸ hk)
        · exact .inl ⟨k, by rw [holds_set, if_neg hki, hk]⟩
      · rintro (⟨k, hk⟩ | hi)
        · rw [holds_set] at hk
          split at hk
          · cases hk
          · exact ⟨k, hk⟩
        · exact ⟨i, hi⟩
    refine (h.cover n).trans ?_
    rw [hholder, List.mem_append, Option.mem_toList]
    tauto
  apart k n hn := by
    rw [holds_set] at hn
    split at hn
    · cases hn
    · next hki =>
      obtain ⟨hlogged, hlost⟩ := h.apart k n hn
      refine ⟨hlogged, fun hmem => ?_⟩
      rcases List.mem_append.mp hmem with hmem | hmem
      · exact hki (h.alone k i n hn (Option.mem_toList.mp hmem))
      · exact hlost hmem
  once := h.once
  disjoint n hn hmem := by
    rcases List.mem_append.mp hmem with hmem | hmem
    · exact (h.apart i n (Option.mem_toList.mp hmem)).1 hn
    · exact h.disjoint n hn hmem
  messages := h.messages

/-- After a move, a message that is held is the one that was moved, or is held as before. -/
theorem holds_move (h : ((l.set i (l.holds j)).set j none).holds k = some n) :
    k = i ∧ l.holds j = some n ∨ k ≠ i ∧ k ≠ j ∧ l.holds k = some n := by
  rw [holds_set] at h
  split at h
  · cases h
  · next hkj =>
    rw [holds_set] at h
    split at h
    · next hki => exact .inl ⟨hki, h⟩
    · next hki => exact .inr ⟨hki, hkj, h⟩

/-- A message goes from a builder to one that holds none. -/
theorem Inv.move (moved : ExecutionLogMessage → ExecutionLogMessage) (h : Inv w s l logged lost)
    (hij : i ≠ j) (hi : i < s.size) (hnone : l.holds i = none) (hj : s.builders j = some rhs) :
    Inv w ((s.set i (some (rhs.moveAssign moved).1)).set j (some (rhs.moveAssign moved).2))
      ((l.set i (l.holds j)).set j none) logged lost where
  size := h.size
  beyond k hk := by
    rw [builders_set, if_neg (Nat.ne_of_gt (Nat.lt_of_lt_of_le (h.lt hj) hk))]
    exact h.beyond_set hi k hk
  holds k := by
    have hmoved : Matches l.made (some (rhs.moveAssign moved).1) (l.holds j) := hj ▸ h.holds j
    rw [builders_set, holds_set]
    split
    · exact .empty rfl
    · exact h.matches_set hmoved k
  alone k k' n hk hk' := by
    rcases holds_move hk with ⟨hki, hold⟩ | ⟨hki, hkj, hold⟩ <;>
      rcases holds_move hk' with ⟨hki', hold'⟩ | ⟨hki', hkj', hold'⟩
    · exact hki.trans hki'.symm
    · exact absurd (h.alone k' j n hold' hold) hkj'
    · exact absurd (h.alone k j n hold hold') hkj
    · exact h.alone k k' n hold hold'
  cover n := by
    refine (h.cover n).trans (or_congr_left ⟨fun hex => ?_, fun hex => ?_⟩)
    · obtain ⟨k, hk⟩ := hex
      by_cases hkj : k = j
      · exact ⟨i, by rw [holds_set, if_neg hij, holds_set, if_pos rfl, ← hkj, hk]⟩
      · have hki : k ≠ i := fun he => by cases (he ▸ hk).symm.trans hnone
        exact ⟨k, by rw [holds_set, if_neg hkj, holds_set, if_neg hki, hk]⟩
    · obtain ⟨k, hk⟩ := hex
      rcases holds_move hk with ⟨-, hk⟩ | ⟨-, -, hk⟩
      · exact ⟨j, hk⟩
      · exact ⟨k, hk⟩
  apart k n hn := by
    rcases holds_move hn with ⟨-, hn⟩ | ⟨-, -, hn⟩
    · exact h.apart j n hn
    · exact h.apart k n hn
  once := h.once
  disjoint := h.disjoint
  messages := h.messages

/-- A builder that is made without a message. -/
theorem Inv.add (h : Inv w s l logged lost) (hb : b.report = none) :
    Inv w (s.add b) (l.add none) logged lost := by
  have hnone := h.holds_size
  have hsame : l.add none = { l with size := l.size + 1 } := by
    rw [Ledger.add, h.size, Ledger.set, ← hnone, Function.update_eq_self]
  rw [hsame]
  exact {
    size := congrArg (· + 1) h.size
    beyond := by
      intro k hk
      refine (builders_set s s.size (some b) k).trans ?_
      rw [if_neg (Nat.ne_of_gt hk)]
      exact h.beyond k (Nat.le_of_succ_le hk)
    holds := by
      intro k
      have hset : (s.add b).builders k = if k = s.size then some b else s.builders k :=
        builders_set s s.size (some b) k
      rw [hset]
      split
      · next hk =>
        rw [hk]
        exact hnone ▸ .empty hb
      · exact h.holds k
    alone := h.alone
    cover := h.cover
    apart := h.apart
    once := h.once
    disjoint := h.disjoint
    messages := h.messages }

theorem Matches.of_made {made' : List (ReportId × ExecutionLogMessage)} (h : Matches made o v)
    (hmade : ∀ n ∈ v, made'[n]? = made[n]?) : Matches made' o v := by
  cases h with
  | gone => exact .gone
  | empty hb => exact .empty hb
  | held hn => exact .held ((hmade _ rfl).trans hn)

theorem Inv.lt_made (h : Inv w s l logged lost)
    (hn : (∃ i, l.holds i = some n) ∨ n ∈ logged ∨ n ∈ lost) : n < l.made.length := (h.cover n).mpr hn

theorem Inv.messages_of_made {l' : Ledger} (h : Inv w s l logged lost)
    (hmade : ∀ n ∈ logged, l'.made[n]? = l.made[n]?) (r : ReportId) :
    (s.recorded.contents r).messages.toList =
      (w.contents r).messages.toList ++ logged.filterMap (l'.sentTo r) := by
  have hsent : ∀ n ∈ logged, l.sentTo r n = l'.sentTo r n := fun n hn => by
    rw [Ledger.sentTo, Ledger.sentTo, hmade n hn]
  rw [h.messages r, List.filterMap_congr hsent]

/-- A builder that is made with a new message. -/
theorem Inv.create (h : Inv w s l logged lost) (r : ReportId) (msg : ExecutionLogMessage) :
    Inv w (s.add ⟨some r, msg⟩) { l.add (some l.made.length) with made := l.made ++ [(r, msg)] } logged
      lost := by
  have hnone := h.holds_size
  have hbuilders : ∀ k, (s.add ⟨some r, msg⟩).builders k =
      if k = s.size then some ⟨some r, msg⟩ else s.builders k := builders_set s s.size _
  have hholds : ∀ k, (l.add (some l.made.length)).holds k =
      if k = s.size then some l.made.length else l.holds k := fun k => h.size ▸ holds_set l l.size _ k
  have hold : ∀ n, n < l.made.length → (l.made ++ [(r, msg)])[n]? = l.made[n]? :=
    fun n hn => List.getElem?_append_left hn
  exact {
    size := congrArg (· + 1) h.size
    beyond := by
      intro k hk
      rw [hbuilders, if_neg (Nat.ne_of_gt hk)]
      exact h.beyond k (Nat.le_of_succ_le hk)
    holds := by
      intro k
      rw [hbuilders]
      refine (hholds k).symm ▸ ?_
      split
      · exact .held List.getElem?_concat_length
      · exact (h.holds k).of_made fun n hn => hold n (h.lt_made (.inl ⟨k, hn⟩))
    alone := by
      intro k k' n hk hk'
      have hnew : ∀ k, l.holds k ≠ some l.made.length :=
        fun k hk => Nat.lt_irrefl _ (h.lt_made (.inl ⟨k, hk⟩))
      rw [hholds] at hk hk'
      split at hk <;> split at hk'
      · next hks hks' => exact hks.trans hks'.symm
      · exact absurd (hk'.trans hk.symm) (hnew k')
      · exact absurd (hk.trans hk'.symm) (hnew k)
      · exact h.alone k k' n hk hk'
    cover := by
      intro n
      have hholder : (∃ k, (l.add (some l.made.length)).holds k = some n) ↔
          n = l.made.length ∨ ∃ k, l.holds k = some n := by
        constructor
        · rintro ⟨k, hk⟩
          rw [hholds] at hk
          split at hk
          · exact .inl (Option.some.inj hk).symm
          · exact .inr ⟨k, hk⟩
        · rintro (rfl | ⟨k, hk⟩)
          · exact ⟨s.size, by rw [hholds, if_pos rfl]⟩
          · have hks : k ≠ s.size := fun he => by cases (he ▸ hk).symm.trans hnone
            exact ⟨k, by rw [hholds, if_neg hks, hk]⟩
      refine Iff.trans ?_ (or_congr_left hholder.symm)
      rw [List.length_append, List.length_singleton, Nat.lt_succ_iff_lt_or_eq, h.cover n]
      tauto
    apart := by
      intro k n hn
      rw [hholds] at hn
      split at hn
      · cases hn
        exact ⟨fun hmem => Nat.lt_irrefl _ (h.lt_made (.inr (.inl hmem))),
          fun hmem => Nat.lt_irrefl _ (h.lt_made (.inr (.inr hmem)))⟩
      · exact h.apart k n hn
    once := h.once
    disjoint := h.disjoint
    messages := h.messages_of_made fun n hn => hold n (h.lt_made (.inr (.inl hn))) }

/-- A text is written to what a builder holds. -/
theorem Inv.write (h : Inv w s l logged lost) (hb : s.builders i = some b) (text : String) :
    Inv w (s.set i (some (b.write text))) (l.write i text) logged lost := by
  have hi := h.lt hb
  have hmatch := h.holds i
  rw [hb] at hmatch
  cases hn : l.holds i with
  | none =>
    rw [hn] at hmatch
    have hsame : l.write i text = l := by rw [Ledger.write, hn]
    rw [hsame]
    refine { h with beyond := h.beyond_set hi, holds := fun k => ?_ }
    rw [builders_set]
    split
    · next hk =>
      cases hmatch with
      | empty hreport => exact hk ▸ hn.symm ▸ .empty hreport
    · exact h.holds k
  | some n =>
    rw [hn] at hmatch
    have hwritten : l.write i text = { l with made := l.made.modify n fun e => (e.1, e.2.write text) } := by
      rw [Ledger.write, hn]
    cases hmatch with
    | @held n r msg hmade =>
    have hother : ∀ m, m ≠ n → (l.write i text).made[m]? = l.made[m]? := fun m hm => by
      rw [hwritten]
      exact List.getElem?_modify_ne _ _ (Ne.symm hm)
    have hheld : (l.write i text).made[n]? = some (r, msg.write text) := by
      rw [hwritten]
      exact (List.getElem?_modify_eq _ n l.made).trans (by rw [hmade]; rfl)
    have hholds : (l.write i text).holds = l.holds := by rw [hwritten]
    exact {
      size := by
        rw [hwritten]
        exact h.size
      beyond := h.beyond_set hi
      holds := by
        intro k
        rw [builders_set, hholds]
        split
        · next hk =>
          rw [hk, hn]
          exact .held hheld
        · next hk =>
          refine (h.holds k).of_made fun m hm => hother m ?_
          rintro rfl
          exact hk (h.alone k i m hm hn)
      alone := hholds.symm ▸ h.alone
      cover := by
        intro m
        rw [hholds, ← h.cover m, hwritten, List.length_modify]
      apart := hholds.symm ▸ h.apart
      once := h.once
      disjoint := h.disjoint
      messages := by
        refine h.messages_of_made fun m hm => hother m ?_
        rintro rfl
        exact (h.apart i m hn).1 hm }

/-- A builder is destroyed, and logs what it holds. -/
theorem Inv.log (h : Inv w s l logged lost) (hb : s.builders i = some b) (hn : l.holds i = some n)
    {recorded : Recorded} (hlog : b.destruct s.recorded = some recorded) :
    Inv w { s.set i none with recorded } (l.set i none) (logged ++ [n]) lost := by
  have hmatch := h.holds i
  rw [hb, hn] at hmatch
  cases hmatch with
  | @held n r msg hmade =>
  have hforgot := h.forget (o := none) (h.lt hb) fun b hnone => by cases hnone
  obtain ⟨hlogged, hlost⟩ := h.apart i n hn
  have hlater : ∀ k m, (l.set i none).holds k = some m → m ≠ n := by
    intro k m hk he
    have hmem : n ∈ (l.holds i).toList ++ lost := by
      rw [hn]
      exact List.mem_append_left _ List.mem_cons_self
    exact (hforgot.apart k m hk).2 (he ▸ hmem)
  exact {
    size := h.size
    beyond := hforgot.beyond
    holds := hforgot.holds
    alone := hforgot.alone
    cover := by
      intro m
      rw [hforgot.cover m, hn, List.mem_append, List.mem_append, Option.toList_some, List.mem_singleton]
      tauto
    apart := by
      intro k m hk
      obtain ⟨hm, hmlost⟩ := hforgot.apart k m hk
      refine ⟨fun hmem => ?_, fun hmem => hmlost (List.mem_append_right _ hmem)⟩
      rcases List.mem_append.mp hmem with hmem | hmem
      · exact hm hmem
      · exact hlater k m hk (List.mem_singleton.mp hmem)
    once := List.nodup_append.mpr ⟨h.once, List.nodup_singleton n, fun m hm m' hm' he =>
      hlogged (List.mem_singleton.mp hm' ▸ he ▸ hm)⟩
    disjoint := by
      intro m hm
      rcases List.mem_append.mp hm with hm | hm
      · exact h.disjoint m hm
      · exact List.mem_singleton.mp hm ▸ hlost
    messages := by
      intro x
      have hsent : [n].filterMap (l.sentTo x) = if r = x then [msg] else [] := by
        rw [List.filterMap_cons, List.filterMap_nil, Ledger.sentTo, hmade]
        by_cases hx : r = x
        · rw [if_pos hx, Option.bind_some, if_pos hx]
        · rw [if_neg hx, Option.bind_some, if_neg hx]
      rw [List.filterMap_append]
      refine (Recorded.log_messages hlog x).trans ?_
      rw [h.messages x, List.append_assoc]
      exact congrArg _ (congrArg _ hsent.symm) }

/-- A builder takes what another one holds, and forgets what it held itself. -/
theorem Inv.assign (h : Inv w s l logged lost) (hb : s.builders i = some b) (hj : s.builders j = some rhs) :
    Inv w ((s.set i (some (rhs.moveAssign moved).1)).set j (some (rhs.moveAssign moved).2))
      ((l.set i (l.holds j)).set j none) logged ((l.holds i).toList ++ lost) := by
  by_cases hij : i = j
  · subst hij
    rw [set_set, ledger_set_set]
    refine h.forget (h.lt hb) fun b hb => ?_
    cases hb
    rfl
  · have hforgot := h.forget (o := some {}) (h.lt hb) fun b hb => by
      cases hb
      rfl
    have hnone : (l.set i none).holds i = none := by rw [holds_set, if_pos rfl]
    have hother : (s.set i (some {})).builders j = some rhs := by
      rw [builders_set, if_neg (Ne.symm hij), hj]
    have hmoved := hforgot.move moved hij (h.lt hb) hnone hother
    rwa [set_set, ledger_set_set, holds_set, if_neg (Ne.symm hij)] at hmoved

/-- A builder is made of another one. -/
theorem Inv.construct (h : Inv w s l logged lost) (hj : s.builders j = some rhs) :
    Inv w ((s.set j (some (rhs.moveAssign moved).2)).add (rhs.moveAssign moved).1)
      ((l.set j none).add (l.holds j)) logged lost := by
  have hne : j ≠ s.size := Nat.ne_of_lt (h.lt hj)
  have hnel : j ≠ l.size := h.size.symm ▸ hne
  have hadded := h.add (b := {}) rfl
  have hnone : (l.add none).holds s.size = none := by
    rw [← h.size]
    exact (holds_set l l.size none l.size).trans (if_pos rfl)
  have hholds : (l.add none).holds j = l.holds j := (holds_set l l.size none j).trans (if_neg hnel)
  have hother : (s.add {}).builders j = some rhs := by
    refine (builders_set s s.size _ j).trans ?_
    rw [if_neg hne, hj]
  have hmoved := hadded.move moved (Ne.symm hne) (Nat.lt_succ_self s.size) hnone hother
  rwa [add_set_set _ _ hne, hholds, ← h.size, ledger_add_set_set _ hnel] at hmoved

/-- **Every event keeps it**, and loses a message only where one is assigned to its builder. -/
theorem step_inv (h : Inv w s l logged lost) (hs : step moved s e = some s') :
    ∃ logged' lost', Inv w s' (l.step e) logged' (lost' ++ lost) ∧ (lost' = [] ↔ Careful s e) := by
  cases e with
  | create r category header =>
    obtain ⟨-, hs⟩ := Option.ite_none_right_eq_some.mp hs
    cases hs
    rw [Recorded.builder_eq]
    exact ⟨logged, [], h.create r _, iff_of_true rfl trivial⟩
  | write i text =>
    obtain ⟨b, hb, hs⟩ := Option.bind_eq_some_iff.mp hs
    cases hs
    exact ⟨logged, [], h.write hb text, iff_of_true rfl trivial⟩
  | moveConstruct j =>
    obtain ⟨rhs, hj, hs⟩ := Option.bind_eq_some_iff.mp hs
    cases hs
    exact ⟨logged, [], h.construct hj, iff_of_true rfl trivial⟩
  | moveAssign i j =>
    obtain ⟨b, hb, hs⟩ := Option.bind_eq_some_iff.mp hs
    obtain ⟨rhs, hj, hs⟩ := Option.bind_eq_some_iff.mp hs
    cases hs
    have hmatch := h.holds i
    rw [hb] at hmatch
    refine ⟨logged, (l.holds i).toList, h.assign hb hj, ?_⟩
    rw [Option.toList_eq_nil_iff, hmatch.eq_none_iff]
    refine ⟨fun hreport b' hb' => ?_, fun hcareful => hcareful b hb⟩
    cases hb.symm.trans hb'
    exact hreport
  | destroy i =>
    obtain ⟨b, hb, hs⟩ := Option.bind_eq_some_iff.mp hs
    obtain ⟨recorded, hlog, hs⟩ := Option.bind_eq_some_iff.mp hs
    cases hs
    have hmatch := h.holds i
    rw [hb] at hmatch
    cases hn : l.holds i with
    | none =>
      rw [hn] at hmatch
      rw [ExecutionLogMessageBuilder.destruct, hmatch.eq_none_iff.mp rfl] at hlog
      cases hlog
      have hforgot := h.forget (o := none) (h.lt hb) fun b hnone => by cases hnone
      rw [hn] at hforgot
      exact ⟨logged, [], hforgot, iff_of_true rfl trivial⟩
    | some n => exact ⟨logged ++ [n], [], h.log hb hn hlog, iff_of_true rfl trivial⟩

theorem start_inv (w : Recorded) : Inv w { recorded := w } {} [] [] where
  size := rfl
  beyond _ _ := rfl
  holds _ := .gone
  alone i j n hi := by cases hi
  cover n := iff_of_false (Nat.not_lt_zero n) fun h => by
    rcases h with ⟨i, hi⟩ | hn | hn
    · cases hi
    · cases hn
    · cases hn
  apart i n hi := by cases hi
  once := List.nodup_nil
  disjoint n hn := by cases hn
  messages r := (List.append_nil _).symm

theorem ofEvents_concat (es : List Event) (e : Event) :
    Ledger.ofEvents (es ++ [e]) = (Ledger.ofEvents es).step e := List.foldl_concat ..

/-- **All along a run** every message is held, logged once or lost, and none is lost where nothing is assigned
to a builder that holds one. -/
theorem runs_inv (h : runs (step moved) { recorded := w } es = some s) : ∃ logged lost,
    Inv w s (Ledger.ofEvents es) logged lost ∧
      (lost = [] ↔ Along (step moved) Careful { recorded := w } es) := by
  refine runs_induction_reachable (P := fun es s => ∃ logged lost, Inv w s (Ledger.ofEvents es) logged lost ∧
    (lost = [] ↔ Along (step moved) Careful { recorded := w } es)) ?_ ?_ h
  · exact ⟨[], [], start_inv w, iff_of_true rfl .nil⟩
  · intro es s e s' hrun hinv hs
    obtain ⟨logged, lost, hinv, hlost⟩ := hinv
    obtain ⟨logged', lost', hinv', hcareful⟩ := step_inv hinv hs
    rw [ofEvents_concat]
    refine ⟨logged', lost' ++ lost, hinv', ?_⟩
    rw [along_concat hrun, List.append_eq_nil_iff, hlost, hcareful]
    exact and_comm

/-! ## At the end -/

theorem filterMap_sentTo (l : Ledger) (r : ReportId) :
    (List.range l.made.length).filterMap (l.sentTo r) = l.madeFor r := by
  have hnumbers : (List.range l.made.length).map (l.made[·]?) = l.made.map some := by
    refine List.ext_getElem (by simp) fun n hn _ => ?_
    have hlt : n < l.made.length := by simpa using hn
    simp [List.getElem?_eq_getElem hlt]
  have hsent : l.sentTo r = (fun o => o.bind fun e => if e.1 = r then some e.2 else none) ∘ (l.made[·]?) := rfl
  rw [hsent, ← List.filterMap_map, hnumbers, List.filterMap_map, Ledger.madeFor, ← List.filterMap_eq_map,
    List.filterMap_filter]
  refine List.filterMap_congr fun e _ => ?_
  simp only [Function.comp_apply, Option.bind_some, decide_eq_true_eq]

/-- Where no builder is left, every message was logged or lost. -/
theorem Inv.lt_made_iff (h : Inv w s l logged lost) (hend : ∀ i, s.builders i = none) :
    n < l.made.length ↔ n ∈ logged ∨ n ∈ lost := by
  refine (h.cover n).trans (or_iff_right ?_)
  rintro ⟨i, hi⟩
  have hmatch := h.holds i
  rw [hend i] at hmatch
  cases hi.symm.trans hmatch.eq_none

/-- Where none was lost, what was logged is what was made. -/
theorem Inv.perm_of_none_lost (h : Inv w s l logged []) (hend : ∀ i, s.builders i = none) (r : ReportId) :
    (logged.filterMap (l.sentTo r)).Perm (l.madeFor r) := by
  have hnumbers : logged.Perm (List.range l.made.length) := by
    refine (List.perm_ext_iff_of_nodup h.once List.nodup_range).mpr fun n => ?_
    rw [List.mem_range, h.lt_made_iff hend, or_iff_left List.not_mem_nil]
  rw [← filterMap_sentTo]
  exact hnumbers.filterMap _

/-- A lost message is missing from what was logged on its report. -/
theorem Inv.length_lt_of_lost (h : Inv w s l logged lost) (hn : n ∈ lost) :
    ∃ r, (logged.filterMap (l.sentTo r)).length < (l.madeFor r).length := by
  have hlt : n < l.made.length := (h.cover n).mpr (.inr (.inr hn))
  have hsent : l.sentTo l.made[n].1 n = some l.made[n].2 := by
    rw [Ledger.sentTo, List.getElem?_eq_getElem hlt, Option.bind_some, if_pos rfl]
  have hnodup : (n :: logged).Nodup := List.nodup_cons.mpr ⟨fun hlogged => h.disjoint n hlogged hn, h.once⟩
  have hsubset : n :: logged ⊆ List.range l.made.length := by
    intro m hm
    rw [List.mem_range, h.cover m]
    rcases List.mem_cons.mp hm with rfl | hm
    · exact .inr (.inr hn)
    · exact .inr (.inl hm)
  obtain ⟨numbers, hperm, hsublist⟩ := hnodup.subperm hsubset
  refine ⟨l.made[n].1, ?_⟩
  have hle := (hsublist.filterMap (l.sentTo l.made[n].1)).length_le
  rw [(hperm.filterMap _).length_eq, filterMap_sentTo, List.filterMap_cons_some hsent] at hle
  exact hle

theorem Inv.logsOnce_iff (h : Inv w s (Ledger.ofEvents es) logged lost) (hend : ∀ i, s.builders i = none) :
    LogsOnce w s es ↔ lost = [] := by
  constructor
  · intro honce
    refine List.eq_nil_iff_forall_not_mem.mpr fun n hn => ?_
    obtain ⟨r, hlt⟩ := h.length_lt_of_lost hn
    obtain ⟨new, hnew, hperm⟩ := honce r
    rw [h.messages r, List.append_cancel_left_eq] at hnew
    rw [hnew, hperm.length_eq] at hlt
    exact Nat.lt_irrefl _ hlt
  · rintro rfl r
    exact ⟨_, h.messages r, h.perm_of_none_lost hend r⟩

/-! ## Every event can happen -/

/-- The walks up end, so that what is logged can be told. -/
structure Alive (s : Logging) : Prop where
  forest : s.recorded.reports.Forest
  bounded : s.recorded.reports.Bounded

theorem Alive.destruct (h : s.Alive) (b : ExecutionLogMessageBuilder) : ∃ recorded,
    b.destruct s.recorded = some recorded ∧ s.recorded.reports.SameLinks recorded.reports := by
  cases hreport : b.report with
  | none => exact ⟨s.recorded, by rw [ExecutionLogMessageBuilder.destruct, hreport], .refl _⟩
  | some r =>
    refine ⟨{ s.recorded with reports := s.recorded.reports.writeLog r b.message.category }.edit r
      (·.addMessage r b.message), ?_, s.recorded.reports.sameLinks_writeLog r b.message.category⟩
    rw [ExecutionLogMessageBuilder.destruct, hreport]
    exact (Recorded.log_eq ..).trans (by rw [h.forest.log_eq h.bounded]; rfl)

theorem step_alive (h : s.Alive) (hs : step moved s e = some s') : s'.Alive := by
  cases e with
  | create r category header =>
    obtain ⟨-, hs⟩ := Option.ite_none_right_eq_some.mp hs
    cases hs
    exact ⟨h.forest, h.bounded⟩
  | write i text =>
    obtain ⟨b, -, hs⟩ := Option.bind_eq_some_iff.mp hs
    cases hs
    exact ⟨h.forest, h.bounded⟩
  | moveConstruct j =>
    obtain ⟨rhs, -, hs⟩ := Option.bind_eq_some_iff.mp hs
    cases hs
    exact ⟨h.forest, h.bounded⟩
  | moveAssign i j =>
    obtain ⟨b, -, hs⟩ := Option.bind_eq_some_iff.mp hs
    obtain ⟨rhs, -, hs⟩ := Option.bind_eq_some_iff.mp hs
    cases hs
    exact ⟨h.forest, h.bounded⟩
  | destroy i =>
    obtain ⟨b, -, hs⟩ := Option.bind_eq_some_iff.mp hs
    obtain ⟨recorded, hlog, hs⟩ := Option.bind_eq_some_iff.mp hs
    cases hs
    obtain ⟨recorded', hlog', hlinks⟩ := h.destruct b
    cases hlog.symm.trans hlog'
    exact ⟨hlinks.forest h.forest, hlinks.bounded h.bounded⟩

theorem isSome_of_named (h : s.enabled e = true) (hi : i ∈ e.named) : ∃ b, s.builders i = some b := by
  have hall := (Bool.and_eq_true_iff.mp h).1
  exact Option.isSome_iff_exists.mp (List.all_eq_true.mp hall i hi)

/-- Nothing but a builder that is not there, or a report, keeps an event from happening. -/
theorem Alive.step_isSome (h : s.Alive) (he : s.enabled e = true) : (step moved s e).isSome = true := by
  cases e with
  | create r category header =>
    have hr : r < s.recorded.reports.size := of_decide_eq_true (Bool.and_eq_true_iff.mp he).2
    rw [step, if_pos hr]
    rfl
  | write i text =>
    obtain ⟨b, hb⟩ := isSome_of_named he List.mem_cons_self
    rw [step, hb]
    rfl
  | moveConstruct j =>
    obtain ⟨rhs, hj⟩ := isSome_of_named he List.mem_cons_self
    rw [step, hj]
    rfl
  | moveAssign i j =>
    obtain ⟨b, hb⟩ := isSome_of_named he List.mem_cons_self
    obtain ⟨rhs, hj⟩ := isSome_of_named he (List.mem_cons_of_mem _ List.mem_cons_self)
    rw [step, hb, hj]
    rfl
  | destroy i =>
    obtain ⟨b, hb⟩ := isSome_of_named he List.mem_cons_self
    obtain ⟨recorded, hlog, -⟩ := h.destruct b
    rw [step, hb, Option.bind_eq_bind, Option.bind_some, hlog]
    rfl

theorem alive {calls : List Recorded.Call} (hw : runs Recorded.step {} calls = some w)
    (h : runs (step moved) { recorded := w } es = some s) : s.Alive :=
  runs_invariant (P := Alive) (fun _ _ _ => step_alive) h
    ⟨(Recorded.forest hw).1, (Recorded.forest hw).2⟩

/-- **A message is lost exactly by an assignment to the builder that holds it.** Every event can happen where
its builders are there, and when the last builder is destroyed, each message was logged once and as it was
written if and only if nothing was ever assigned to a builder that held one. -/
theorem logs_once_iff {calls : List Recorded.Call} (hw : runs Recorded.step {} calls = some w)
    (h : runs (step moved) { recorded := w } es = some s) :
    (∀ e, s.enabled e = true → (step moved s e).isSome = true) ∧
      ((∀ i, s.builders i = none) →
        (LogsOnce w s es ↔ Along (step moved) Careful { recorded := w } es)) := by
  refine ⟨fun e => (alive hw h).step_isSome, fun hend => ?_⟩
  obtain ⟨logged, lost, hinv, hlost⟩ := runs_inv h
  exact (hinv.logsOnce_iff hend).trans hlost

/-- What is left of a message after its texts were moved. -/
abbrev emptied (msg : ExecutionLogMessage) : ExecutionLogMessage := { msg with header := "", body := "" }

/-- No builder is left, once as many are destroyed as were made. -/
theorem none_left (h : runs (step moved) { recorded := w } es = some s)
    (hnone : (List.range s.size).all (fun i => (s.builders i).isNone) = true) (i : Nat) :
    s.builders i = none := by
  obtain ⟨logged, lost, hinv, -⟩ := runs_inv h
  rcases Nat.lt_or_ge i s.size with hi | hi
  · exact Option.isNone_iff_eq_none.mp (List.all_eq_true.mp hnone i (List.mem_range.mpr hi))
  · exact hinv.beyond i hi

/-- A builder that is moved on, written to and destroyed. -/
theorem logs_once_iff_moved_on : ∃ w s, runs Recorded.step {} [.new] = some w ∧
    runs (step emptied) { recorded := w }
      [.create 0 .info "toto", .moveConstruct 0, .write 1 "titi", .destroy 1, .destroy 0] = some s ∧
    (∀ e, s.enabled e = true → (step emptied s e).isSome = true) ∧
    (LogsOnce w s [.create 0 .info "toto", .moveConstruct 0, .write 1 "titi", .destroy 1, .destroy 0] ↔
      Along (step emptied) Careful { recorded := w }
        [.create 0 .info "toto", .moveConstruct 0, .write 1 "titi", .destroy 1, .destroy 0]) := by
  have hruns : ((runs Recorded.step {} [.new]).bind fun w => (runs (step emptied) { recorded := w }
      [.create 0 .info "toto", .moveConstruct 0, .write 1 "titi", .destroy 1, .destroy 0]).filter fun s =>
        (List.range s.size).all fun i => (s.builders i).isNone).isSome = true := by decide
  obtain ⟨s, hs⟩ := Option.isSome_iff_exists.mp hruns
  obtain ⟨w, hw, hs⟩ := Option.bind_eq_some_iff.mp hs
  obtain ⟨hs, hnone⟩ := Option.filter_eq_some_iff.mp hs
  obtain ⟨hreturns, hiff⟩ := logs_once_iff hw hs
  exact ⟨w, s, hw, hs, hreturns, hiff (none_left hs hnone)⟩

/-- The message `toto` is lost where the builder for `titi` is assigned to the one that holds it. -/
theorem toto_lost : ∃ w s, runs Recorded.step {} [.new] = some w ∧
    runs (step emptied) { recorded := w }
      [.create 0 .info "toto", .create 0 .info "titi", .moveAssign 0 1, .destroy 1, .destroy 0] = some s ∧
    (∀ i, s.builders i = none) ∧
    ¬ LogsOnce w s
      [.create 0 .info "toto", .create 0 .info "titi", .moveAssign 0 1, .destroy 1, .destroy 0] := by
  have hruns : ((runs Recorded.step {} [.new]).bind fun w => (runs (step emptied) { recorded := w }
      [.create 0 .info "toto", .create 0 .info "titi", .moveAssign 0 1, .destroy 1, .destroy 0]).filter fun s =>
        (List.range s.size).all (fun i => (s.builders i).isNone) &&
          (s.recorded.contents 0).messages.toList.length == 1 &&
          (w.contents 0).messages.toList.length == 0).isSome = true := by decide
  obtain ⟨s, hs⟩ := Option.isSome_iff_exists.mp hruns
  obtain ⟨w, hw, hs⟩ := Option.bind_eq_some_iff.mp hs
  obtain ⟨hs, hchecked⟩ := Option.filter_eq_some_iff.mp hs
  simp only [Bool.and_eq_true, beq_iff_eq] at hchecked
  obtain ⟨⟨hnone, hone⟩, hzero⟩ := hchecked
  refine ⟨w, s, hw, hs, none_left hs hnone, fun honce => ?_⟩
  obtain ⟨new, hnew, hperm⟩ := honce 0
  have hlength := congrArg List.length hnew
  rw [List.length_append, hone, hzero, hperm.length_eq] at hlength
  exact absurd hlength (by decide)

end Logging

end EzCpp.Reporting
