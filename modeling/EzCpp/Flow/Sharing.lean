import EzCpp.Flow.Value

/-!
# Storage that is shared

Between two heaps nothing may have changed but one cell, and new storage (`Heap.SameBut`). An entity
none of whose storage is this cell, or does not exist yet, is `Heap.Separate` from the change: it has
the same value in both heaps, and so has all that can be read through it (`reads_congr`).
-/

namespace EzCpp.Flow

open EzCpp.Lib Ast

namespace Heap

/-- Nothing that exists in `h` is different in `h'`, except for the storage `st`. -/
structure SameBut (st : Option Storage) (h h' : Heap) : Prop where
  next : h.next ≤ h'.next
  cell : ∀ k a, a < h.next → some ⟨k, a⟩ ≠ st → h'.cell k a = h.cell k a

/-- All storage of the entity exists, and `st` is not part of it. -/
def Separate (st : Option Storage) (h : Heap) (e : Entity) : Prop :=
  ∀ part, h.Contains e part → part.address < h.next ∧ some part ≠ st

variable {st : Option Storage} {h h' h'' : Heap} {e : Entity}

theorem SameBut.refl (st : Option Storage) (h : Heap) : SameBut st h h :=
  ⟨Nat.le_refl _, fun _ _ _ _ => rfl⟩

theorem SameBut.trans (hs : SameBut st h h') (hs' : SameBut st h' h'') : SameBut st h h'' where
  next := hs.next.trans hs'.next
  cell k a ha hne := (hs'.cell k a (ha.trans_le hs.next) hne).trans (hs.cell k a ha hne)

theorem sameBut_alloc (st : Option Storage) (h : Heap) (k : Kind) (c : k.Content) :
    SameBut st h (h.alloc k c) :=
  ⟨Nat.le_succ _, fun _ _ ha _ => h.alloc_cell_of_lt c ha⟩

theorem sameBut_write (h : Heap) (k : Kind) (a : Nat) (c : k.Content) :
    SameBut (some ⟨k, a⟩) h (h.write k a c) :=
  ⟨Nat.le_refl _, fun _ _ _ hne => h.write_cell_of_ne c fun he => hne (congrArg some he)⟩

/-- Writing to new storage is nothing new. -/
theorem SameBut.write_new {part : Storage} (hs : SameBut st h h') (hp : h.next ≤ part.address)
    (hs' : SameBut (some part) h' h'') : SameBut st h h'' where
  next := hs.next.trans hs'.next
  cell k a ha hne := by
    refine (hs'.cell k a (ha.trans_le hs.next) fun he => ?_).trans (hs.cell k a ha hne)
    cases he
    exact absurd ha (Nat.not_lt.2 hp)

theorem Separate.child (hs : Separate st h e) {x : Entity} (hx : x ∈ h.children e) :
    Separate st h x :=
  fun part hp => hs part (.child hx hp)

theorem Separate.cell (hs : Separate st h e) (hb : SameBut st h h') {k : Kind} {a : Nat}
    (he : e.storage = some ⟨k, a⟩) : h'.cell k a = h.cell k a := by
  obtain ⟨ha, hne⟩ := hs ⟨k, a⟩ (.here he)
  exact hb.cell k a ha hne

/-- An entity that holds storage that has changed, or is new. -/
def Changed (st : Option Storage) (h : Heap) (e : Entity) : Prop :=
  ∃ part, e.storage = some part ∧ (part.address < h.next → some part = st)

theorem SameBut.agree (hb : SameBut st h h') :
    LabelledGraph.AgreeOff (Changed st h) h.graph h'.graph := by
  have cell : ∀ e, ¬ Changed st h e → ∀ k a, e.storage = some ⟨k, a⟩ →
      h'.cell k a = h.cell k a := by
    intro e he k a hst
    have lt : a < h.next := by
      by_contra hn
      exact he ⟨_, hst, fun ha => absurd ha hn⟩
    exact hb.cell k a lt fun hne => he ⟨_, hst, fun _ => hne⟩
  constructor
  · intro e he
    cases e <;> simp only [graph, label]
    all_goals rw [cell _ he _ _ rfl]
  · intro e he
    cases e <;> simp only [graph, children]
    all_goals rw [cell _ he _ _ rfl]

theorem Separate.not_reaches (hs : Separate st h e) : ¬ h.graph.Reaches (Changed st h) e := by
  intro hr
  induction hr with
  | here hc =>
    obtain ⟨part, hp, hc⟩ := hc
    obtain ⟨hlt, hne⟩ := hs part (.here hp)
    exact hne (hc hlt)
  | child hx _ ih => exact ih (hs.child hx)

/-- **A separate entity keeps its value.** -/
theorem Separate.hasValue_iff (hs : Separate st h e) (hb : SameBut st h h') {x : Value} :
    h'.HasValue e x ↔ h.HasValue e x :=
  LabelledGraph.unfolds_iff_of_not_reaches hb.agree hs.not_reaches

theorem Separate.contains_iff (hs : Separate st h e) (hb : SameBut st h h') {part : Storage} :
    h'.Contains e part ↔ h.Contains e part :=
  LabelledGraph.reaches_iff_of_not_reaches hb.agree hs.not_reaches

end Heap

/-- The storage that an assignment to the entity writes to. -/
def Entity.overwritten : Entity → Option Storage
  | .integer a => some ⟨.integer, a⟩
  | .array a => some ⟨.array, a⟩
  | _ => none

theorem storage_eq_iff {w : Entity} {st : Storage} (hw : w.overwritten = some st) (x : Entity) :
    x.storage = some st ↔ x = w := by
  cases w <;> cases hw
  all_goals cases x <;> simp [Entity.storage]

theorem contains_iff {h : Heap} {w e : Entity} {st : Storage} (hw : w.overwritten = some st) :
    h.Contains e st ↔ h.graph.Reaches (· = w) e := by
  rw [Heap.Contains, funext fun x => propext (storage_eq_iff hw x)]

theorem storage_of_overwritten {e : Entity} {st : Storage} (h : e.overwritten = some st) :
    e.storage = some st := by
  cases e <;> first | exact h | cases h

section Assign

variable {h : Heap} {lhs v : Entity}

/-- The default assignment writes nothing. -/
theorem afterAssign_default (hw : lhs.overwritten = none) : h.afterAssign lhs v = h := by
  have rebinds : (∃ what, h.assign lhs v = .error what) ∨ ∃ e, h.assign lhs v = .ok (h, e) := by
    unfold Heap.assign
    split
    next => cases hw
    next => cases hw
    next =>
      split
      · exact .inl ⟨_, rfl⟩
      · exact .inr ⟨v, rfl⟩
  unfold Heap.afterAssign
  rcases rebinds with ⟨what, hr⟩ | ⟨e, hr⟩ <;> rw [hr]

/-- Otherwise, what is assigned is written, unless it is refused. -/
theorem afterAssign_cases {st : Storage} (hw : lhs.overwritten = some st) :
    h.afterAssign lhs v = h ∨ ∃ c, h.afterAssign lhs v = h.write st.kind st.address c := by
  cases lhs <;> cases hw
  all_goals cases v <;> first | exact .inr ⟨_, rfl⟩ | exact .inl rfl

theorem sameBut_assign (h : Heap) (lhs v : Entity) :
    Heap.SameBut lhs.overwritten h (h.afterAssign lhs v) := by
  cases hw : lhs.overwritten with
  | none =>
    rw [afterAssign_default hw]
    exact .refl none h
  | some st =>
    rcases afterAssign_cases (h := h) (v := v) hw with hr | ⟨c, hr⟩
    · rw [hr]
      exact .refl _ h
    · rw [hr]
      exact h.sameBut_write _ _ c

/-- What is assigned is what is there already: nothing is read differently afterwards. -/
def Heap.Same (h : Heap) (lhs rhs : Entity) : Prop :=
  match lhs, rhs with
  | .integer a, .real b => h.cell .integer a = (h.cell .real b).toInt64
  | .integer _, .integer _ | .array _, .array _ => LabelledGraph.Alike h.graph h.graph rhs lhs
  | _, _ => True

theorem agree_write {k : Kind} {a : Nat} (hw : lhs.overwritten = some ⟨k, a⟩) (c : k.Content) :
    LabelledGraph.AgreeOff (· = lhs) h.graph (h.write k a c).graph := by
  have := h.graph_write k a c
  rwa [funext fun x => propext (storage_eq_iff hw x)] at this

/-- **Who sees an assignment.** An entity is read as before if, and only if, what is assigned was
there already, or what it is assigned to is not part of the entity. -/
theorem alike_afterAssign_iff {e : Entity} :
    LabelledGraph.Alike (h.afterAssign lhs v).graph h.graph e e ↔
      h.Same lhs v ∨ ¬ h.graph.Reaches (· = lhs) e := by
  have refused (hs : h.afterAssign lhs v = h) : LabelledGraph.Alike (h.afterAssign lhs v).graph h.graph e e := by
    rw [hs]
    exact fun _ => rfl
  cases lhs with
  | integer a =>
    have agree (c : Kind.integer.Content) : LabelledGraph.AgreeOff (· = .integer a) h.graph
        (h.write .integer a c).graph := agree_write rfl c
    cases v with
    | integer b =>
      have label : (h.write .integer a (h.cell .integer b)).label (.integer a) = h.label (.integer b) :=
        congrArg Label.integer (h.write_cell_self .integer a _)
      exact (LabelledGraph.alike_update_iff (agree _)).trans
        (or_congr_left (LabelledGraph.alike_copy_iff (agree _) label rfl))
    | real b =>
      refine (LabelledGraph.alike_update_iff (agree _)).trans (or_congr_left ⟨fun hl => ?_, fun hl => ?_⟩)
      · have label := Label.integer.inj hl.label
        rw [Heap.write_cell_self] at label
        exact label.symm
      · refine LabelledGraph.alike_of_leaves (congrArg Label.integer ?_) rfl rfl
        rw [Heap.write_cell_self]
        exact hl.symm
    | _ => exact iff_of_true (refused rfl) (.inl trivial)
  | array a =>
    cases v with
    | array b =>
      have agree : LabelledGraph.AgreeOff (· = .array a) h.graph
        (h.write .array a (h.cell .array b)).graph := agree_write rfl _
      exact (LabelledGraph.alike_update_iff agree).trans
        (or_congr_left (LabelledGraph.alike_copy_iff agree rfl (h.write_cell_self .array a _)))
    | _ => exact iff_of_true (refused rfl) (.inl trivial)
  | _ => exact iff_of_true (refused (afterAssign_default rfl)) (.inl trivial)

end Assign

/-! ## Paths -/

/-- What is read from an entity on. -/
def ReadsFrom (s : State) (e : Entity) (names : List Identifier) (x : Value) : Prop :=
  ∃ y, (evalProperties e names s).exit = .ok y ∧
    ((evalProperties e names).after s).heap.HasValue y x

theorem reads_iff_readsFrom {s : State} {path : IdentifierPath} {e : Entity}
    (he : s.findEntity path.front = some e) (x : Value) :
    s.Reads path x ↔ ReadsFrom s e path.properties x := by
  have run : evalIdentifierPath path s = evalProperties e path.properties s := by
    rw [evalIdentifierPath, Eval.gets, Coroutine.gets_bind, he]
  rw [State.Reads, ReadsFrom, Coroutine.after, Coroutine.after, run]

theorem readsFrom_nil {s : State} {e : Entity} {x : Value} :
    ReadsFrom s e [] x ↔ s.heap.HasValue e x := by
  constructor
  · rintro ⟨y, hy, hx⟩
    cases hy
    exact hx
  · exact fun hx => ⟨e, rfl, hx⟩

/-- Reading a property, then the rest of the path. -/
theorem readsFrom_cons {s : State} {e : Entity} {name : Identifier} {names : List Identifier}
    {x : Value} : ReadsFrom s e (name :: names) x ↔ ∃ y, (getProperty e name s).exit = .ok (.ok y) ∧
      ReadsFrom ((getProperty e name).after s) y names x := by
  have next : ∀ y, (Eval.ensureValue (.ok y) >>= fun e => evalProperties e names) =
      evalProperties y names := fun y => Coroutine.pure_bind y _
  rw [ReadsFrom, evalProperties]
  constructor
  · rintro ⟨z, hz, hx⟩
    obtain ⟨r, hr, hrest⟩ := Coroutine.of_bind_ok hz
    rw [Coroutine.after_bind_ok hr] at hx
    cases r with
    | ok y =>
      rw [next] at hrest hx
      exact ⟨y, hr, z, hrest, hx⟩
    | error what => cases hrest
  · rintro ⟨y, hy, z, hz, hx⟩
    refine ⟨z, ?_, ?_⟩
    · rw [Coroutine.bind_ok hy, next]
      exact hz
    · rw [Coroutine.after_bind_ok hy, next]
      exact hx

/-- Neither an array nor a dictionary: there are no properties, and no other entities in it. -/
def Entity.isAtom : Entity → Bool
  | .array _ | .dictionary _ _ | .workflowInvocation _ _ _ => false
  | _ => true

theorem children_atom (h : Heap) {e : Entity} (he : e.isAtom) : h.graph.children e = [] := by
  cases e <;> first | rfl | cases he

theorem readsFrom_atom {s : State} {e : Entity} (he : e.isAtom) {names : List Identifier}
    {x : Value} : ReadsFrom s e names x ↔ names = [] ∧ x = .node (s.heap.label e) [] := by
  have children := children_atom s.heap he
  cases names with
  | nil =>
    rw [readsFrom_nil]
    constructor
    · rintro ⟨hx⟩
      rw [children] at hx
      cases hx
      exact ⟨rfl, rfl⟩
    · rintro ⟨-, rfl⟩
      exact .node (children ▸ .nil)
  | cons name names =>
    have run : ∃ what, (getProperty e name s).exit = .ok (.error what) := by
      cases e <;> first | exact ⟨_, rfl⟩ | cases he
    obtain ⟨what, run⟩ := run
    simp [readsFrom_cons, run]

section Congr

variable {st : Option Storage} {s t : State} {e : Entity}

/-- A size is computed; any other property is there in both heaps, or in none. -/
theorem getProperty_congr (hs : s.heap.Separate st e) (hb : Heap.SameBut st s.heap t.heap)
    (name : Identifier) :
    (∃ n, getProperty e name s = ⟨.ok (.ok (.integer s.heap.next)), [.alloc .integer n]⟩ ∧
      getProperty e name t = ⟨.ok (.ok (.integer t.heap.next)), [.alloc .integer n]⟩) ∨
    ∃ r, (∀ x, r = .ok x → (∃ type name, x = .memberFunction type name) ∨ x ∈ s.heap.children e) ∧
      getProperty e name s = ⟨.ok r, []⟩ ∧ getProperty e name t = ⟨.ok r, []⟩ := by
  cases e with
  | array a =>
    have cell : t.heap.cell .array a = s.heap.cell .array a := hs.cell hb rfl
    by_cases hn : name = "size"
    · refine .inl ⟨Int64.ofNat (s.heap.cell .array a).length, ?_, ?_⟩
      · simp only [getProperty, if_pos hn]
        rfl
      · rw [← cell]
        simp only [getProperty, if_pos hn]
        rfl
    · refine .inr ⟨.error ("Property '" ++ name ++ "' not found"), (fun _ hx => by cases hx), ?_, ?_⟩
      all_goals
        simp only [getProperty, if_neg hn]
        rfl
  | dictionary k a =>
    have cell : t.heap.cell .dictionary a = s.heap.cell .dictionary a := hs.cell hb rfl
    by_cases hn : name = "size"
    · refine .inl ⟨Int64.ofNat (s.heap.cell .dictionary a).size, ?_, ?_⟩
      · simp only [getProperty, if_pos hn]
        rfl
      · rw [← cell]
        simp only [getProperty, if_pos hn]
        rfl
    by_cases hi : name = "insert"
    · refine .inr ⟨.ok (.memberFunction k.name "insert"), fun x hx => .inl ⟨k.name, "insert", ?_⟩, ?_, ?_⟩
      · exact (Except.ok.inj hx).symm
      all_goals
        simp only [getProperty, if_neg hn, if_pos hi]
        rfl
    have run := run_getProperty_entry ⟨hn, hi⟩ k a
    refine .inr ⟨_, fun x hx => .inr ?_, run s, by rw [run t, cell]⟩
    cases hf : (s.heap.cell .dictionary a).find? name with
    | some y =>
      rw [hf] at hx
      cases hx
      exact List.mem_map.2 ⟨_, SortedMap.mem_of_find? hf, rfl⟩
    | none =>
      rw [hf] at hx
      cases hx
  | _ => exact .inr ⟨.error ("Property '" ++ name ++ "' not found"), (fun _ hx => by cases hx), rfl, rfl⟩

/-- **A separate entity is read as before**, along every path. -/
theorem readsFrom_congr (hs : s.heap.Separate st e) (hb : Heap.SameBut st s.heap t.heap)
    (names : List Identifier) (x : Value) : ReadsFrom t e names x ↔ ReadsFrom s e names x := by
  induction names generalizing e with
  | nil => rw [readsFrom_nil, readsFrom_nil, hs.hasValue_iff hb]
  | cons name names ih =>
    rw [readsFrom_cons, readsFrom_cons]
    rcases getProperty_congr hs hb name with ⟨n, hrs, hrt⟩ | ⟨r, hr, hrs, hrt⟩
    · have value : ∀ (u : State) y, ReadsFrom (u.apply (.alloc .integer n)) (.integer u.heap.next)
          names y ↔ names = [] ∧ y = .node (.integer n) [] := by
        intro u y
        rw [readsFrom_atom rfl]
        simp only [State.apply, Heap.label, Heap.alloc_cell_self]
      simp only [Coroutine.after, hrs, hrt, Exit.ok.injEq, Except.ok.injEq, exists_eq_left',
        List.foldl_cons, List.foldl_nil, value]
    · simp only [Coroutine.after, hrs, hrt, Exit.ok.injEq, List.foldl_nil]
      refine exists_congr fun y => and_congr_right fun hy => ?_
      rcases hr y hy with ⟨type, name, rfl⟩ | hx
      · rw [readsFrom_atom rfl, readsFrom_atom rfl]
        rfl
      · exact ih (hs.child hx)

end Congr

end EzCpp.Flow
