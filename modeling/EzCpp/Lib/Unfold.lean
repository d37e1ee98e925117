import Mathlib.Data.List.Forall2

/-!
# Graphs that unfold to trees

A node of a graph has a label and a list of children. What a node stands for is the finite tree it
unfolds to, if there is one (`LabelledGraph.Unfolds`). Nodes that can be reached from each other
stand for no tree, since a tree is bigger than the trees below it. A change of the graph at nodes
that cannot be reached from a node changes nothing about this node (`LabelledGraph.Unfolds.frame`).

Nodes that stand for no tree are told apart by what is read along paths (`LabelledGraph.Alike`). A
change of one node is seen from just the nodes it can be reached from, unless it is seen nowhere
(`LabelledGraph.alike_update_iff`).
-/

namespace EzCpp.Lib

structure LabelledGraph (N L : Type) where
  label : N → L
  children : N → List N

inductive LabelledTree (L : Type)
  | node (label : L) (children : List (LabelledTree L))

namespace LabelledTree

variable {L : Type}

def label : LabelledTree L → L
  | node l _ => l

def children : LabelledTree L → List (LabelledTree L)
  | node _ ts => ts

mutual

def size : LabelledTree L → Nat
  | node _ ts => 1 + sizes ts

def sizes : List (LabelledTree L) → Nat
  | [] => 0
  | t :: ts => size t + sizes ts

end

/-- The label of the tree, or of a tree below it. -/
inductive Occurs (l : L) : LabelledTree L → Prop
  | here {ts : List (LabelledTree L)} : Occurs l (.node l ts)
  | child {l' : L} {t : LabelledTree L} {ts : List (LabelledTree L)} (ht : t ∈ ts)
      (h : Occurs l t) : Occurs l (.node l' ts)

theorem forall_occurs_node {P : L → Prop} {l : L} {ts : List (LabelledTree L)} :
    (∀ l', Occurs l' (.node l ts) → P l') ↔ P l ∧ ∀ t ∈ ts, ∀ l', Occurs l' t → P l' := by
  constructor
  · exact fun h => ⟨h l .here, fun t ht l' ho => h l' (.child ht ho)⟩
  · rintro ⟨h, hs⟩ l' ho
    cases ho with
    | here => exact h
    | child ht ho => exact hs _ ht l' ho

end LabelledTree

variable {N L : Type} {G H : LabelledGraph N L} {P : N → Prop} {e : N} {t u : LabelledTree L}

namespace LabelledGraph

mutual

inductive Unfolds (G : LabelledGraph N L) : N → LabelledTree L → Prop
  | node {e : N} {ts : List (LabelledTree L)} (h : UnfoldsAll G (G.children e) ts) :
      Unfolds G e (.node (G.label e) ts)

inductive UnfoldsAll (G : LabelledGraph N L) : List N → List (LabelledTree L) → Prop
  | nil : UnfoldsAll G [] []
  | cons {e : N} {es : List N} {t : LabelledTree L} {ts : List (LabelledTree L)} (h : Unfolds G e t)
      (hs : UnfoldsAll G es ts) : UnfoldsAll G (e :: es) (t :: ts)

end

/-- A node with the property can be reached. -/
inductive Reaches (G : LabelledGraph N L) (P : N → Prop) : N → Prop
  | here {e : N} (h : P e) : Reaches G P e
  | child {e x : N} (hx : x ∈ G.children e) (h : Reaches G P x) : Reaches G P e

/-- The graphs are the same but for nodes with the property. -/
structure AgreeOff (P : N → Prop) (G H : LabelledGraph N L) : Prop where
  label : ∀ e, ¬ P e → H.label e = G.label e
  children : ∀ e, ¬ P e → H.children e = G.children e

theorem AgreeOff.symm (h : AgreeOff P G H) : AgreeOff P H G :=
  ⟨fun e he => (h.label e he).symm, fun e he => (h.children e he).symm⟩

mutual

/-- **A node unfolds to one tree.** -/
theorem Unfolds.unique : ∀ {e : N} {t u : LabelledTree L}, G.Unfolds e t → G.Unfolds e u → t = u
  | _, _, _, .node h, .node h' => congrArg _ (h.unique h')

theorem UnfoldsAll.unique : ∀ {es : List N} {ts us : List (LabelledTree L)},
    G.UnfoldsAll es ts → G.UnfoldsAll es us → ts = us
  | _, _, _, .nil, .nil => rfl
  | _, _, _, .cons h hs, .cons h' hs' => congrArg₂ _ (h.unique h') (hs.unique hs')

end

theorem UnfoldsAll.mem {es : List N} {ts : List (LabelledTree L)} (h : G.UnfoldsAll es ts) {x : N}
    (hx : x ∈ es) : ∃ u, G.Unfolds x u ∧ u.size ≤ LabelledTree.sizes ts := by
  induction es generalizing ts with
  | nil => cases hx
  | cons e es ih =>
    cases h with
    | cons h hs =>
      rcases List.mem_cons.1 hx with rfl | hx
      · exact ⟨_, h, by rw [LabelledTree.sizes]; omega⟩
      · obtain ⟨u, hu, hle⟩ := ih hs hx
        exact ⟨u, hu, by rw [LabelledTree.sizes]; omega⟩

theorem Unfolds.child (h : G.Unfolds e t) {x : N} (hx : x ∈ G.children e) :
    ∃ u, G.Unfolds x u ∧ u.size < t.size := by
  cases h with
  | node h =>
    obtain ⟨u, hu, hle⟩ := h.mem hx
    exact ⟨u, hu, by rw [LabelledTree.size]; omega⟩

theorem Unfolds.reaches (hr : G.Reaches P e) (h : G.Unfolds e t) :
    ∃ w u, P w ∧ G.Unfolds w u ∧ u.size ≤ t.size := by
  induction hr generalizing t with
  | here he => exact ⟨_, t, he, h, Nat.le_refl _⟩
  | child hx _ ih =>
    obtain ⟨u, hu, hlt⟩ := h.child hx
    obtain ⟨w, v, hw, hv, hle⟩ := ih hu
    exact ⟨w, v, hw, hv, Nat.le_trans hle (Nat.le_of_lt hlt)⟩

/-- What can be reached from below is smaller. -/
theorem Unfolds.reaches_child (h : G.Unfolds e t) {x : N} (hx : x ∈ G.children e)
    (hr : G.Reaches P x) : ∃ w u, P w ∧ G.Unfolds w u ∧ u.size < t.size := by
  obtain ⟨u, hu, hlt⟩ := h.child hx
  obtain ⟨w, v, hw, hv, hle⟩ := hu.reaches hr
  exact ⟨w, v, hw, hv, Nat.lt_of_le_of_lt hle hlt⟩

/-- **No node with a tree is below itself.** -/
theorem Unfolds.acyclic (h : G.Unfolds e t) {x : N} (hx : x ∈ G.children e) :
    ¬ G.Reaches (· = e) x := by
  intro hr
  obtain ⟨w, u, rfl, hu, hlt⟩ := h.reaches_child hx hr
  rw [hu.unique h] at hlt
  exact Nat.lt_irrefl _ hlt

theorem Reaches.congr (h : AgreeOff P G H) (hr : G.Reaches P e) : H.Reaches P e := by
  induction hr with
  | here he => exact .here he
  | @child e x hx hr ih =>
    by_cases he : P e
    · exact .here he
    · exact .child (by rwa [h.children e he]) ih

theorem reaches_congr (h : AgreeOff P G H) : H.Reaches P e ↔ G.Reaches P e :=
  ⟨Reaches.congr h.symm, Reaches.congr h⟩

mutual

/-- **The frame rule**: what cannot be reached can be changed. -/
theorem Unfolds.frame (h : AgreeOff P G H) : ∀ {e : N} {t : LabelledTree L}, ¬ G.Reaches P e →
    G.Unfolds e t → H.Unfolds e t
  | e, _, hr, .node hs => by
    have he : ¬ P e := fun hp => hr (.here hp)
    rw [← h.label e he]
    refine .node ?_
    rw [h.children e he]
    exact UnfoldsAll.frame h (fun x hx hrx => hr (.child hx hrx)) hs

theorem UnfoldsAll.frame (h : AgreeOff P G H) : ∀ {es : List N} {ts : List (LabelledTree L)},
    (∀ x ∈ es, ¬ G.Reaches P x) → G.UnfoldsAll es ts → H.UnfoldsAll es ts
  | _, _, _, .nil => .nil
  | e :: _, _, hr, .cons he hs =>
    .cons (Unfolds.frame h (hr e List.mem_cons_self) he)
      (UnfoldsAll.frame h (fun x hx => hr x (List.mem_cons_of_mem _ hx)) hs)

end

theorem unfolds_iff_of_not_reaches (h : AgreeOff P G H) (hr : ¬ G.Reaches P e) :
    H.Unfolds e t ↔ G.Unfolds e t :=
  ⟨Unfolds.frame h.symm fun hh => hr (hh.congr h.symm), Unfolds.frame h hr⟩

theorem Reaches.frame {Q : N → Prop} (h : AgreeOff P G H) (hn : ¬ G.Reaches P e)
    (hr : G.Reaches Q e) : H.Reaches Q e := by
  induction hr with
  | here hq => exact .here hq
  | @child e x hx _ ih =>
    refine .child ?_ (ih fun hp => hn (.child hx hp))
    rwa [h.children e fun hp => hn (.here hp)]

theorem reaches_iff_of_not_reaches {Q : N → Prop} (h : AgreeOff P G H) (hn : ¬ G.Reaches P e) :
    H.Reaches Q e ↔ G.Reaches Q e :=
  ⟨Reaches.frame h.symm fun hr => hn (hr.congr h.symm), Reaches.frame h hn⟩

/-- **The rule of an update.** Of the nodes that stand for the new tree of `w`, one is `w` itself,
unless its new children lead back to it; the others stood for this tree before, and `w` is not part
of them. -/
theorem unfolds_update_iff {w : N} {ts : List (LabelledTree L)} (h : AgreeOff (· = w) G H)
    (hs : G.UnfoldsAll (H.children w) ts) : H.Unfolds e (.node (H.label w) ts) ↔
      e = w ∧ (∀ x ∈ H.children w, ¬ G.Reaches (· = w) x) ∨
      ¬ G.Reaches (· = w) e ∧ G.Unfolds e (.node (H.label w) ts) := by
  have self : (∀ x ∈ H.children w, ¬ G.Reaches (· = w) x) → H.Unfolds w (.node (H.label w) ts) :=
    fun hn => .node (UnfoldsAll.frame h hn hs)
  have back : ∀ {t}, H.Unfolds w t → ∀ x ∈ H.children w, ¬ G.Reaches (· = w) x :=
    fun ht x hx hr => ht.acyclic hx (hr.congr h)
  constructor
  · intro he
    by_cases hw : e = w
    · subst hw
      exact .inl ⟨rfl, back he⟩
    · have apart : ¬ G.Reaches (· = w) e := by
        intro hr
        cases hr.congr h with
        | here hw' => exact hw hw'
        | child hx hr =>
          obtain ⟨_, u, rfl, hu, hlt⟩ := he.reaches_child hx hr
          rw [hu.unique (self (back hu))] at hlt
          exact Nat.lt_irrefl _ hlt
      exact .inr ⟨apart, (unfolds_iff_of_not_reaches h apart).1 he⟩
  · rintro (⟨rfl, hn⟩ | ⟨hr, he⟩)
    · exact self hn
    · exact (unfolds_iff_of_not_reaches h hr).2 he

/-! ### Reading along paths -/

/-- The label at the end of a path, which is given by the positions of the children on it. -/
def labelAt? (G : LabelledGraph N L) : N → List Nat → Option L
  | e, [] => some (G.label e)
  | e, n :: ns => (G.children e)[n]?.bind fun x => G.labelAt? x ns

/-- Two nodes that are read alike along every path, each in its graph. -/
def Alike (G H : LabelledGraph N L) (e x : N) : Prop := ∀ ns, G.labelAt? e ns = H.labelAt? x ns

theorem labelAt?_cons {n : Nat} {x : N} (hx : (G.children e)[n]? = some x) (ns : List Nat) :
    G.labelAt? e (n :: ns) = G.labelAt? x ns := by
  rw [labelAt?, hx, Option.bind_some]

theorem Alike.label {e x : N} (h : Alike G H e x) : G.label e = H.label x := Option.some.inj (h [])

theorem alike_of_leaves {e x : N} (hl : G.label e = H.label x) (he : G.children e = [])
    (hx : H.children x = []) : Alike G H e x := by
  intro ns
  cases ns with
  | nil => exact congrArg some hl
  | cons n ns => rw [labelAt?, labelAt?, he, hx]; rfl

theorem Alike.children_length {e x : N} (h : Alike G H e x) :
    (G.children e).length = (H.children x).length := by
  have same (n : Nat) : n < (G.children e).length ↔ n < (H.children x).length := by
    have isSome (G : LabelledGraph N L) (e : N) :
        (G.labelAt? e [n]).isSome ↔ n < (G.children e).length := by
      simp [labelAt?, Option.isSome_bind]
    rw [← isSome, ← isSome, h [n]]
  exact Nat.le_antisymm (Nat.not_lt.mp fun hlt => Nat.lt_irrefl _ ((same _).mp hlt))
    (Nat.not_lt.mp fun hlt => Nat.lt_irrefl _ ((same _).mpr hlt))

theorem Alike.child {e x y z : N} {n : Nat} (h : Alike G H e x) (hy : (G.children e)[n]? = some y)
    (hz : (H.children x)[n]? = some z) : Alike G H y z := fun ns => by
  rw [← labelAt?_cons hy, ← labelAt?_cons hz, h]

mutual

/-- **Nodes that are read alike stand for the same tree.** -/
theorem Alike.unfolds : ∀ {e x : N} {t : LabelledTree L}, Alike G H e x → G.Unfolds e t →
    H.Unfolds x t
  | e, x, _, h, .node hs => by
    rw [h.label]
    refine .node (Alike.unfoldsAll ?_ hs)
    exact List.forall₂_iff_get.mpr ⟨h.children_length, fun n hn hn' =>
      h.child (List.getElem?_eq_getElem hn) (List.getElem?_eq_getElem hn')⟩

theorem Alike.unfoldsAll : ∀ {es xs : List N} {ts : List (LabelledTree L)},
    List.Forall₂ (Alike G H) es xs → G.UnfoldsAll es ts → H.UnfoldsAll xs ts
  | _, _, _, .nil, .nil => .nil
  | _, _, _, .cons h hs, .cons he hes => .cons (Alike.unfolds h he) (Alike.unfoldsAll hs hes)

end

theorem Unfolds.inv (h : G.Unfolds e t) :
    G.label e = t.label ∧ G.UnfoldsAll (G.children e) t.children := by
  cases h with
  | node h => exact ⟨rfl, h⟩

theorem UnfoldsAll.bind_congr {f g : N → Option L}
    (hfg : ∀ e x t, G.Unfolds e t → H.Unfolds x t → f e = g x) :
    ∀ {es xs : List N} {ts : List (LabelledTree L)}, G.UnfoldsAll es ts → H.UnfoldsAll xs ts →
      ∀ n : Nat, es[n]?.bind f = xs[n]?.bind g
  | _, _, _, .nil, .nil, _ => rfl
  | _, _, _, .cons h _, .cons h' _, 0 => hfg _ _ _ h h'
  | _, _, _, .cons _ hs, .cons _ hs', n + 1 => hs.bind_congr hfg hs' n

/-- Nodes that stand for the same tree are read alike. -/
theorem Unfolds.alike {e x : N} (h : G.Unfolds e t) (h' : H.Unfolds x t) : Alike G H e x := by
  intro ns
  induction ns generalizing e x t with
  | nil => exact congrArg some (h.inv.1.trans h'.inv.1.symm)
  | cons n ns ih => exact h.inv.2.bind_congr (fun _ _ _ => ih) h'.inv.2 n

theorem Alike.symm {e x : N} (h : Alike G H e x) : Alike H G x e := fun ns => (h ns).symm

theorem Alike.unfolds_iff {e x : N} (h : Alike G H e x) : G.Unfolds e t ↔ H.Unfolds x t :=
  ⟨h.unfolds, h.symm.unfolds⟩

/-- **Who sees an update.** After a change of `w` a node is read as before if, and only if, `w` is, or
`w` cannot be reached from it. -/
theorem alike_update_iff {w : N} (h : AgreeOff (· = w) G H) :
    Alike H G e e ↔ Alike H G w w ∨ ¬ G.Reaches (· = w) e := by
  constructor
  · rw [or_iff_not_imp_right, not_not]
    intro he hr
    induction hr with
    | here hw => exact hw ▸ he
    | @child e x hx _ ih =>
      by_cases hw : e = w
      · exact hw ▸ he
      · obtain ⟨n, hn⟩ := List.getElem?_of_mem hx
        exact ih (he.child ((congrArg (·[n]?) (h.children e hw)).trans hn) hn)
  · intro hcase ns
    induction ns generalizing e with
    | nil =>
      by_cases hw : e = w
      · subst hw
        exact (hcase.resolve_right (not_not.mpr (.here rfl))) []
      · exact congrArg some (h.label e hw)
    | cons n ns ih =>
      by_cases hw : e = w
      · subst hw
        exact (hcase.resolve_right (not_not.mpr (.here rfl))) (n :: ns)
      · rw [labelAt?, labelAt?, h.children e hw]
        cases hx : (G.children e)[n]? with
        | none => rfl
        | some x =>
          exact ih (hcase.imp_right fun hr hrx => hr (.child (List.mem_of_getElem? hx) hrx))

/-- **When an update is seen nowhere**: the node gets what another one has, which was read like it. -/
theorem alike_copy_iff {w v : N} (h : AgreeOff (· = w) G H) (hl : H.label w = G.label v)
    (hc : H.children w = G.children v) : Alike H G w w ↔ Alike G G v w := by
  constructor
  · intro hw ns
    have all (e : N) : Alike H G e e := (alike_update_iff h).mpr (.inl hw)
    rw [← hw ns]
    cases ns with
    | nil => exact congrArg some hl.symm
    | cons n ns =>
      rw [labelAt?, labelAt?, hc]
      exact congrArg _ (funext fun x => (all x ns).symm)
  · intro hv
    have all (ns : List Nat) (e : N) : H.labelAt? e ns = G.labelAt? e ns := by
      induction ns generalizing e with
      | nil =>
        by_cases hw : e = w
        · rw [hw, ← hv [], labelAt?, labelAt?, hl]
        · rw [labelAt?, labelAt?, h.label e hw]
      | cons n ns ih =>
        by_cases hw : e = w
        · rw [hw, ← hv (n :: ns), labelAt?, labelAt?, hc, funext ih]
        · rw [labelAt?, labelAt?, h.children e hw, funext ih]
    exact fun ns => all ns w

end LabelledGraph

end EzCpp.Lib
