import Clausal.Subformula

/-! Formulas whose conjunctions and disjunctions all have at least two operands, and the fault of
the first node in postorder that has fewer. -/
namespace Clausal.Formula

/-- The property holds of the formula and of every subformula. -/
def Everywhere (P : Formula → Prop) (f : Formula) : Prop := ∀ g ∈ f.preorder, P g

theorem everywhere_iff {P : Formula → Prop} {f : Formula} :
    f.Everywhere P ↔ P f ∧ ∀ a ∈ f.operands, a.Everywhere P := by
  unfold Everywhere
  rw [preorder_eq f]
  simp only [List.forall_mem_cons, List.mem_flatMap]
  grind

theorem Everywhere.self {P : Formula → Prop} {f : Formula} (h : f.Everywhere P) : P f :=
  (everywhere_iff.1 h).1

theorem Everywhere.operand {P : Formula → Prop} {f a : Formula} (h : f.Everywhere P)
    (ha : a ∈ f.operands) : a.Everywhere P :=
  (everywhere_iff.1 h).2 a ha

theorem Everywhere.of_mem {P : Formula → Prop} {f g : Formula} (h : f.Everywhere P)
    (hg : g ∈ f.preorder) : g.Everywhere P := by
  induction f using induction_operands with
  | step f ih =>
    rw [preorder_eq] at hg
    rcases List.mem_cons.1 hg with rfl | hg
    · exact h
    · obtain ⟨a, ha, hg⟩ := List.mem_flatMap.1 hg
      exact ih a ha (h.operand ha) hg

/-- A conjunction or disjunction of fewer than two operands. -/
def IsShort : Formula → Prop
  | and args | or args => args.length < 2
  | _ => False

instance : DecidablePred IsShort := fun f =>
  match f with
  | and args | or args => inferInstanceAs (Decidable (args.length < 2))
  | lit _ | not _ | implies _ _ | iff _ _ => inferInstanceAs (Decidable False)

theorem not_isShort_and {args : List Formula} : ¬ (and args).IsShort ↔ 2 ≤ args.length :=
  Nat.not_lt

theorem not_isShort_or {args : List Formula} : ¬ (or args).IsShort ↔ 2 ≤ args.length :=
  Nat.not_lt

theorem not_isShort_iff {f : Formula} {c : Connective} (h : f.connective? = some c) :
    ¬ f.IsShort ↔ c.arity.Allows f.operands.length := by
  cases f with
  | lit l => cases h
  | and args =>
    cases h
    exact not_isShort_and
  | or args =>
    cases h
    exact not_isShort_or
  | _ =>
    cases h
    simp [IsShort, operands, Connective.arity]

/-- Every conjunction and every disjunction has at least two operands. -/
def WellFormed (f : Formula) : Prop := f.Everywhere fun g => ¬ g.IsShort

theorem not_wellFormed_iff {f : Formula} : ¬ f.WellFormed ↔ ∃ g ∈ f.preorder, g.IsShort := by
  simp [WellFormed, Everywhere]

@[simp] theorem wellFormed_lit (l : Literal) : (lit l).WellFormed := by
  rw [WellFormed, everywhere_iff]
  simp [IsShort, operands]

@[simp] theorem wellFormed_not {a : Formula} : (not a).WellFormed ↔ a.WellFormed := by
  rw [WellFormed, everywhere_iff]
  simp [IsShort, operands, WellFormed]

@[simp] theorem wellFormed_implies {a b : Formula} :
    (implies a b).WellFormed ↔ a.WellFormed ∧ b.WellFormed := by
  rw [WellFormed, everywhere_iff]
  simp [IsShort, operands, WellFormed]

@[simp] theorem wellFormed_iff {a b : Formula} :
    (iff a b).WellFormed ↔ a.WellFormed ∧ b.WellFormed := by
  rw [WellFormed, everywhere_iff]
  simp [IsShort, operands, WellFormed]

@[simp] theorem wellFormed_and {args : List Formula} :
    (and args).WellFormed ↔ 2 ≤ args.length ∧ ∀ a ∈ args, a.WellFormed := by
  rw [WellFormed, everywhere_iff, not_isShort_and]
  rfl

@[simp] theorem wellFormed_or {args : List Formula} :
    (or args).WellFormed ↔ 2 ≤ args.length ∧ ∀ a ∈ args, a.WellFormed := by
  rw [WellFormed, everywhere_iff, not_isShort_or]
  rfl

theorem length_operands_pos {f : Formula} {c : Connective} (hc : f.connective? = some c)
    (h : f.WellFormed) : 0 < f.operands.length := by
  have hallows := (not_isShort_iff hc).1 h.self
  cases c
  case and | or => exact Nat.lt_of_lt_of_le Nat.zero_lt_two hallows
  case not | implies | iff =>
    have hlen := Arity.allows_exactly.1 hallows
    omega

theorem two_le_length_operands {f : Formula} {c : Connective} (hf : f.WellFormed)
    (h : f.connective? = some c) (hc : c ≠ .not) : 2 ≤ f.operands.length := by
  have hallows := (not_isShort_iff h).1 hf.self
  cases c with
  | not => contradiction
  | and | or => exact hallows
  | implies | iff => exact Nat.le_of_eq hallows.symm

/-- The nodes with the operands of a node from left to right before the node itself. -/
def postorder (f : Formula) : List Formula :=
  (f.operands.attach.flatMap fun ⟨a, _⟩ => postorder a) ++ [f]
termination_by sizeOf f
decreasing_by exact sizeOf_lt_of_mem_operands ‹_›

theorem postorder_eq (f : Formula) : f.postorder = f.operands.flatMap postorder ++ [f] := by
  rw [postorder]
  simp [List.flatMap]

theorem mem_postorder {f g : Formula} : g ∈ f.postorder ↔ g ∈ f.preorder := by
  induction f using induction_operands with
  | step f ih =>
    rw [postorder_eq, preorder_eq]
    simp only [List.mem_append, List.mem_flatMap, List.mem_cons]
    grind

theorem findSome?_flatMap {α β γ : Type} (xs : List α) (g : α → List β) (p : β → Option γ) :
    (xs.flatMap g).findSome? p = xs.findSome? fun x => (g x).findSome? p := by
  rw [← List.head?_filterMap, List.filterMap_flatMap, List.head?_flatMap]
  simp only [List.head?_filterMap]

theorem findSome?_congr {α β : Type} {xs : List α} {p q : α → Option β} (h : ∀ x ∈ xs, p x = q x) :
    xs.findSome? p = xs.findSome? q := by
  induction xs with
  | nil => rfl
  | cons x xs ih =>
    have hxs := ih fun y hy => h y (by simp [hy])
    rw [List.findSome?_cons, List.findSome?_cons, h x (by simp), hxs]

/-- The fault of a short node: its connective, and how many operands it has. -/
def arityFault? (f : Formula) : Option Fault :=
  if f.IsShort then f.connective?.map fun c => .arity c f.operands.length else none

/-- The fault of the first short node in postorder. -/
def firstArityFault? (f : Formula) : Option Fault := f.postorder.findSome? arityFault?

theorem arityFault?_eq_none_iff {f : Formula} : f.arityFault? = none ↔ ¬ f.IsShort := by
  unfold arityFault?
  split
  next h => cases f <;> simp_all [connective?, IsShort]
  next h => simp [h]

theorem firstArityFault?_eq_none_iff {f : Formula} :
    f.firstArityFault? = none ↔ f.WellFormed := by
  simp only [firstArityFault?, List.findSome?_eq_none_iff, mem_postorder, arityFault?_eq_none_iff]
  rfl

theorem firstArityFault?_eq (f : Formula) :
    f.firstArityFault? = (f.operands.findSome? firstArityFault?).or f.arityFault? := by
  have hflat : (f.operands.flatMap postorder).findSome? arityFault? =
      f.operands.findSome? firstArityFault? := findSome?_flatMap _ _ _
  rw [firstArityFault?, postorder_eq, List.findSome?_append, hflat, List.findSome?_singleton]

/-- The short node that decides the fault: it is one, and no node before it is. -/
theorem firstArityFault?_eq_some {f : Formula} {e : Fault} (h : f.firstArityFault? = some e) :
    ∃ before g after c, f.postorder = before ++ g :: after ∧ (∀ b ∈ before, ¬ b.IsShort) ∧
      g.IsShort ∧ g.connective? = some c ∧ e = .arity c g.operands.length := by
  obtain ⟨before, g, after, hpost, hg, hbefore⟩ := List.findSome?_eq_some_iff.1 h
  rw [arityFault?] at hg
  split at hg
  next hshort =>
    obtain ⟨c, hc, rfl⟩ := Option.map_eq_some_iff.1 hg
    exact ⟨before, g, after, c, hpost, fun b hb => arityFault?_eq_none_iff.1 (hbefore b hb), hshort,
      hc, rfl⟩
  next => contradiction

theorem exists_arity_of_firstArityFault? {f : Formula} {e : Fault}
    (h : f.firstArityFault? = some e) : ∃ c n, e = .arity c n := by
  obtain ⟨_, g, _, c, -, -, -, -, he⟩ := firstArityFault?_eq_some h
  exact ⟨c, g.operands.length, he⟩

end Clausal.Formula
