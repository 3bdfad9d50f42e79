import Clausal.Proofs.AbsorbedPasses
import Clausal.Proofs.Occurrences
import Mathlib.Algebra.BigOperators.Group.List.Basic
import Mathlib.Algebra.GroupWithZero.Nat

/-! Formulas by the number of negations above each node. Moving negations inward deletes them and
turns over what stands below an odd number of them; the rest of the formula stays as it is. -/
namespace Clausal

namespace Polarity

/-- The polarity below so many negations. -/
def below (n : Nat) : Polarity := if n % 2 = 0 then positive else negative

@[simp] theorem below_zero : below 0 = positive := rfl

@[simp] theorem below_succ (n : Nat) : below (n + 1) = (below n).flip := by
  unfold below
  rcases Nat.mod_two_eq_zero_or_one n with h | h
  · rw [if_neg (by omega), if_pos h]
    rfl
  · rw [if_pos (by omega), if_neg (by omega)]
    rfl

end Polarity

namespace Formula

/-- A literal is negated, and a conjunction and a disjunction change places. -/
def turnNode : Formula → Formula
  | lit l => lit (-l)
  | and args => or args
  | or args => and args
  | f => f

theorem turnNode_turnNode (f : Formula) : f.turnNode.turnNode = f := by
  cases f <;> simp [turnNode]

theorem turnNode_mapOperands (φ : Formula → Formula) (f : Formula) :
    (f.mapOperands φ).turnNode = f.turnNode.mapOperands φ := by
  cases f <;> rfl

/-- All conjunctions and disjunctions change places, and all literals are negated. -/
def opposite (f : Formula) : Formula := f.bottomUp turnNode

theorem opposite_eq (f : Formula) : f.opposite = (f.mapOperands opposite).turnNode :=
  bottomUp_eq turnNode f

end Formula

namespace Polarity

/-- What a node becomes that is no negation, once the negations above it are gone. -/
def onNode : Polarity → Formula → Formula
  | positive, f => f
  | negative, f => f.turnNode

@[simp] theorem onNode_positive (f : Formula) : positive.onNode f = f := rfl

@[simp] theorem onNode_negative (f : Formula) : negative.onNode f = f.turnNode := rfl

theorem onNode_flip (p : Polarity) (f : Formula) : p.flip.onNode f = (p.onNode f).turnNode := by
  cases p with
  | positive => rfl
  | negative => exact (f.turnNode_turnNode).symm

theorem onNode_mapOperands (p : Polarity) (φ : Formula → Formula) (f : Formula) :
    p.onNode (f.mapOperands φ) = (p.onNode f).mapOperands φ := by
  cases p with
  | positive => rfl
  | negative => exact f.turnNode_mapOperands φ

theorem conjoin_eq_onNode (p : Polarity) (args : List Formula) :
    p.conjoin args = p.onNode (.and args) := by
  cases p <;> rfl

theorem disjoin_eq_onNode (p : Polarity) (args : List Formula) :
    p.disjoin args = p.onNode (.or args) := by
  cases p <;> rfl

theorem operands_onNode (p : Polarity) (f : Formula) : (p.onNode f).operands = f.operands := by
  cases p <;> cases f <;> rfl

theorem literal?_onNode (p : Polarity) (f : Formula) :
    (p.onNode f).literal? = f.literal?.map p.onLiteral := by
  cases p <;> cases f <;> rfl

end Polarity

namespace Formula

/-- The formula without its negations, as it stands below `n` others. Every other node stays in its
place, turned over if an odd number of negations stood above it. -/
def unnegated : Nat → Formula → Formula
  | n, lit l => (Polarity.below n).onNode (lit l)
  | n, not a => unnegated (n + 1) a
  | n, implies a b => (Polarity.below n).onNode (implies (unnegated n a) (unnegated n b))
  | n, iff a b => (Polarity.below n).onNode (iff (unnegated n a) (unnegated n b))
  | n, and args => (Polarity.below n).onNode (and (args.map fun a => unnegated n a))
  | n, or args => (Polarity.below n).onNode (or (args.map fun a => unnegated n a))

theorem unnegated_eq {f : Formula} (h : f.connective? ≠ some .not) (n : Nat) :
    unnegated n f = (Polarity.below n).onNode (f.mapOperands (unnegated n)) := by
  cases f with
  | not a => exact absurd rfl h
  | _ =>
    rw [unnegated]
    rfl

/-- On what is expanded the recursion that carries the polarity counts negations. -/
theorem nnfAt_below {f : Formula} (h : f.IsExpanded) (n : Nat) :
    nnfAt (Polarity.below n) f = unnegated n f := by
  induction f generalizing n with
  | lit l =>
    rw [nnfAt, unnegated]
    cases Polarity.below n <;> rfl
  | not a ih =>
    rw [nnfAt, unnegated, ← Polarity.below_succ]
    exact ih (h.operand (by simp [operands])) (n + 1)
  | implies a b => exact absurd h (not_isExpanded_implies a b)
  | iff a b => exact absurd h (not_isExpanded_iff a b)
  | and args ih =>
    have hargs : args.map (nnfAt (Polarity.below n)) = args.map (unnegated n) :=
      List.map_congr_left fun a ha => ih a ha (h.operand ha) n
    rw [nnfAt, unnegated, hargs, Polarity.conjoin_eq_onNode]
  | or args ih =>
    have hargs : args.map (nnfAt (Polarity.below n)) = args.map (unnegated n) :=
      List.map_congr_left fun a ha => ih a ha (h.operand ha) n
    rw [nnfAt, unnegated, hargs, Polarity.disjoin_eq_onNode]

/-- Induction that tells negations from all other nodes. -/
@[elab_as_elim]
theorem induction_not {motive : Formula → Prop} (not : ∀ a, motive a → motive (not a))
    (node : ∀ f, f.connective? ≠ some .not → (∀ a ∈ f.operands, motive a) → motive f)
    (f : Formula) : motive f := by
  induction f using induction_operands with
  | step f ih =>
    cases f with
    | not a => exact not a (ih a (by simp [operands]))
    | _ => exact node _ (by simp [connective?]) ih

/-- One more negation above turns everything over. -/
theorem unnegated_succ (n : Nat) (f : Formula) : unnegated (n + 1) f = (unnegated n f).opposite := by
  induction f using induction_not generalizing n with
  | not a ih =>
    rw [unnegated, unnegated]
    exact ih (n + 1)
  | node f h ih =>
    have hoperands : f.mapOperands (unnegated (n + 1)) =
        (f.mapOperands (unnegated n)).mapOperands opposite := by
      rw [mapOperands_mapOperands]
      exact mapOperands_congr fun a ha => ih a ha n
    rw [unnegated_eq h, unnegated_eq h, Polarity.below_succ, Polarity.onNode_flip, hoperands,
      Polarity.onNode_mapOperands, opposite_eq]

/-- The number of negations. -/
def negations (f : Formula) : Nat := f.preorder.countP fun g => g.connective? = some .not

theorem negations_eq (f : Formula) :
    f.negations =
      (f.operands.map negations).sum + if f.connective? = some .not then 1 else 0 := by
  rw [negations, preorder_eq, List.countP_cons, List.countP_flatMap]
  simp only [decide_eq_true_eq]
  rfl

theorem nodeCount_eq (f : Formula) : f.nodeCount = (f.operands.map nodeCount).sum + 1 := by
  have hlength : nodeCount = List.length ∘ preorder := funext nodeCount_eq_length
  rw [nodeCount_eq_length, preorder_eq, List.length_cons, List.length_flatMap, hlength]
  rfl

theorem negations_not (a : Formula) : (not a).negations = a.negations + 1 := by
  rw [negations_eq]
  simp [operands, connective?]

theorem nodeCount_not (a : Formula) : (not a).nodeCount = a.nodeCount + 1 := by
  rw [nodeCount_eq]
  simp [operands]

theorem nodeCount_unnegated (n : Nat) (f : Formula) :
    (unnegated n f).nodeCount + f.negations = f.nodeCount := by
  induction f using induction_not generalizing n with
  | not a ih =>
    have ha := ih (n + 1)
    rw [unnegated, negations_not, nodeCount_not]
    omega
  | node f h ih =>
    have hsum : ((f.operands.map (unnegated n)).map nodeCount).sum +
        (f.operands.map negations).sum = (f.operands.map nodeCount).sum := by
      rw [List.map_map, ← List.sum_map_add]
      exact congrArg List.sum (List.map_congr_left fun a ha => ih a ha n)
    rw [unnegated_eq h, nodeCount_eq, nodeCount_eq f, negations_eq, if_neg h,
      Polarity.operands_onNode, operands_mapOperands]
    omega

theorem literals_unnegated (n : Nat) (f : Formula) :
    (unnegated n f).literals.map Literal.var = f.literals.map Literal.var := by
  induction f using induction_not generalizing n with
  | not a ih => rw [unnegated, literals_not, ih (n + 1)]
  | node f h ih =>
    have hoperands : ((f.operands.map (unnegated n)).flatMap literals).map Literal.var =
        (f.operands.flatMap literals).map Literal.var := by
      rw [List.flatMap_map, List.map_flatMap, List.map_flatMap]
      exact List.flatMap_congr fun a ha => ih a ha n
    rw [unnegated_eq h, literals_eq_operands, literals_eq_operands f, Polarity.operands_onNode,
      operands_mapOperands, List.map_append, List.map_append, hoperands, Polarity.literal?_onNode,
      literal?_mapOperands]
    cases f.literal? with
    | none => rfl
    | some l => simp

theorem negations_of_mem_operands {f a : Formula} (h : f.negations = 0) (ha : a ∈ f.operands) :
    a.negations = 0 := by
  rw [negations, List.countP_eq_zero] at h ⊢
  intro g hg
  apply h g
  rw [preorder_eq]
  exact List.mem_cons_of_mem _ (List.mem_flatMap.2 ⟨a, ha, hg⟩)

theorem unnegated_eq_self {f : Formula} (h : f.negations = 0) : unnegated 0 f = f := by
  induction f using induction_not with
  | not a _ =>
    rw [negations_not] at h
    contradiction
  | node f hnot ih =>
    rw [unnegated_eq hnot]
    exact mapOperands_eq_self fun a ha => ih a ha (negations_of_mem_operands h ha)

/-- Moving negations inward in a formula without implications and equivalences succeeds, deletes
every negation and turns over exactly what stood below an odd number of them. So the nodes that are
lost are the negations, the variables of the literals stay in their order, only a formula without a
negation stays as it is, and the negated formula becomes the opposite. -/
theorem negateInward_eq_unnegated {f : Formula} (hw : f.WellFormed) (he : f.IsExpanded) :
    ∃ g, f.negateInward = .ok g ∧ g = unnegated 0 f ∧
      g.nodeCount + f.negations = f.nodeCount ∧
      g.literals.map Literal.var = f.literals.map Literal.var ∧
      (g = f ↔ f.negations = 0) ∧
      (not f).negateInward = .ok g.opposite := by
  have hnot : (not f).IsExpanded := isExpanded_not.2 he
  have hg : f.negateInward = .ok (unnegated 0 f) := by
    rw [negateInward_eq_ok hw he]
    exact congrArg Except.ok (nnfAt_below he 0)
  have hunder : unnegated 0 (not f) = (unnegated 0 f).opposite := by
    rw [unnegated, unnegated_succ]
  have hopposite : (not f).negateInward = .ok (unnegated 0 f).opposite := by
    rw [negateInward_eq_ok (wellFormed_not.2 hw) hnot, ← hunder]
    exact congrArg Except.ok (nnfAt_below hnot 0)
  have hcount := nodeCount_unnegated 0 f
  have hself : unnegated 0 f = f ↔ f.negations = 0 := by
    refine ⟨fun hfixed => ?_, unnegated_eq_self⟩
    rw [hfixed] at hcount
    omega
  exact ⟨_, hg, rfl, hcount, literals_unnegated 0 f, hself, hopposite⟩

/-- The conjunction stands below one negation, the disjunction and a literal in it below two and
three. -/
theorem negateInward_of_nested_negations :
    let x1 : Literal := .ofWord 1 (by decide)
    let x2 : Literal := .ofWord 2 (by decide)
    let x3 : Literal := .ofWord 3 (by decide)
    let f := not (and [lit x1, not (or [lit (-x2), not (lit x3)])])
    let g := or [lit (-x1), or [lit (-x2), lit (-x3)]]
    f.WellFormed ∧ f.IsExpanded ∧ f.negateInward = .ok g ∧ g.nodeCount + 3 = f.nodeCount ∧
      (not f).negateInward = .ok (and [lit x1, and [lit x2, lit x3]]) := by
  intro x1 x2 x3 f g
  have hw : f.WellFormed := by simp [f]
  have he : f.IsExpanded := by simp [f]
  obtain ⟨r, hr, hunnegated, hcount, -, -, hopposite⟩ := negateInward_eq_unnegated hw he
  have hrg : r = g := by
    rw [hunnegated]
    simp [f, g, unnegated, turnNode]
  have hnegations : f.negations = 3 := by
    simp [f, negations, preorder_eq, operands, connective?]
  rw [hrg] at hr hcount hopposite
  rw [hnegations] at hcount
  refine ⟨hw, he, hr, hcount, ?_⟩
  rw [hopposite]
  simp [g, opposite, bottomUp, turnNode]

end Formula

end Clausal
