import Clausal.Proofs.NegationDepth

/-! What moving negations inward refuses, in the order of a depth-first traversal. An implication or
equivalence is refused on the way down, before its operands are looked at, and a short node on the
way up, after all of its own; the first refusal decides the fault. -/
namespace Clausal

/-- A moment of a traversal: a node is entered or left, below so many negations. -/
inductive Visit where
  | entering (negations : Nat) (f : Formula)
  | leaving (negations : Nat) (f : Formula)

namespace Formula

/-- The number of negations above the operands of a node, if so many stand above the node. -/
def negationsBelow (n : Nat) (f : Formula) : Nat := if f.connective? = some .not then n + 1 else n

/-- The depth-first traversal from left to right, from the moment the formula is entered below so
many negations to the moment it is left. -/
def visits (n : Nat) (f : Formula) : List Visit :=
  .entering n f ::
    (f.operands.attach.flatMap fun ⟨a, _⟩ => visits (f.negationsBelow n) a) ++ [.leaving n f]
termination_by sizeOf f
decreasing_by exact sizeOf_lt_of_mem_operands ‹_›

theorem visits_eq (n : Nat) (f : Formula) :
    visits n f =
      .entering n f :: f.operands.flatMap (visits (f.negationsBelow n)) ++ [.leaving n f] := by
  rw [visits]
  simp [List.flatMap]

end Formula

open Formula

/-- What is refused at a moment: an unexpanded connective on entering it, and too few operands on
leaving them, with the connective that the negations above have made of the node. -/
def Visit.fault? : Visit → Option Fault
  | entering _ (.implies _ _) => some (.unexpanded .implies)
  | entering _ (.iff _ _) => some (.unexpanded .iff)
  | leaving n (.and args) => joinFault? ((Polarity.below n).onConnective .and) args.length
  | leaving n (.or args) => joinFault? ((Polarity.below n).onConnective .or) args.length
  | _ => none

namespace Formula

theorem findSome?_visits_eq (n : Nat) (f : Formula) :
    (visits n f).findSome? Visit.fault? =
      (Visit.entering n f).fault?.or
        ((f.operands.findSome? fun a => (visits (f.negationsBelow n) a).findSome? Visit.fault?).or
          (Visit.leaving n f).fault?) := by
  have hentry : (visits n f).findSome? Visit.fault? =
      (Visit.entering n f).fault?.or
        ((f.operands.flatMap (visits (f.negationsBelow n)) ++ [Visit.leaving n f]).findSome?
          Visit.fault?) := by
    rw [visits_eq, List.cons_append, List.findSome?_cons]
    cases (Visit.entering n f).fault? <;> rfl
  rw [hentry, List.findSome?_append, findSome?_flatMap, List.findSome?_singleton]

/-- The recursion that looks for a fault meets the moments of the traversal in their order. -/
theorem findSome?_visits (n : Nat) (f : Formula) :
    (visits n f).findSome? Visit.fault? = negationFault? (Polarity.below n) f := by
  induction f generalizing n with
  | lit l =>
    rw [findSome?_visits_eq, negationFault?]
    rfl
  | not a ih =>
    rw [findSome?_visits_eq, negationFault?, ← Polarity.below_succ, ← ih (n + 1)]
    simp [Visit.fault?, operands, negationsBelow, connective?]
  | implies a b _ _ =>
    rw [findSome?_visits_eq, negationFault?]
    rfl
  | iff a b _ _ =>
    rw [findSome?_visits_eq, negationFault?]
    rfl
  | and args ih =>
    rw [findSome?_visits_eq, negationFault?_and, ← findSome?_congr fun a ha => ih a ha n]
    rfl
  | or args ih =>
    rw [findSome?_visits_eq, negationFault?_or, ← findSome?_congr fun a ha => ih a ha n]
    rfl

/-- Implications, equivalences and short nodes are what moving negations inward cannot pass. -/
def Offends (f : Formula) : Prop :=
  f.connective? = some .implies ∨ f.connective? = some .iff ∨ f.IsShort

theorem not_wellFormed_isExpanded_iff {f : Formula} :
    ¬ (f.WellFormed ∧ f.IsExpanded) ↔ ∃ g ∈ f.preorder, g.Offends := by
  simp only [WellFormed, IsExpanded, Everywhere, Offends]
  grind

/-- Moving negations inward fails exactly where an implication, an equivalence or a short node
occurs, and always with what the depth-first traversal refuses first. -/
theorem negateInward_fails_iff (f : Formula) :
    ((∃ e, f.negateInward = .error e) ↔ ∃ g ∈ f.preorder, g.Offends) ∧
    ∀ e, f.negateInward = .error e ↔
      ∃ before v after, visits 0 f = before ++ v :: after ∧
        (∀ u ∈ before, u.fault? = none) ∧ v.fault? = some e := by
  have herror : ∀ e, f.negateInward = .error e ↔ negationFault? .positive f = some e := by
    intro e
    rw [negateInward_eq, faultOr_eq_error_iff]
  constructor
  · rw [← not_wellFormed_isExpanded_iff, ← negationFault?_eq_none_iff (p := .positive), ← ne_eq,
      Option.ne_none_iff_exists']
    simp only [herror]
  · intro e
    have hvisits : (visits 0 f).findSome? Visit.fault? = negationFault? .positive f :=
      findSome?_visits 0 f
    rw [herror, ← hvisits, List.findSome?_eq_some_iff]
    simp only [and_comm]

/-- The short disjunction is left before the implication is entered and before the conjunction is
left; the negation above makes it a conjunction. -/
example (a b : Formula) :
    negateInward (not (and [or [], implies a b])) = .error (.arity .and 0) := by cbv

end Formula

end Clausal
