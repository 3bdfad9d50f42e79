import Clausal.Polarity
import Clausal.Traversal

/-! Negation normal form: implications and equivalences are expanded, and negations move inward
until they stand at literals only. -/
namespace Clausal.Formula

/-- An equivalence becomes the conjunction of its two implications. -/
def expandIff : Formula → Formula
  | iff a b => and [implies a b, implies b a]
  | f => f

/-- An implication becomes the disjunction of its negated premise and its conclusion. -/
def expandImplies : Formula → Formula
  | implies a b => or [not a, b]
  | f => f

def expandIffs (f : Formula) : Except Fault Formula := f.transform expandIff

def expandImplications (f : Formula) : Except Fault Formula := f.transform expandImplies

/-- Enters a formula under negations of the given polarity. Implications and equivalences have no
place here, as they are expanded first. -/
def enterNegated (p : Polarity) : Formula → Entry Polarity
  | lit l => .result (lit (p.onLiteral l))
  | not _ => .skip p.flip
  | and _ => .descend (p.onConnective .and) p
  | or _ => .descend (p.onConnective .or) p
  | implies _ _ => .refuse (.unexpanded .implies)
  | iff _ _ => .refuse (.unexpanded .iff)

def negating : Traversal Polarity Unit where
  enter := enterNegated
  join := ofConnective
  finish := pure

/-- Moves every negation inward to the literals: a double negation vanishes, and a negated
conjunction or disjunction becomes its dual over negated operands. -/
def negateInward (f : Formula) : Except Fault Formula := ((negating.run .positive f).run ()).1

/-- The formula in literals, conjunctions and disjunctions alone. -/
def nnf (f : Formula) : Except Fault Formula := do
  let f ← f.expandIffs
  let f ← f.expandImplications
  f.negateInward

end Clausal.Formula
