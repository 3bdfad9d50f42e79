import Clausal.Literal

/-! The side on which a subformula stands: under an even or an odd number of negations. -/
namespace Clausal

inductive Polarity where
  | positive
  | negative
  deriving DecidableEq, Repr

namespace Polarity

def flip : Polarity → Polarity
  | positive => negative
  | negative => positive

@[simp] theorem flip_positive : positive.flip = negative := rfl

@[simp] theorem flip_negative : negative.flip = positive := rfl

@[simp] theorem flip_flip (p : Polarity) : p.flip.flip = p := by
  cases p <;> rfl

/-- The literal that a literal becomes once the negations above it have moved inward. -/
def onLiteral : Polarity → Literal → Literal
  | positive, l => l
  | negative, l => -l

@[simp] theorem onLiteral_positive (l : Literal) : positive.onLiteral l = l := rfl

@[simp] theorem onLiteral_negative (l : Literal) : negative.onLiteral l = -l := rfl

@[simp] theorem onLiteral_flip (p : Polarity) (l : Literal) :
    p.flip.onLiteral l = -p.onLiteral l := by
  cases p <;> simp

@[simp] theorem var_onLiteral (p : Polarity) (l : Literal) : (p.onLiteral l).var = l.var := by
  cases p <;> simp

/-- The connective that a conjunction or disjunction becomes once the negations above it have moved
inward. -/
def onConnective : Polarity → Connective → Connective
  | positive, c => c
  | negative, c => c.dual

@[simp] theorem onConnective_positive (c : Connective) : positive.onConnective c = c := rfl

@[simp] theorem onConnective_negative (c : Connective) : negative.onConnective c = c.dual := rfl

@[simp] theorem arity_onConnective (p : Polarity) (c : Connective) :
    (p.onConnective c).arity = c.arity := by
  cases p <;> simp

end Polarity

end Clausal
