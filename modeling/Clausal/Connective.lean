/-! Connectives of propositional logic, and how many operands each of them takes. -/
namespace Clausal

/-- A rule on the number of operands. -/
inductive Arity where
  | exactly (count : Nat)
  | atLeast (count : Nat)
  deriving DecidableEq, Repr

namespace Arity

/-- The rule allows `n` operands. -/
def Allows : Arity → Nat → Prop
  | exactly k, n => n = k
  | atLeast k, n => k ≤ n

instance (a : Arity) (n : Nat) : Decidable (a.Allows n) :=
  match a with
  | exactly k => inferInstanceAs (Decidable (n = k))
  | atLeast k => inferInstanceAs (Decidable (k ≤ n))

@[simp] theorem allows_exactly {k n : Nat} : (exactly k).Allows n ↔ n = k := Iff.rfl

@[simp] theorem allows_atLeast {k n : Nat} : (atLeast k).Allows n ↔ k ≤ n := Iff.rfl

def text : Arity → String
  | exactly k => s!"exactly {k}"
  | atLeast k => s!"at least {k}"

end Arity

inductive Connective where
  | and
  | or
  | not
  | implies
  | iff
  deriving DecidableEq, Repr

namespace Connective

def arity : Connective → Arity
  | and | or => .atLeast 2
  | not => .exactly 1
  | implies | iff => .exactly 2

def name : Connective → String
  | and => "And"
  | or => "Or"
  | not => "Not"
  | implies => "Implies"
  | iff => "Equivalent"

/-- The mark between two operands, or before the single operand of a negation. -/
def symbol : Connective → String
  | and => "/\\"
  | or => "\\/"
  | not => "-"
  | implies => "->"
  | iff => "="

/-- The connective that takes its place when a negation moves inward past it (De Morgan). -/
def dual : Connective → Connective
  | and => or
  | or => and
  | c => c

@[simp] theorem dual_and : and.dual = or := rfl

@[simp] theorem dual_or : or.dual = and := rfl

@[simp] theorem dual_dual (c : Connective) : c.dual.dual = c := by
  cases c <;> rfl

@[simp] theorem arity_dual (c : Connective) : c.dual.arity = c.arity := by
  cases c <;> rfl

end Connective

end Clausal
