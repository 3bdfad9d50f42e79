import Clausal.Connective
import Clausal.Variable

/-! What can go wrong, one constructor for each cause, and the wording of each cause. -/
namespace Clausal

/-- Promises that a caller makes, or that the library makes to itself. -/
inductive Promise where
  /-- A literal is neither zero nor the least 64-bit integer, which has no negation. -/
  | literalRange
  /-- The number of a variable is positive and fits a signed 64-bit integer. -/
  | variableRange
  | nonemptyClause
  /-- Each connective finds its operands among the finished results, and one result is left. -/
  | operandStack
  /-- Merging and multiplying out reach clausal form within the rounds allowed. -/
  | roundLimit
  deriving DecidableEq, Repr

def Promise.text : Promise → String
  | literalRange => "literal must be non-zero and negatable"
  | variableRange => "variable index out of range"
  | nonemptyClause => "Clause must be non-empty"
  | operandStack => "operands must be finished before their connective"
  | roundLimit => "clausal form must be reached within the round limit"

inductive Fault where
  /-- The connective does not take this number of operands. -/
  | arity (c : Connective) (count : Nat)
  | invalidLiteral (value : Int64)
  | notClausal
  /-- Negations can move inward only after this connective has been expanded. -/
  | unexpanded (c : Connective)
  | unassigned (v : Var)
  | broken (p : Promise)
  deriving DecidableEq, Repr

def Fault.text : Fault → String
  | arity c n => s!"Operator `{c.name}` expects {c.arity.text} operand(s), got {n}"
  | invalidLiteral n => s!"Invalid literal value: {n.toInt}"
  | notClausal => "Expression is not in CNF"
  | unexpanded c => s!"Operator `{c.name}` should have been eliminated before pushing negations"
  | unassigned v => s!"Assignment does not contain variable {v.label}"
  | broken p => p.text

end Clausal
