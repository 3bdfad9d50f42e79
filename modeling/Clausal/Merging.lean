import Clausal.Traversal

/-! Nested conjunctions and nested disjunctions become one node each. -/
namespace Clausal.Formula

/-- The conjuncts of a formula: its operands if it is a conjunction, else itself. -/
def conjuncts : Formula → List Formula
  | and args => args
  | f => [f]

/-- The disjuncts of a formula: its operands if it is a disjunction, else itself. -/
def disjuncts : Formula → List Formula
  | or args => args
  | f => [f]

/-- Takes the operands of an operand with the same connective into the node itself. One level is
enough, as operands are merged before their node. -/
def mergeNode : Formula → Formula
  | and args => and (args.flatMap conjuncts)
  | or args => or (args.flatMap disjuncts)
  | f => f

def mergeNested (f : Formula) : Except Fault Formula := f.transform mergeNode

end Clausal.Formula
