import Clausal.Formula

/-! Two formulas to try the conversion on. -/
namespace Clausal

inductive Sample where
  | puzzle
  | tautology
  deriving DecidableEq, Repr

namespace Sample

def literal (n : Int64) (h : Literal.InRange n) : Formula := .lit (.ofWord n h)

/-- Which of six answers is right? The first says "all of the below", the second "none of the
below", the third "all of the above", the fourth "at least one of the above", the last two "none of
the above". Variable `i` says that answer `i` is right. -/
def puzzleFormula : Except Fault Formula := do
  let x1 := literal 1 (by decide)
  let x2 := literal 2 (by decide)
  let x3 := literal 3 (by decide)
  let x4 := literal 4 (by decide)
  let x5 := literal 5 (by decide)
  let x6 := literal 6 (by decide)
  let e1 := Formula.iff x1 (← Formula.ofConnective .and [x2, x3, x4, x5, x6])
  let e2 := Formula.iff x2 (.not (← Formula.ofConnective .or [x3, x4, x5, x6]))
  let e3 := Formula.iff x3 (← Formula.ofConnective .and [x1, x2])
  let e4 := Formula.iff x4 (← Formula.ofConnective .or [x1, x2, x3])
  let e5 := Formula.iff x5 (.not (← Formula.ofConnective .or [x1, x2, x3, x4]))
  let e6 := Formula.iff x6 (.not (← Formula.ofConnective .or [x1, x2, x3, x4, x5]))
  Formula.ofConnective .and [e1, e2, e3, e4, e5, e6]

/-- An equivalence is equivalent to its clauses. -/
def tautologyFormula : Except Fault Formula := do
  let y := literal 2 (by decide)
  let z := literal 3 (by decide)
  let y' := literal (-2) (by decide)
  let z' := literal (-3) (by decide)
  let c1 ← Formula.ofConnective .or [y', z]
  let c2 ← Formula.ofConnective .or [z', y]
  return .iff (.iff y z) (← Formula.ofConnective .and [c1, c2])

def formula : Sample → Except Fault Formula
  | puzzle => puzzleFormula
  | tautology => tautologyFormula

def all : List Sample := [puzzle, tautology]

def name : Sample → String
  | puzzle => "puzzle"
  | tautology => "tautology"

end Sample

end Clausal
