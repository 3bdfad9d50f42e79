import Clausal.NegationNormal
import Clausal.NormalForm
import Clausal.Product

/-! Conversion to clausal form without new variables: expand, move negations inward, then merge and
multiply out until the shape is reached. The result may be exponentially larger. -/
namespace Clausal.Formula

/-- Merges and multiplies out until the formula is in clausal form, and counts the rounds. -/
def settle : Nat → Formula → Except Fault (Formula × Nat)
  | 0, f => if f.IsClausal then .ok (f, 0) else .error (.broken .roundLimit)
  | limit + 1, f =>
    if f.IsClausal then .ok (f, 0)
    else do
      let f ← f.mergeNested
      let f ← f.multiplyOut
      let (f, rounds) ← settle limit f
      return (f, rounds + 1)

/-- An equivalent formula in clausal form. A formula has more nodes than it takes rounds. -/
def clausalForm (f : Formula) : Except Fault Formula := do
  let f ← f.nnf
  let (f, _) ← settle f.nodeCount f
  return f

end Clausal.Formula
