import Clausal.ClausalForm

/-! The passes of the conversion by name, one at a time or in a row. -/
namespace Clausal

inductive Pass where
  | expandIffs
  | expandImplications
  | negateInward
  | nnf
  | mergeNested
  | multiplyOut
  | clausalForm
  deriving DecidableEq, Repr

namespace Pass

def apply : Pass → Formula → Except Fault Formula
  | expandIffs => Formula.expandIffs
  | expandImplications => Formula.expandImplications
  | negateInward => Formula.negateInward
  | nnf => Formula.nnf
  | mergeNested => Formula.mergeNested
  | multiplyOut => Formula.multiplyOut
  | clausalForm => Formula.clausalForm

/-- What each pass makes of the result before it, up to the first fault. -/
def trace : List Pass → Formula → List (Except Fault Formula)
  | [], _ => []
  | p :: ps, f =>
    match p.apply f with
    | .ok g => .ok g :: trace ps g
    | .error e => [.error e]

end Pass

end Clausal
