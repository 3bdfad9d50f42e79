import Clausal.Blueprint
import Clausal.Dimacs
import Clausal.Evaluation
import Clausal.Extraction
import Clausal.FormulaText
import Clausal.Pass
import Clausal.Subformula

/-! A stack of formulas, worked on step by step. Formulas that a failing step has taken off the
stack stay off it. -/
namespace Clausal

/-- The formulas, the topmost first. -/
abbrev Workbench := List Formula

namespace Workbench

inductive Step where
  | push (b : Blueprint)
  | copyTop
  | swap
  | drop
  /-- Joins the topmost `count` formulas, the deepest being the first operand. -/
  | join (c : Connective) (count : Nat)
  | conjoin
  | disjoin
  | negate
  /-- Conjunction of the top with an integer that is promised to be a literal. -/
  | conjoinInt (n : Int64)
  | disjoinInt (n : Int64)
  | pass (p : Pass)
  /-- Whether the two topmost formulas are equal. -/
  | equal
  | clausal
  | math
  | vars
  | clauses
  | dimacs
  | eval (pairs : List (Var × Bool))

inductive Answer where
  | none
  | bool (b : Bool)
  | text (s : String)
  | vars (vs : List Var)
  | clauses (cs : ClauseList)

/-- What a step answers, and the stack after it. -/
abbrev Result := Except Fault Answer × Workbench

def put (rest : Workbench) : Except Fault Formula → Result
  | .ok f => (.ok .none, f :: rest)
  | .error e => (.error e, rest)

/-- Takes the topmost formulas in the order in which they were pushed. -/
def take? (count : Nat) (w : Workbench) : Option (List Formula × Workbench) :=
  if count ≤ w.length then some ((w.take count).reverse, w.drop count) else .none

/-- Carries out a step, if the stack is deep enough for it. -/
def step? (w : Workbench) : Step → Option Result
  | .push b => some (put w b.build)
  | .copyTop => do
    let f ← w.head?
    return (.ok .none, f :: w)
  | .swap =>
    match w with
    | g :: f :: rest => some (.ok .none, f :: g :: rest)
    | _ => .none
  | .drop =>
    match w with
    | _ :: rest => some (.ok .none, rest)
    | [] => .none
  | .join c n => do
    let (args, rest) ← take? n w
    return put rest (Formula.ofConnective c args)
  | .conjoin =>
    match w with
    | g :: f :: rest => some (.ok .none, (f &&& g) :: rest)
    | _ => .none
  | .disjoin =>
    match w with
    | g :: f :: rest => some (.ok .none, (f ||| g) :: rest)
    | _ => .none
  | .negate =>
    match w with
    | f :: rest => some (.ok .none, ~~~f :: rest)
    | [] => .none
  | .conjoinInt n =>
    match w with
    | f :: rest => some (put rest ((Literal.ofInt64 n).map fun l => f &&& .lit l))
    | [] => .none
  | .disjoinInt n =>
    match w with
    | f :: rest => some (put rest ((Literal.ofInt64 n).map fun l => f ||| .lit l))
    | [] => .none
  | .pass p =>
    match w with
    | f :: rest => some (put rest (p.apply f))
    | [] => .none
  | .equal =>
    match w with
    | g :: f :: _ => some (.ok (.bool (decide (f = g))), w)
    | _ => .none
  | .clausal => w.head?.map fun f => (.ok (.bool (decide f.IsClausal)), w)
  | .math => w.head?.map fun f => (.ok (.text f.mathText), w)
  | .vars => w.head?.map fun f => (.ok (.vars f.vars), w)
  | .clauses => w.head?.map fun f => ((ClauseList.ofFormula f).map .clauses, w)
  | .dimacs => w.head?.map fun f => ((ClauseList.ofFormula f).map fun cs => .text cs.dimacs, w)
  | .eval pairs => w.head?.map fun f => ((f.eval (.ofPairs pairs)).map .bool, w)

end Workbench

end Clausal
