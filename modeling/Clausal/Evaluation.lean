import Clausal.Formula

/-! Truth values of formulas under partial assignments. -/
namespace Clausal

/-- The truth values of some variables. -/
abbrev Assignment := Var → Option Bool

namespace Assignment

def empty : Assignment := fun _ => none

def set (m : Assignment) (v : Var) (b : Bool) : Assignment := fun w => if w = v then some b else m w

/-- Of two values for one variable the later one counts. -/
def ofPairs (pairs : List (Var × Bool)) : Assignment := pairs.foldl (fun m p => m.set p.1 p.2) empty

/-- Row `n` of the truth table over the given variables: each is true if its bit of `n` is set. -/
def ofRow (vs : List Var) (n : Nat) : Assignment :=
  ofPairs (vs.zipIdx.map fun (v, i) => (v, n.testBit i))

@[simp] theorem set_self (m : Assignment) (v : Var) (b : Bool) : m.set v b v = some b := by
  simp [set]

@[simp] theorem set_of_ne (m : Assignment) {v w : Var} (h : w ≠ v) (b : Bool) :
    m.set v b w = m w := by
  simp [set, h]

end Assignment

namespace Formula

/-- The truth value, or the first unassigned variable that the evaluation meets. Operands are
evaluated from left to right, and all of them; only an implication with a false premise skips its
conclusion. -/
def eval (m : Assignment) : Formula → Except Fault Bool
  | lit l =>
    match m l.var with
    | some b => .ok (b != l.isNegative)
    | none => .error (.unassigned l.var)
  | not a => do
    let x ← a.eval m
    return !x
  | implies a b => do
    let x ← a.eval m
    if x then b.eval m else return true
  | iff a b => do
    let x ← a.eval m
    let y ← b.eval m
    return x == y
  | and args => do
    let xs ← args.mapM fun a => a.eval m
    return xs.all id
  | or args => do
    let xs ← args.mapM fun a => a.eval m
    return xs.any id

/-- The truth values in all rows of the table over the given variables. -/
def truthTable (vs : List Var) (f : Formula) : Except Fault (List Bool) :=
  (List.range (1 <<< vs.length)).mapM fun n => f.eval (.ofRow vs n)

end Formula

end Clausal
