import Clausal.Sample

/-! Instructions that build a formula step by step, from left to right and operands before their
node; the first fault ends the building. -/
namespace Clausal

inductive Blueprint where
  /-- A literal that may be out of range. -/
  | literal (n : Int64)
  /-- A literal that is promised to be in range. -/
  | promised (n : Int64)
  | promised32 (n : Int32)
  | var (v : Var)
  /-- A node whose number of operands is checked. -/
  | checked (c : Connective) (args : List Blueprint)
  /-- A conjunction or disjunction of any number of operands, or another node of its number. -/
  | loose (c : Connective) (args : List Blueprint)
  /-- A loose node of two operands, the right one built before the variable is looked at. -/
  | variableFirst (c : Connective) (v : Var) (a : Blueprint)
  /-- A formula under `count` negations. -/
  | negated (count : Nat) (a : Blueprint)
  /-- Checked nodes of two operands that lean to the left: each joins the result so far to the next
  item. -/
  | leftward (c : Connective) (items : List Blueprint)
  /-- Checked nodes of two operands that lean to the right. -/
  | rightward (c : Connective) (items : List Blueprint)
  | sample (s : Sample)

namespace Blueprint

/-- The literals of the integers from `lo` to `hi`, zero among them if it lies between. -/
def interval (lo hi : Int64) : List Blueprint :=
  (List.range (hi.toInt + 1 - lo.toInt).toNat).map fun i =>
    literal (Int64.ofInt (lo.toInt + Int.ofNat i))

def looseNode (c : Connective) (args : List Formula) : Except Fault Formula :=
  match Formula.ofOperands? c args with
  | some f => .ok f
  | none => .error (.arity c args.length)

/-- Joins the items by nodes that lean to the left. One item stands for itself. -/
def joinLeft (c : Connective) : List Formula → Except Fault Formula
  | [] => .error (.arity c 0)
  | f :: fs => fs.foldlM (fun acc g => Formula.ofConnective c [acc, g]) f

/-- Joins the items by nodes that lean to the right. One item stands for itself. -/
def joinRight (c : Connective) (fs : List Formula) : Except Fault Formula :=
  match fs.reverse with
  | [] => .error (.arity c 0)
  | f :: fs => fs.foldlM (fun acc g => Formula.ofConnective c [g, acc]) f

def build : Blueprint → Except Fault Formula
  | literal n => do return .lit (← Literal.validate n)
  | promised n => do return .lit (← Literal.ofInt64 n)
  | promised32 n => do return .lit (← Literal.ofInt32 n)
  | var v => do return .lit (← v.literal)
  | checked c args => do
    let fs ← args.mapM fun a => a.build
    Formula.ofConnective c fs
  | loose c args => do
    let fs ← args.mapM fun a => a.build
    looseNode c fs
  | variableFirst c v a => do
    let f ← a.build
    let l ← v.literal
    looseNode c [.lit l, f]
  | negated n a => do
    let f ← a.build
    return n.repeat Formula.not f
  | leftward c items => do
    let fs ← items.mapM fun a => a.build
    joinLeft c fs
  | rightward c items => do
    let fs ← items.mapM fun a => a.build
    joinRight c fs
  | sample s => s.formula

end Blueprint

end Clausal
