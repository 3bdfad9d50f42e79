import Clausal.ClausalForm
import Clausal.ClauseList

/-! Clause lists of formulas in clausal form. -/
namespace Clausal

/-- The clause that a literal or a disjunction of literals stands for. -/
def Clause.ofFormula : Formula → Except Fault Clause
  | .lit l => ofLiterals [l]
  | .or args => do
    let ls ← args.mapM fun a =>
      match a.literal? with
      | some l => .ok l
      | none => .error .notClausal
    ofLiterals ls
  | _ => .error .notClausal

/-- The clauses of a formula in clausal form, in order and with every literal. -/
def ClauseList.ofFormula (f : Formula) : Except Fault ClauseList :=
  if f.IsClausal then
    match f with
    | .and args => do
      let cs ← args.mapM Clause.ofFormula
      return ⟨cs⟩
    | f => do
      let c ← Clause.ofFormula f
      return ⟨[c]⟩
  else .error .notClausal

/-- The clauses of the clausal form. -/
def Formula.clauseList (f : Formula) : Except Fault ClauseList := do
  let r ← f.clausalForm
  ClauseList.ofFormula r

end Clausal
