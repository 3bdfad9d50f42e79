import Clausal.Blueprint
import Clausal.Dimacs
import Clausal.Extraction

/-! A list of clauses, edited step by step. A failing step leaves the list as it is. -/
namespace Clausal.ClauseEditor

inductive Step where
  | clear
  | load (nss : List (List Int64))
  /-- The clauses of a formula that is in clausal form already. -/
  | extract (b : Blueprint)
  /-- The clauses of the clausal form of a formula. -/
  | convert (b : Blueprint)
  | add (ns : List Int64)
  | add32 (ns : List Int32)
  | addVars (vs : List Var)
  /-- Adds a clause of any length, whose literals may be out of range. -/
  | addRaw (ns : List Int64)
  | vars
  | dimacs
  | lists
  | clause (i : Nat)
  /-- Whether the formula has exactly the clauses of the list. -/
  | hasClausesOf (b : Blueprint)

inductive Answer where
  | none
  | bool (b : Bool)
  | text (s : String)
  | vars (vs : List Var)
  | lists (nss : List (List Int64))
  | clause (c : Option Clause)

def update (cs : ClauseList) : Except Fault ClauseList → Except Fault Answer × ClauseList
  | .ok new => (.ok .none, new)
  | .error e => (.error e, cs)

def step (cs : ClauseList) : Step → Except Fault Answer × ClauseList
  | .clear => (.ok .none, .empty)
  | .load nss => update cs (ClauseList.ofLists nss)
  | .extract b => update cs do ClauseList.ofFormula (← b.build)
  | .convert b => update cs do
    let f ← b.build
    f.clauseList
  | .add ns => update cs (cs.add ns)
  | .add32 ns => update cs ((Clause.ofInts32 ns).map cs.push)
  | .addVars vs => update cs ((Clause.ofVars vs).map cs.push)
  | .addRaw ns => update cs ((ns.mapM Literal.validate).map fun ls => cs.push ⟨ls⟩)
  | .vars => (.ok (.vars cs.vars), cs)
  | .dimacs => (.ok (.text cs.dimacs), cs)
  | .lists => (.ok (.lists cs.toLists), cs)
  | .clause i => (.ok (.clause cs.clauses[i]?), cs)
  | .hasClausesOf b =>
    let same := do
      let ds ← ClauseList.ofFormula (← b.build)
      return Answer.bool (decide (ds = cs))
    (same, cs)

end Clausal.ClauseEditor
