import Clausal.Literal

/-! Clauses as lists of literals, and lists of clauses. -/
namespace Clausal

/-- A disjunction of literals. The constructors below refuse an empty one. -/
structure Clause where
  literals : List Literal
  deriving DecidableEq, Repr

namespace Clause

def ofLiterals (ls : List Literal) : Except Fault Clause :=
  if ls = [] then .error (.broken .nonemptyClause) else .ok ⟨ls⟩

/-- Reads all literals before it asks whether there are any. -/
def ofInts (ns : List Int64) : Except Fault Clause := do
  let ls ← ns.mapM Literal.ofInt64
  ofLiterals ls

def ofInts32 (ns : List Int32) : Except Fault Clause := do
  let ls ← ns.mapM Literal.ofInt32
  ofLiterals ls

/-- The clause that one of the variables is true. -/
def ofVars (vs : List Var) : Except Fault Clause := do
  let ls ← vs.mapM Var.literal
  ofLiterals ls

def toInts (c : Clause) : List Int64 := c.literals.map Literal.code

def text (c : Clause) : String := "[" ++ ", ".intercalate (c.literals.map Literal.text) ++ "]"

end Clause

/-- A conjunction of clauses, as a solver takes it. -/
structure ClauseList where
  clauses : List Clause
  deriving DecidableEq, Repr

namespace ClauseList

def empty : ClauseList := ⟨[]⟩

def size (cs : ClauseList) : Nat := cs.clauses.length

/-- Adds a clause at the end. -/
def push (cs : ClauseList) (c : Clause) : ClauseList := ⟨cs.clauses ++ [c]⟩

/-- Adds a clause that is read from integers. -/
def add (cs : ClauseList) (ns : List Int64) : Except Fault ClauseList :=
  (Clause.ofInts ns).map cs.push

/-- Adds one clause after the other, up to the first that is refused. -/
def ofLists (nss : List (List Int64)) : Except Fault ClauseList := nss.foldlM add empty

def toLists (cs : ClauseList) : List (List Int64) := cs.clauses.map Clause.toInts

/-- The distinct variables in ascending order. -/
def vars (cs : ClauseList) : List Var :=
  Var.ascending (cs.clauses.flatMap fun c => c.literals.map Literal.var)

def text (cs : ClauseList) : String := "[" ++ ", ".intercalate (cs.clauses.map Clause.text) ++ "]"

@[simp] theorem clauses_push (cs : ClauseList) (c : Clause) :
    (cs.push c).clauses = cs.clauses ++ [c] := rfl

@[simp] theorem size_push (cs : ClauseList) (c : Clause) : (cs.push c).size = cs.size + 1 := by
  simp [size]

end ClauseList

end Clausal
