import Clausal.ClauseList

/-! The DIMACS format: a header with the number of variables that occur and the number of clauses,
then a line for each clause, ended by a zero. -/
namespace Clausal

def Clause.dimacsLine (c : Clause) : String :=
  String.join (c.literals.map fun l => l.text ++ " ") ++ "0\n"

namespace ClauseList

def dimacsHeader (cs : ClauseList) : String := s!"p cnf {cs.vars.length} {cs.size}\n"

def dimacs (cs : ClauseList) : String :=
  cs.dimacsHeader ++ String.join (cs.clauses.map Clause.dimacsLine)

end ClauseList

end Clausal
