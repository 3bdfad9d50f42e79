import Clausal.Dimacs
import Clausal.Proofs.WordsAndLines
import Mathlib.Data.List.Dedup

/-! DIMACS texts read back. The numbers of the text, split at every zero, are the clauses, since no
literal is zero and a blank follows every number. -/
namespace Clausal

/-- The strictly ascending list has one entry for each distinct variable. -/
theorem Var.length_ascending (vs : List Var) : (ascending vs).length = vs.dedup.length := by
  have hnodup : (ascending vs).Nodup :=
    (pairwise_ascending vs).imp fun hlt heq => by simp [heq] at hlt
  refine ((List.perm_ext_iff_of_nodup hnodup vs.nodup_dedup).2 fun v => ?_).length_eq
  rw [mem_ascending, List.mem_dedup]

namespace Dimacs

open Text

/-- What a text in the format says. -/
structure Instance where
  varCount : Nat
  clauseCount : Nat
  clauses : List (List Int)
  deriving DecidableEq, Repr

def header? (line : List Char) : Option (Nat × Nat) :=
  match words line with
  | [['p'], ['c', 'n', 'f'], v, c] => do
    let varCount ← natural? v
    let clauseCount ← natural? c
    return (varCount, clauseCount)
  | _ => none

/-- Reads the first line as the header and splits the numbers of the other lines at every zero. -/
def read? (text : String) : Option Instance :=
  match lines? text.toList with
  | some (header :: body) => do
    let (varCount, clauseCount) ← header? header
    let numbers ← integers? (body.flatMap words)
    let clauses ← endedBlocks? 0 numbers
    return ⟨varCount, clauseCount, clauses⟩
  | _ => none

/-- The header without its newline. -/
def headerLine (varCount clauseCount : Nat) : List Char :=
  ['p', ' ', 'c', 'n', 'f', ' '] ++ numeral varCount ++ ' ' :: numeral clauseCount

/-- The line of a clause without its newline. -/
def clauseLine (c : Clause) : List Char :=
  c.literals.flatMap (fun l => numeral l.toInt ++ [' ']) ++ numeral 0

/-- The literals of a clause as integers. -/
def clauseInts (c : Clause) : List Int := c.literals.map Literal.toInt

theorem words_headerLine (v c : Nat) :
    words (headerLine v c) = [['p'], ['c', 'n', 'f'], numeral v, numeral c] := by
  have hp : words ['p'] = [['p']] := rfl
  have hcnf : words ['c', 'n', 'f'] = [['c', 'n', 'f']] := rfl
  have hline : headerLine v c =
      ['p'] ++ ' ' :: (['c', 'n', 'f'] ++ ' ' :: (numeral v ++ ' ' :: numeral c)) := by
    simp [headerLine]
  rw [hline, words_append_blank rfl, words_append_blank rfl, words_append_blank rfl, hp, hcnf,
    words_numeral, words_numeral]
  rfl

theorem header?_headerLine (v c : Nat) : header? (headerLine v c) = some (v, c) := by
  have hnatural : ∀ n : Nat, natural? (numeral n) = some n := fun n => by
    rw [numeral_natCast, natural?_toDigits]
  rw [header?, words_headerLine]
  simp [hnatural]

theorem words_clauseLine (c : Clause) :
    words (clauseLine c) = (clauseInts c ++ [0]).map numeral := by
  obtain ⟨ls⟩ := c
  induction ls with
  | nil => exact words_numeral 0
  | cons l ls ih =>
    have hline : clauseLine ⟨l :: ls⟩ = numeral l.toInt ++ ' ' :: clauseLine ⟨ls⟩ := by
      simp [clauseLine]
    rw [hline, words_append_blank rfl, words_numeral, ih]
    rfl

theorem integers?_clauseLine (c : Clause) :
    integers? (words (clauseLine c)) = some (clauseInts c ++ [0]) := by
  rw [words_clauseLine, integers?_map_numeral]

theorem newline_notMem_headerLine (v c : Nat) : '\n' ∉ headerLine v c := by
  simp [headerLine, newline_notMem_numeral]

theorem newline_notMem_clauseLine (c : Clause) : '\n' ∉ clauseLine c := by
  simp [clauseLine, newline_notMem_numeral]

theorem toList_dimacsLine (c : Clause) : c.dimacsLine.toList = clauseLine c ++ ['\n'] := by
  have htext : ∀ l : Literal, (l.text ++ " ").toList = numeral l.toInt ++ [' '] := fun l => by
    rw [String.toList_append]
    rfl
  have hend : "0\n".toList = numeral 0 ++ ['\n'] := by decide
  rw [Clause.dimacsLine, String.toList_append, String.toList_join, List.flatMap_map, hend,
    clauseLine, List.append_assoc]
  simp only [htext]

theorem toList_dimacsHeader (cs : ClauseList) :
    cs.dimacsHeader.toList = headerLine cs.vars.length cs.size ++ ['\n'] := by
  show ("p cnf " ++ toString cs.vars.length ++ " " ++ toString cs.size ++ "\n").toList = _
  simp [headerLine, numeral_natCast]

theorem toList_dimacs (cs : ClauseList) :
    cs.dimacs.toList = (headerLine cs.vars.length cs.size :: cs.clauses.map clauseLine).flatMap
      fun line => line ++ ['\n'] := by
  rw [ClauseList.dimacs, String.toList_append, toList_dimacsHeader, String.toList_join,
    List.flatMap_map, List.flatMap_cons, List.flatMap_map]
  simp only [toList_dimacsLine]

theorem lines?_dimacs (cs : ClauseList) :
    lines? cs.dimacs.toList =
      some (headerLine cs.vars.length cs.size :: cs.clauses.map clauseLine) := by
  rw [lines?, toList_dimacs, endedBlocks?_flatMap]
  rw [List.forall_mem_cons, List.forall_mem_map]
  exact ⟨newline_notMem_headerLine _ _, fun c _ => newline_notMem_clauseLine c⟩

theorem read?_dimacs (cs : ClauseList) :
    read? cs.dimacs = some ⟨cs.vars.length, cs.size, cs.clauses.map clauseInts⟩ := by
  have hwords : (cs.clauses.map clauseLine).flatMap words =
      ((cs.clauses.map clauseInts).flatMap fun ns => ns ++ [0]).map numeral := by
    rw [List.flatMap_map, List.flatMap_map, List.map_flatMap]
    simp only [words_clauseLine]
  have hzero : ∀ ns ∈ cs.clauses.map clauseInts, (0 : Int) ∉ ns := by
    rw [List.forall_mem_map]
    intro c _ hmem
    obtain ⟨l, -, hl⟩ := List.mem_map.1 hmem
    exact l.toInt_ne_zero hl
  rw [read?, lines?_dimacs]
  simp only [header?_headerLine, hwords, integers?_map_numeral, Option.bind_eq_bind,
    Option.bind_some, endedBlocks?_flatMap hzero]
  rfl

theorem clauseInts_injective : Function.Injective clauseInts := by
  intro c d h
  have hliterals := List.map_injective_iff.2 (fun _ _ => Literal.ext_toInt) h
  cases c
  cases d
  exact congrArg Clause.mk hliterals

/-- A text in the format reads back as the number of distinct variables, the number of clauses and
the clauses with their literals in order. After the header it has one line for each clause. Hence it
determines the clause list. -/
theorem read_back_dimacs (cs : ClauseList) :
    read? cs.dimacs = some
      ⟨(cs.clauses.flatMap fun c => c.literals.map Literal.var).dedup.length, cs.clauses.length,
        cs.clauses.map clauseInts⟩ ∧
    (∃ header body, lines? cs.dimacs.toList = some (header :: body) ∧
      body.length = cs.clauses.length ∧
      body.map (fun line => integers? (words line)) =
        cs.clauses.map fun c => some (clauseInts c ++ [0])) ∧
    ∀ ds : ClauseList, ds.dimacs = cs.dimacs ↔ ds = cs := by
  refine ⟨?_, ⟨_, _, lines?_dimacs cs, List.length_map clauseLine, ?_⟩, fun ds => ⟨fun h => ?_, ?_⟩⟩
  · rw [read?_dimacs, ClauseList.vars, Var.length_ascending, ClauseList.size]
  · rw [List.map_map]
    exact List.map_congr_left fun c _ => integers?_clauseLine c
  · have hread := congrArg read? h
    rw [read?_dimacs, read?_dimacs, Option.some.injEq, Instance.mk.injEq] at hread
    have hclauses := List.map_injective_iff.2 clauseInts_injective hread.2.2
    cases ds
    cases cs
    exact congrArg ClauseList.mk hclauses
  · rintro rfl
    rfl

example : read? "p cnf 3 2\n1 -2 0\n7 0\n" = some ⟨3, 2, [[1, -2], [7]]⟩ := by decide

end Dimacs

end Clausal
