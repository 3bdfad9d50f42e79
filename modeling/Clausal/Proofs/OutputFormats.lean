import Clausal.Command
import Clausal.Proofs.InfixReading
import Clausal.Proofs.ListReading
import Clausal.Proofs.Rebuilding

/-! The four output formats read back. From each text of a formula in clausal form the clauses of
the formula are read: from the lines of integers, or from the formula in infix or constructor
notation. The lines of the DIMACS text are those of the plain text, each ended by a zero. -/
namespace Clausal

open Text

namespace Text

/-- The text before the newline that ends it. -/
def unended? (s : String) : Option String :=
  if s.toList.getLast? = some '\n' then some (String.ofList s.toList.dropLast) else none

@[simp] theorem unended?_append (s : String) : unended? (s ++ "\n") = some s := by
  simp [unended?]

end Text

namespace Clause

/-- The line of a clause without its newline, where no zero ends the clause. -/
def plainLine (c : Clause) : List Char :=
  [' '].intercalate (c.literals.map fun l => numeral l.toInt)

theorem plainLine_cons_cons (l m : Literal) (ls : List Literal) :
    plainLine ⟨l :: m :: ls⟩ = numeral l.toInt ++ ' ' :: plainLine ⟨m :: ls⟩ := by
  simp [plainLine, List.intercalate_cons_cons]

theorem toList_plainLine (c : Clause) :
    (" ".intercalate (c.literals.map Literal.text)).toList = c.plainLine := by
  rw [String.toList_intercalate, List.map_map]
  rfl

/-- In the DIMACS format a blank follows every literal, and a zero the last blank. -/
theorem clauseLine_eq {c : Clause} (h : c.literals ≠ []) :
    Dimacs.clauseLine c = c.plainLine ++ [' ', '0'] := by
  obtain ⟨ls⟩ := c
  have hzero : numeral 0 = ['0'] := by decide
  induction ls with
  | nil => contradiction
  | cons l ls ih =>
    have hline : Dimacs.clauseLine ⟨l :: ls⟩ =
        numeral l.toInt ++ ' ' :: Dimacs.clauseLine ⟨ls⟩ := by
      simp [Dimacs.clauseLine]
    cases ls with
    | nil =>
      rw [hline]
      simp [plainLine, Dimacs.clauseLine, hzero]
    | cons m ls =>
      rw [hline, ih (List.cons_ne_nil m ls), plainLine_cons_cons]
      simp

theorem words_plainLine (c : Clause) : words c.plainLine = (Dimacs.clauseInts c).map numeral := by
  obtain h | h := eq_or_ne c.literals []
  · simp [plainLine, Dimacs.clauseInts, h]
  · have hwords := Dimacs.words_clauseLine c
    rw [clauseLine_eq h, words_append_blank rfl, List.map_append] at hwords
    exact List.append_cancel_right hwords

theorem newline_notMem_plainLine (c : Clause) : '\n' ∉ c.plainLine := by
  obtain h | h := eq_or_ne c.literals []
  · simp [plainLine, h]
  · intro hmem
    apply Dimacs.newline_notMem_clauseLine c
    rw [clauseLine_eq h]
    exact List.mem_append_left _ hmem

end Clause

namespace Formula

theorem clausesAt_splitSign (p : Polarity) (f : Formula) :
    clausesAt p f.splitSign = clausesAt p f := by
  cases f with
  | lit l =>
    rw [splitSign]
    split
    next => cases p <;> simp [clausesAt]
    next => rfl
  | _ => rfl

/-- The clauses of a formula as a clause list. -/
def clausesOf (f : Formula) : ClauseList := ⟨(clausesAt .positive f).map Clause.mk⟩

theorem clausesOf_splitSigns (f : Formula) : f.splitSigns.clausesOf = f.clausesOf := by
  rw [clausesOf, splitSigns, clausesAt_bottomUp clausesAt_splitSign, clausesOf]

theorem clausesOf_toFormula {cs : ClauseList} (h : cs.IsProper) : cs.toFormula.clausesOf = cs := by
  rw [clausesOf, ClauseList.clausesAt_toFormula h, List.map_map]
  exact congrArg ClauseList.mk (List.map_id cs.clauses)

end Formula

namespace Format

/-- Reads the clauses from a text of the format. -/
def decode : Format → String → Option ClauseList
  | dimacs, s => do
    let i ← Dimacs.read? s
    ClauseList.ofIntLists? i.clauses
  | clauses, s => do
    let lines ← lines? s.toList
    let nss ← lines.mapM fun line => integers? (words line)
    ClauseList.ofIntLists? nss
  | math, s => do
    let t ← unended? s
    let f ← Formula.ofMath? t
    return f.clausesOf
  | code, s => do
    let t ← unended? s
    let f ← Formula.ofCode? t
    return f.clausesOf

theorem toList_clauseLines (cs : ClauseList) :
    (clauseLines cs).toList =
      (cs.clauses.map Clause.plainLine).flatMap fun line => line ++ ['\n'] := by
  rw [clauseLines, String.toList_join, List.flatMap_map, List.flatMap_map]
  simp only [String.toList_append, Clause.toList_plainLine]
  rfl

theorem lines?_clauseLines (cs : ClauseList) :
    lines? (clauseLines cs).toList = some (cs.clauses.map Clause.plainLine) := by
  rw [lines?, toList_clauseLines, endedBlocks?_flatMap]
  rw [List.forall_mem_map]
  exact fun c _ => c.newline_notMem_plainLine

theorem decode_dimacs (cs : ClauseList) : decode dimacs cs.dimacs = some cs := by
  rw [decode, Dimacs.read?_dimacs]
  exact cs.ofIntLists?_clauseInts

theorem decode_clauses (cs : ClauseList) : decode clauses (clauseLines cs) = some cs := by
  have hints : (cs.clauses.map Clause.plainLine).mapM (fun line => integers? (words line)) =
      some (cs.clauses.map Dimacs.clauseInts) := by
    rw [List.mapM_map]
    refine mapM_eq_pure fun c _ => ?_
    show integers? (words c.plainLine) = some _
    rw [Clause.words_plainLine, integers?_map_numeral]
  rw [decode, lines?_clauseLines]
  simp only [Option.bind_eq_bind, Option.bind_some, hints]
  exact cs.ofIntLists?_clauseInts

theorem decode_math {f : Formula} (hf : f.WellFormed) :
    decode math (f.mathText ++ "\n") = some f.clausesOf := by
  rw [decode, unended?_append]
  simp only [Option.bind_eq_bind, Option.bind_some, Formula.ofMath?_mathText hf,
    Formula.clausesOf_splitSigns]
  rfl

theorem decode_code (f : Formula) : decode code (f.codeText ++ "\n") = some f.clausesOf := by
  have hread : Formula.ofCode? f.codeText = some f := by
    rw [Formula.ofCode?, Formula.toList_codeText, Item.read?_text (Formula.legible_codeItem f)]
    exact Formula.ofCodeItem?_codeItem f
  rw [decode, unended?_append]
  simp only [Option.bind_eq_bind, Option.bind_some, hread]
  rfl

/-- The text of a formula in a format, where the formula has these clauses. -/
def text (f : Formula) (cs : ClauseList) : Format → String
  | dimacs => cs.dimacs
  | clauses => clauseLines cs
  | math => f.mathText ++ "\n"
  | code => f.codeText ++ "\n"

theorem render_eq_ok {f : Formula} {cs : ClauseList} (h : ClauseList.ofFormula f = .ok cs)
    (fmt : Format) : fmt.render f = .ok (fmt.text f cs) := by
  cases fmt with
  | dimacs | clauses =>
    rw [render, h]
    rfl
  | math | code => rfl

/-- Every text of a formula in clausal form gives its clauses. -/
theorem decode_text {f : Formula} {cs : ClauseList} (hf : f.WellFormed) (hcs : f.clausesOf = cs)
    (fmt : Format) : fmt.decode (fmt.text f cs) = some cs := by
  cases fmt with
  | dimacs => exact decode_dimacs cs
  | clauses => exact decode_clauses cs
  | math => rw [text, decode_math hf, hcs]
  | code => rw [text, decode_code, hcs]

theorem named?_eq {fmt : Format} {word : String} (h : word.map Char.toLower = fmt.name) :
    Command.named? name all word = some fmt := by
  simp only [Command.named?, h]
  cases fmt <;> decide

/-- The name of a format is known in any case of its letters. -/
theorem commandRender_eq_ok {f : Formula} {cs : ClauseList} (h : ClauseList.ofFormula f = .ok cs)
    {fmt : Format} {word : String} (hword : word.map Char.toLower = fmt.name) :
    Command.render f word = .ok (fmt.text f cs) := by
  rw [Command.render, named?_eq hword]
  simp only [Command.orFail, bind, Except.bind, render_eq_ok h]
  rfl

end Format

end Clausal
