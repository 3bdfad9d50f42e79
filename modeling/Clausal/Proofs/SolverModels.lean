import Clausal.Proofs.ClauseTruth

/-! What a solver finds. In the clauses it is given words take the place of literals: the magnitude
is the variable and the sign is the value asked for. -/
namespace Clausal

/-- The variable of a word, whatever its sign. -/
def Var.ofWord (n : Int64) : Var := ⟨UInt64.ofNat n.toInt.natAbs⟩

/-- Every clause has a word whose variable has the value that the sign asks for. -/
def Assignment.Models (m : Assignment) (lists : List (List Int64)) : Prop :=
  ∀ ns ∈ lists, ∃ n ∈ ns, m (.ofWord n) = some (decide (0 < n.toInt))

namespace Literal

theorem isNegative_eq (l : Literal) : l.isNegative = !decide (0 < l.toInt) := by
  have hne := toInt_ne_zero l
  rw [isNegative, ← decide_not, decide_eq_decide]
  omega

theorem holds_complete_iff {m : Assignment} {l : Literal} (h : (m l.var).isSome) :
    l.holds m.complete = true ↔ m (.ofWord l.code) = some (decide (0 < l.code.toInt)) := by
  obtain ⟨b, hb⟩ := Option.isSome_iff_exists.1 h
  have hword : m (.ofWord l.code) = some b := hb
  have hvalue : m.complete l.var = b := by rw [Assignment.complete, hb, Option.getD_some]
  rw [hword, holds, hvalue, isNegative_eq, Option.some.injEq]
  show (b != !decide (0 < l.toInt)) = true ↔ b = decide (0 < l.toInt)
  cases b <;> simp

end Literal

theorem satisfied_complete_iff {m : Assignment} {cs : List (List Literal)}
    (h : ∀ c ∈ cs, ∀ l ∈ c, (m l.var).isSome) :
    satisfied m.complete cs = true ↔ m.Models (cs.map (List.map Literal.code)) := by
  rw [satisfied, List.all_eq_true, Assignment.Models, List.forall_mem_map]
  refine forall₂_congr fun c hc => ?_
  have hls : ∀ l ∈ c, m (.ofWord l.code) = some (decide (0 < l.code.toInt)) ↔
      l.holds m.complete = true := fun l hl => (Literal.holds_complete_iff (h c hc l hl)).symm
  rw [List.any_eq_true, exists_mem_map_iff hls]

namespace Formula

/-- The clauses of any formula have its truth value. -/
theorem satisfied_clausesAt_eq_truth (σ : Var → Bool) (f : Formula) :
    satisfied σ (clausesAt .positive f) = f.truth σ := by
  rw [← clausesAt_nnfAt, satisfied_clausesAt (isNnf_nnfAt .positive f), truth_nnfAt]
  rfl

/-- The variables of the clauses are those of the formula. -/
theorem mem_vars_iff_clausesAt {f : Formula} (h : f.WellFormed) {v : Var} :
    v ∈ f.vars ↔ ∃ c ∈ clausesAt .positive f, ∃ l ∈ c, l.var = v := by
  rw [← mem_vars_nnfAt .positive, mem_vars, ← clausesAt_nnfAt]
  simp only [← mem_flatten_clausesAt (wellFormed_nnfAt h .positive) (isNnf_nnfAt .positive f),
    List.mem_flatten]
  constructor
  · intro hex
    obtain ⟨l, ⟨c, hc, hl⟩, hv⟩ := hex
    exact ⟨c, hc, l, hl, hv⟩
  · intro hex
    obtain ⟨c, hc, l, hl, hv⟩ := hex
    exact ⟨l, ⟨c, hc, hl⟩, hv⟩

/-- Under an assignment of all variables of a formula, the formula is true exactly if the assignment
is a model of the clauses that conversion and extraction hand over, and these have no other
variables. -/
theorem models_of_clausalForm {f : Formula} (h : f.WellFormed) :
    ∃ r cs, f.clausalForm = .ok r ∧ ClauseList.ofFormula r = .ok cs ∧
      (∀ v, v ∈ cs.vars ↔ v ∈ f.vars) ∧
      ∀ m : Assignment, (∀ v ∈ f.vars, (m v).isSome) →
        (f.eval m = .ok true ↔ m.Models cs.toLists) := by
  obtain ⟨r, hf, hread⟩ := exists_extraction h
  refine ⟨r, _, hf, hread, fun v => ?_, fun m hm => ?_⟩
  · rw [mem_vars_iff_clausesAt h, ClauseList.vars, Var.mem_ascending, List.mem_flatMap]
    simp only [List.mem_map, exists_exists_and_eq_and]
  · have hsome : ∀ c ∈ clausesAt .positive f, ∀ l ∈ c, (m l.var).isSome :=
      fun c hc l hl => hm l.var ((mem_vars_iff_clausesAt h).2 ⟨c, hc, l, hl, rfl⟩)
    rw [toLists_map_mk, ← satisfied_complete_iff hsome, satisfied_clausesAt_eq_truth,
      eval_eq_ok_truth hm, Except.ok.injEq]

theorem models_of_mixed_operands :
    let x1 : Literal := .ofWord 1 (by decide)
    let x2 : Literal := .ofWord 2 (by decide)
    let x3 : Literal := .ofWord 3 (by decide)
    let f := and [lit x1, or [lit x2, not (lit x3)]]
    let m := Assignment.ofPairs [(x1.var, true), (x2.var, false), (x3.var, false)]
    f.WellFormed ∧ (∀ v ∈ f.vars, (m v).isSome) ∧
      ∃ r cs, f.clausalForm = .ok r ∧ ClauseList.ofFormula r = .ok cs ∧ m.Models cs.toLists := by
  intro x1 x2 x3 f m
  have hf : f.WellFormed := by simp [f]
  have h1 : m x1.var = some true := by decide
  have h2 : m x2.var = some false := by decide
  have h3 : m x3.var = some false := by decide
  have hm : ∀ v ∈ f.vars, (m v).isSome := by
    intro v hv
    obtain rfl | rfl | rfl : x1.var = v ∨ x2.var = v ∨ x3.var = v := by simpa [f] using hv
    · rw [h1, Option.isSome_some]
    · rw [h2, Option.isSome_some]
    · rw [h3, Option.isSome_some]
  obtain ⟨r, cs, hr, hcs, -, hmodels⟩ := models_of_clausalForm hf
  have hx1 : x1.holds m.complete = true := by decide
  have hx3 : x3.holds m.complete = false := by decide
  have htruth : f.truth m.complete = true := by simp [f, truth, hx1, hx3]
  refine ⟨hf, hm, r, cs, hr, hcs, (hmodels m hm).1 ?_⟩
  rw [eval_eq_ok_truth hm, htruth]

end Formula

end Clausal
