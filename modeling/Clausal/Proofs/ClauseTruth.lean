import Clausal.Proofs.ReferenceClauses
import Clausal.Proofs.Truth

/-! The clauses of a formula have its truth value and its variables, and so has the formula that the
conversion makes of them. -/
namespace Clausal

/-- Whether every clause has a true literal. -/
def satisfied (σ : Var → Bool) (cs : List (List Literal)) : Bool :=
  cs.all fun c => c.any (Literal.holds σ)

theorem satisfied_flatten (σ : Var → Bool) (css : List (List (List Literal))) :
    satisfied σ css.flatten = css.all (satisfied σ) := by
  rw [satisfied, List.all_flatten]
  rfl

theorem satisfied_crossClauses (σ : Var → Bool) (css : List (List (List Literal))) :
    satisfied σ (crossClauses css) = css.any (satisfied σ) := by
  have hchoices := all_any_choices (fun c : List Literal => c.any (Literal.holds σ)) css
  rw [satisfied, crossClauses, List.all_map]
  simp only [Function.comp_def, List.any_flatten]
  exact hchoices

theorem crossClauses_ne_nil {css : List (List (List Literal))} (h : ∀ cs ∈ css, cs ≠ []) :
    crossClauses css ≠ [] := by
  have hpos : 0 < (choices css).length :=
    length_choices_pos fun cs hcs => List.length_pos_iff.2 (h cs hcs)
  intro hnil
  rw [crossClauses, List.map_eq_nil_iff] at hnil
  simp [hnil] at hpos

theorem mem_flatten_flatten {css : List (List (List Literal))} {l : Literal} :
    l ∈ css.flatten.flatten ↔ ∃ cs ∈ css, l ∈ cs.flatten := by
  simp only [List.mem_flatten]
  constructor
  · intro hex
    obtain ⟨c, ⟨cs, hcs, hc⟩, hl⟩ := hex
    exact ⟨cs, hcs, c, hc, hl⟩
  · intro hex
    obtain ⟨cs, hcs, c, hc, hl⟩ := hex
    exact ⟨c, ⟨cs, hcs, hc⟩, hl⟩

theorem mem_flatten_crossClauses {css : List (List (List Literal))} (h : ∀ cs ∈ css, cs ≠ [])
    {l : Literal} : l ∈ (crossClauses css).flatten ↔ ∃ cs ∈ css, l ∈ cs.flatten := by
  rw [crossClauses, List.mem_flatten]
  constructor
  · intro hex
    obtain ⟨_, hmem, hl⟩ := hex
    obtain ⟨ys, hys, rfl⟩ := List.mem_map.1 hmem
    obtain ⟨c, hc, hl⟩ := List.mem_flatten.1 hl
    obtain ⟨cs, hcs, hc⟩ := exists_mem_of_mem_choices hys hc
    exact ⟨cs, hcs, List.mem_flatten.2 ⟨c, hc, hl⟩⟩
  · intro hex
    obtain ⟨cs, hcs, hl⟩ := hex
    obtain ⟨c, hc, hl⟩ := List.mem_flatten.1 hl
    obtain ⟨ys, hys, hc⟩ :=
      exists_mem_choices (fun ds hds => List.length_pos_iff.2 (h ds hds)) hcs hc
    exact ⟨ys.flatten, List.mem_map_of_mem hys, List.mem_flatten.2 ⟨c, hc, hl⟩⟩

namespace Formula

/-- The clauses of a formula in negation normal form have its truth value. -/
theorem satisfied_clausesAt {f : Formula} (hn : f.IsNnf) (σ : Var → Bool) :
    satisfied σ (clausesAt .positive f) = f.truth σ := by
  induction f with
  | lit l => simp [clausesAt, satisfied, truth]
  | and args ih =>
    have hargs : (args.map (clausesAt .positive)).map (satisfied σ) = args.map (truth σ) :=
      map_map_congr fun a ha => ih a ha (hn.operand ha)
    rw [clausesAt_and, List.flatMap, satisfied_flatten, truth, ← hargs,
      List.all_map (f := satisfied σ)]
    rfl
  | or args ih =>
    have hargs : (args.map (clausesAt .positive)).map (satisfied σ) = args.map (truth σ) :=
      map_map_congr fun a ha => ih a ha (hn.operand ha)
    rw [clausesAt_or, satisfied_crossClauses, truth, ← hargs, List.any_map (f := satisfied σ)]
    rfl
  | _ => simpa [connective?] using hn.self

theorem clausesAt_ne_nil {f : Formula} (hw : f.WellFormed) (hn : f.IsNnf) :
    clausesAt .positive f ≠ [] := by
  induction f with
  | lit l => simp [clausesAt]
  | and args ih =>
    obtain ⟨hlen, hargs⟩ := wellFormed_and.1 hw
    obtain ⟨a, ha⟩ := List.exists_mem_of_length_pos (Nat.lt_of_lt_of_le Nat.zero_lt_two hlen)
    rw [clausesAt_and]
    intro hnil
    exact ih a ha (hargs a ha) (hn.operand ha) (List.flatMap_eq_nil_iff.1 hnil a ha)
  | or args ih =>
    rw [clausesAt_or]
    refine crossClauses_ne_nil ?_
    rw [List.forall_mem_map]
    exact fun a ha => ih a ha (hw.operand ha) (hn.operand ha)
  | _ => simpa [connective?] using hn.self

/-- No literal is lost on the way to clauses, and none is new. -/
theorem mem_flatten_clausesAt {f : Formula} (hw : f.WellFormed) (hn : f.IsNnf) {l : Literal} :
    l ∈ (clausesAt .positive f).flatten ↔ l ∈ f.literals := by
  have hargs : ∀ {args : List Formula},
      (∀ a ∈ args, l ∈ (clausesAt .positive a).flatten ↔ l ∈ a.literals) →
      ((∃ cs ∈ args.map (clausesAt .positive), l ∈ cs.flatten) ↔ ∃ a ∈ args, l ∈ a.literals) :=
    exists_mem_map_iff (P := fun cs : List (List Literal) => l ∈ cs.flatten)
  induction f with
  | lit m =>
    rw [mem_literals]
    simp [clausesAt, operands, eq_comm]
  | and args ih =>
    rw [clausesAt_and, List.flatMap, mem_flatten_flatten, mem_literals,
      hargs fun a ha => ih a ha (hw.operand ha) (hn.operand ha)]
    simp [operands]
  | or args ih =>
    have hne : ∀ cs ∈ args.map (clausesAt .positive), cs ≠ [] := by
      rw [List.forall_mem_map]
      exact fun a ha => clausesAt_ne_nil (hw.operand ha) (hn.operand ha)
    rw [clausesAt_or, mem_flatten_crossClauses hne, mem_literals,
      hargs fun a ha => ih a ha (hw.operand ha) (hn.operand ha)]
    simp [operands]
  | _ => simpa [connective?] using hn.self

/-- A clausal form with the clauses of a formula has the literals of its negation normal form. -/
theorem mem_literals_of_clausesAt {f r : Formula} (hf : f.WellFormed) (hr : r.IsClausal)
    (h : clausesAt .positive r = clausesAt .positive f) {l : Literal} :
    l ∈ r.literals ↔ l ∈ (nnfAt .positive f).literals := by
  obtain ⟨hrw, hrn⟩ := hr.wellFormed_isNnf
  rw [← mem_flatten_clausesAt hrw hrn, h, ← clausesAt_nnfAt,
    mem_flatten_clausesAt (wellFormed_nnfAt hf .positive) (isNnf_nnfAt .positive f)]

/-- The conversion keeps the truth value and the variables. -/
theorem exists_clausalForm_truth {f : Formula} (h : f.WellFormed) :
    ∃ r, f.clausalForm = .ok r ∧ r.IsEager ∧ (∀ v, v ∈ r.vars ↔ v ∈ f.vars) ∧
      ∀ σ, r.truth σ = f.truth σ := by
  obtain ⟨r, hf, hr, hclauses⟩ := exists_clausalForm_clausesAt h
  have hrn := hr.wellFormed_isNnf.2
  refine ⟨r, hf, hrn.isEager, fun v => ?_, fun σ => ?_⟩
  · rw [← mem_vars_nnfAt .positive (f := f), mem_vars, mem_vars]
    simp only [mem_literals_of_clausesAt h hr hclauses]
  · rw [← satisfied_clausesAt hrn, hclauses, ← clausesAt_nnfAt,
      satisfied_clausesAt (isNnf_nnfAt .positive f), truth_nnfAt]
    rfl

/-- The clausal form has a truth value exactly where all variables are assigned, and there it is the
truth value of the formula. Elsewhere it names a variable that is not assigned. -/
theorem eval_clausalForm {f : Formula} (h : f.WellFormed) :
    ∃ r, f.clausalForm = .ok r ∧ ∀ m : Assignment,
      (∀ b, r.eval m = .ok b ↔ (∀ v ∈ f.vars, (m v).isSome) ∧ f.eval m = .ok b) ∧
      ((∃ v ∈ f.vars, m v = none) →
        ∃ v ∈ f.vars, m v = none ∧ r.eval m = .error (.unassigned v)) := by
  obtain ⟨r, hf, hr, hvars, htruth⟩ := exists_clausalForm_truth h
  refine ⟨r, hf, fun m => ⟨fun b => ?_, fun hm => ?_⟩⟩
  · rw [hr.eval_eq_ok_iff, htruth]
    simp only [hvars]
    refine and_congr_right fun hall => ?_
    rw [eval_eq_ok_truth hall, Except.ok.injEq]
  · have hm : ∃ v ∈ r.vars, m v = none := by simpa only [hvars] using hm
    obtain ⟨v, hv, hnone, heval⟩ := hr.exists_unassigned hm
    exact ⟨v, (hvars v).1 hv, hnone, heval⟩

theorem eval_clausalForm_of_implication :
    let x1 : Literal := .ofWord 1 (by decide)
    let x2 : Literal := .ofWord 2 (by decide)
    let f := implies (lit x1) (lit x2)
    let m := Assignment.empty.set x1.var false
    f.WellFormed ∧ f.eval m = .ok true ∧
      ∃ r, f.clausalForm = .ok r ∧ r.eval m = .error (.unassigned x2.var) := by
  intro x1 x2 f m
  have hf : f.WellFormed := by simp [f]
  have h1 : m x1.var = some false := Assignment.set_self _ _ _
  have h2 : m x2.var = none := Assignment.set_of_ne _ (by decide) _
  obtain ⟨r, hr, heval⟩ := eval_clausalForm hf
  obtain ⟨v, hv, hnone, herror⟩ := (heval m).2 ⟨x2.var, by simp [f], h2⟩
  refine ⟨hf, ?_, r, hr, ?_⟩
  · have hpositive : x1.isNegative = false := by decide
    have hpremise : (lit x1).eval m = .ok false := by
      rw [eval, h1, hpositive]
      rfl
    rw [eval, hpremise]
    rfl
  · obtain rfl | rfl : x1.var = v ∨ x2.var = v := by simpa [f] using hv
    · rw [h1] at hnone
      contradiction
    · exact herror

end Formula

end Clausal
