import Clausal.Proofs.ArityCheck
import Clausal.Proofs.Rebuilding

/-! What the conversion leaves as it is: the formulas in clausal form and nothing else. Converting
twice is converting once. -/
namespace Clausal.Formula

theorem wellFormed_of_clausalForm {f r : Formula} (h : f.clausalForm = .ok r) : f.WellFormed := by
  cases he : f.firstArityFault? with
  | none => exact firstArityFault?_eq_none_iff.1 he
  | some e =>
    rw [clausalForm_eq_error he] at h
    contradiction

theorem isClausal_of_clausalForm {f r : Formula} (h : f.clausalForm = .ok r) : r.IsClausal := by
  obtain ⟨r', hf, hr, -⟩ := exists_clausalForm_clausesAt (wellFormed_of_clausalForm h)
  rw [h] at hf
  cases hf
  exact hr

/-- The clausal form has the clauses of the formula, and only one clausal form has them. -/
theorem IsClausal.clausalForm_eq_self {f : Formula} (h : f.IsClausal) : f.clausalForm = .ok f := by
  obtain ⟨r, hf, hr, hclauses⟩ := exists_clausalForm_clausesAt h.wellFormed_isNnf.1
  rw [hf, hr.eq_of_clausesAt_eq h hclauses]

theorem clausalForm_bind_clausalForm (f : Formula) :
    (do
      let r ← f.clausalForm
      r.clausalForm) = f.clausalForm := by
  cases h : f.clausalForm with
  | error e => rfl
  | ok r => exact (isClausal_of_clausalForm h).clausalForm_eq_self

/-- The conversion leaves exactly the formulas in clausal form as they are. A second conversion
changes nothing after a first, whether that gives a formula, as it does from every well-formed one,
or a fault. -/
theorem clausalForm_eq_self_iff (f : Formula) :
    (f.clausalForm = .ok f ↔ f.IsClausal) ∧
    (do
      let r ← f.clausalForm
      r.clausalForm) = f.clausalForm ∧
    (f.WellFormed → ∃ r, f.clausalForm = .ok r ∧ r.clausalForm = .ok r) := by
  refine ⟨⟨isClausal_of_clausalForm, IsClausal.clausalForm_eq_self⟩,
    clausalForm_bind_clausalForm f, fun hf => ?_⟩
  obtain ⟨r, hr, hclausal, -⟩ := exists_clausalForm_clausesAt hf
  exact ⟨r, hr, hclausal.clausalForm_eq_self⟩

theorem clausalForm_eq_self_of_two_clauses :
    let x1 := Sample.literal 1 (by decide)
    let x2 := Sample.literal 2 (by decide)
    let f := and [or [x1, x2], x1]
    let g := not f
    f.clausalForm = .ok f ∧ g.clausalForm ≠ .ok g ∧ g.WellFormed ∧
      ∃ r, g.clausalForm = .ok r ∧ r.clausalForm = .ok r := by
  intro x1 x2 f g
  have hf : f.IsClausal := by decide
  have hg : ¬ g.IsClausal := by decide
  have hw : g.WellFormed := by simp [f, g, x1, x2, Sample.literal]
  obtain ⟨hfixed, -, -⟩ := clausalForm_eq_self_iff f
  obtain ⟨hmoved, -, htwice⟩ := clausalForm_eq_self_iff g
  exact ⟨hfixed.2 hf, mt hmoved.1 hg, hw, htwice hw⟩

end Clausal.Formula
