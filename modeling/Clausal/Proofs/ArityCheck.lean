import Clausal.Pass
import Clausal.Proofs.ConversionRounds

/-! The one thing that a pass refuses: a conjunction or disjunction of fewer than two operands. The
first in postorder decides the fault, whichever the pass. -/
namespace Clausal

namespace Formula

theorem nnf_eq_error {f : Formula} {e : Fault} (h : f.firstArityFault? = some e) :
    f.nnf = .error e := by
  rw [nnf, expandIffs, transform_eq, h]
  rfl

theorem clausalForm_eq_error {f : Formula} {e : Fault} (h : f.firstArityFault? = some e) :
    f.clausalForm = .error e := by
  rw [clausalForm, nnf_eq_error h]
  rfl

end Formula

namespace Pass

open Formula

theorem exists_transform_eq {step : Formula → Formula}
    (hstep : ∀ g : Formula, g.WellFormed → (step g).WellFormed) (f : Formula) :
    ∃ r, f.transform step = faultOr f.firstArityFault? r ∧ (f.WellFormed → r.WellFormed) :=
  ⟨f.bottomUp step, transform_eq step f, fun hf => hf.bottomUp hstep⟩

/-- The passes that rewrite node by node, and those that go on after such a pass, check the whole
formula before anything else. -/
theorem exists_apply_eq {p : Pass} (hp : p ≠ .negateInward) (f : Formula) :
    ∃ r, p.apply f = faultOr f.firstArityFault? r ∧ (f.WellFormed → r.WellFormed) := by
  cases p with
  | expandIffs => exact exists_transform_eq (fun _ => wellFormed_expandIff) f
  | expandImplications => exact exists_transform_eq (fun _ => wellFormed_expandImplies) f
  | mergeNested => exact exists_transform_eq (fun _ => wellFormed_mergeNode) f
  | multiplyOut => exact exists_transform_eq (fun _ => wellFormed_multiplyNode) f
  | negateInward => exact absurd rfl hp
  | nnf =>
    refine ⟨nnfAt .positive f, ?_, fun hf => wellFormed_nnfAt hf .positive⟩
    cases he : f.firstArityFault? with
    | none => exact nnf_eq_ok (firstArityFault?_eq_none_iff.1 he)
    | some e => exact nnf_eq_error he
  | clausalForm =>
    cases he : f.firstArityFault? with
    | none =>
      obtain ⟨k, r, -, hr, hf⟩ := exists_clausalForm_eq_ok (firstArityFault?_eq_none_iff.1 he)
      exact ⟨r, hf, fun _ => hr.isClausal.wellFormed_isNnf.1⟩
    | some e =>
      refine ⟨f, clausalForm_eq_error he, fun hf => ?_⟩
      rw [firstArityFault?_eq_none_iff.2 hf] at he
      contradiction

/-- Every pass but moving negations inward fails exactly on the formulas with a short node, always
with the fault of the first short node in postorder, and otherwise gives a well-formed formula. -/
theorem apply_checks_arity {p : Pass} (hp : p ≠ .negateInward) (f : Formula) :
    ((∃ e, p.apply f = .error e) ↔ ∃ g ∈ f.preorder, g.IsShort) ∧
      (∀ e, p.apply f = .error e ↔ f.firstArityFault? = some e) ∧
      (∀ e, p.apply f = .error e →
        ∃ before g after c, f.postorder = before ++ g :: after ∧ (∀ b ∈ before, ¬ b.IsShort) ∧
          g.IsShort ∧ g.connective? = some c ∧ e = .arity c g.operands.length) ∧
      ∀ r, p.apply f = .ok r → r.WellFormed := by
  obtain ⟨r, hr, hw⟩ := exists_apply_eq hp f
  have herror : ∀ e, p.apply f = .error e ↔ f.firstArityFault? = some e := by
    intro e
    rw [hr, faultOr_eq_error_iff]
  refine ⟨?_, herror, fun e he => firstArityFault?_eq_some ((herror e).1 he), ?_⟩
  · rw [← not_wellFormed_iff, ← firstArityFault?_eq_none_iff, ← ne_eq, Option.ne_none_iff_exists']
    simp only [herror]
  · intro r' hr'
    rw [hr, faultOr_eq_ok_iff] at hr'
    obtain ⟨hnone, rfl⟩ := hr'
    exact hw (firstArityFault?_eq_none_iff.1 hnone)

theorem clausalForm_of_short_operands :
    let f := Formula.and [.not (.or [Sample.literal 1 (by decide)]), .and []]
    Pass.clausalForm ≠ .negateInward ∧ Pass.clausalForm.apply f = .error (.arity .or 1) := by
  intro f
  have hp : Pass.clausalForm ≠ .negateInward := by decide
  have hfault : f.firstArityFault? = some (.arity .or 1) := by
    simp [f, Sample.literal, firstArityFault?, postorder_eq, operands, arityFault?, IsShort,
      connective?]
  obtain ⟨-, herror, -, -⟩ := apply_checks_arity hp f
  exact ⟨hp, (herror _).2 hfault⟩

end Pass

end Clausal
