import Clausal.Proofs.ArityCheck
import Clausal.Proofs.Rebuilding
import Clausal.Proofs.StackHeight

/-! Formulas of any shape, short nodes included, make no operation break a promise: copies, passes
and extraction end with a value or with a fault of the formula. -/
namespace Clausal

/-- A value, or a fault that is no broken promise. -/
def KeepsPromises {α : Type} (x : Except Fault α) : Prop := ∀ q, x ≠ .error (.broken q)

theorem keepsPromises_of_ne {α : Type} {x : Except Fault α}
    (h : ∀ e, x = .error e → ∀ q, e ≠ .broken q) : KeepsPromises x :=
  fun q hx => h _ hx q rfl

theorem KeepsPromises.map {α β : Type} {x : Except Fault α} (h : KeepsPromises x) (g : α → β) :
    KeepsPromises (x.map g) := by
  intro q hq
  cases x with
  | ok a => contradiction
  | error e =>
    cases hq
    exact h q rfl

namespace Traversal

variable {σ : Type}

theorem not_raises_copying (e : Fault) : ¬ copying.Raises e := by
  intro h
  cases h with
  | @refuse _ f _ henter => exact split_ne_refuse f e henter
  | @join c args _ hschedules hfails =>
    obtain ⟨_, f, _, henter, hlen⟩ := hschedules
    have hsome := Formula.ofOperands?_isSome_of_length (connective?_of_split henter) hlen.symm
    obtain ⟨g, hg⟩ := Option.isSome_iff_exists.1 hsome
    simp only [copying, hg] at hfails
    contradiction

theorem raises_transforming {step : Formula → StateM σ Formula} {e : Fault}
    (h : (transforming step).Raises e) : ∃ c n, e = .arity c n := by
  cases h with
  | @refuse _ f _ henter => exact absurd henter (split_ne_refuse f e)
  | @join c args _ _ hfails =>
    obtain ⟨-, he⟩ := Formula.ofConnective_eq_error_iff.1 hfails
    exact ⟨c, _, he⟩

theorem raises_negating {e : Fault} (h : Formula.negating.Raises e) :
    (∃ c n, e = .arity c n) ∨ ∃ c, e = .unexpanded c := by
  cases h with
  | @refuse p f _ henter =>
    cases f with
    | implies a b | iff a b =>
      cases henter
      exact .inr ⟨_, rfl⟩
    | _ => contradiction
  | @join c args _ _ hfails =>
    obtain ⟨-, he⟩ := Formula.ofConnective_eq_error_iff.1 hfails
    exact .inl ⟨c, _, he⟩

theorem dropsUnary_copying : copying.DropsUnary :=
  fun _ f k h => absurd h (split_ne_skip f k)

end Traversal

namespace Formula

open Traversal

theorem exists_copy_eq_ok (f : Formula) : ∃ g, f.copy = .ok g := by
  cases h : f.copy with
  | ok g => exact ⟨g, rfl⟩
  | error e => exact absurd (run_raises dropsUnary_copying h) (not_raises_copying e)

theorem keepsPromises_transformM {σ : Type} (step : Formula → StateM σ Formula) (f : Formula)
    (s : σ) : KeepsPromises ((f.transformM step).run s).1 := by
  refine keepsPromises_of_ne fun e he q => ?_
  obtain ⟨c, n, rfl⟩ := raises_transforming (run_raises (dropsUnary_transforming step) he)
  nofun

theorem keepsPromises_negateInward (f : Formula) : KeepsPromises f.negateInward := by
  refine keepsPromises_of_ne fun e he q => ?_
  obtain ⟨c, n, rfl⟩ | ⟨c, rfl⟩ := raises_negating (run_raises dropsUnary_negating he)
  · nofun
  · nofun

end Formula

theorem Pass.keepsPromises_apply (p : Pass) (f : Formula) : KeepsPromises (p.apply f) := by
  by_cases hp : p = .negateInward
  · subst hp
    exact f.keepsPromises_negateInward
  · obtain ⟨r, hr, -⟩ := exists_apply_eq hp f
    refine keepsPromises_of_ne fun e he q => ?_
    rw [hr, faultOr_eq_error_iff] at he
    obtain ⟨c, n, rfl⟩ := Formula.exists_arity_of_firstArityFault? he
    nofun

namespace ClauseList

theorem ofFormula_keeps_nonempty (f : Formula) :
    (∃ cs, ofFormula f = .ok cs ∧ ∀ c ∈ cs.clauses, c.literals ≠ []) ∨
      ofFormula f = .error .notClausal := by
  by_cases hf : f.IsClausal
  · obtain ⟨cs, hcs, rfl⟩ := exists_toFormula_eq hf
    exact .inl ⟨cs, ofFormula_toFormula hcs, hcs.literals_ne_nil⟩
  · exact .inr (ofFormula_of_not_isClausal hf)

theorem keepsPromises_ofFormula (f : Formula) : KeepsPromises (ofFormula f) := by
  obtain ⟨cs, hcs, -⟩ | hf := ofFormula_keeps_nonempty f
  · rw [hcs]
    nofun
  · rw [hf]
    nofun

end ClauseList

theorem Formula.firstAnd?_splits (args : List Formula) :
    (∀ a ∈ args, a.isAnd = false) ∨
      ∃ before cs after, firstAnd? args = some (before, cs, after) ∧
        args = before ++ and cs :: after := by
  cases h : firstAnd? args with
  | none => exact .inl (firstAnd?_eq_none_iff.1 h)
  | some split =>
    obtain ⟨before, cs, after⟩ := split
    exact .inr ⟨before, cs, after, rfl, firstAnd?_eq_some h⟩

/-- Whatever the formula and the numbers of operands in it, copying it gives a formula, and
rewriting it node by node, every pass and extraction break no promise: each gives a result or
refuses the formula. A disjunction is split only at a conjunction, no clause comes out empty, and
negating a literal stays within its word. -/
theorem promises_kept (f : Formula) :
    (∃ g, f.copy = .ok g) ∧
    (∀ (σ : Type) (step : Formula → StateM σ Formula) (s : σ),
      KeepsPromises ((f.transformM step).run s).1) ∧
    (∀ p : Pass, KeepsPromises (p.apply f)) ∧
    ((∃ cs, ClauseList.ofFormula f = .ok cs ∧ ∀ c ∈ cs.clauses, c.literals ≠ []) ∨
      ClauseList.ofFormula f = .error .notClausal) ∧
    KeepsPromises ((ClauseList.ofFormula f).map ClauseList.toLists) ∧
    KeepsPromises ((ClauseList.ofFormula f).map ClauseList.dimacs) ∧
    (∀ args : List Formula, (∀ a ∈ args, a.isAnd = false) ∨
      ∃ before cs after, Formula.firstAnd? args = some (before, cs, after) ∧
        args = before ++ .and cs :: after) ∧
    ∀ l : Literal, (-l).toInt = -l.toInt := by
  have hread := ClauseList.keepsPromises_ofFormula f
  exact ⟨f.exists_copy_eq_ok, fun σ step s => f.keepsPromises_transformM step s,
    fun p => p.keepsPromises_apply f, ClauseList.ofFormula_keeps_nonempty f, hread.map _,
    hread.map _, Formula.firstAnd?_splits, Literal.toInt_neg⟩

theorem promises_kept_without_operands :
    let x1 := Sample.literal 1 (by decide)
    let f := Formula.and [.or [], .not (.and [x1])]
    let args := [x1, .and []]
    (∃ g, f.copy = .ok g) ∧ KeepsPromises f.negateInward ∧ KeepsPromises f.clausalForm ∧
      ∃ before cs after, Formula.firstAnd? args = some (before, cs, after) ∧
        args = before ++ .and cs :: after := by
  intro x1 f args
  obtain ⟨hcopy, -, hpass, -, -, -, hsplit, -⟩ := promises_kept f
  have hand : ¬ ∀ a ∈ args, a.isAnd = false := by decide
  exact ⟨hcopy, hpass .negateInward, hpass .clausalForm, (hsplit args).resolve_left hand⟩

end Clausal
