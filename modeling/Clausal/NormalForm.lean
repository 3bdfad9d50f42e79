import Clausal.Formula

/-! The shapes of literals, clauses and clausal forms. -/
namespace Clausal.Formula

def IsLiteral : Formula → Prop
  | lit _ => True
  | _ => False

instance : DecidablePred IsLiteral := fun f =>
  match f with
  | lit _ => inferInstanceAs (Decidable True)
  | not _ | implies _ _ | iff _ _ | and _ | or _ => inferInstanceAs (Decidable False)

/-- A literal, or a disjunction of literals that its arity allows. -/
def IsClause : Formula → Prop
  | lit _ => True
  | or args => Connective.or.arity.Allows args.length ∧ ∀ a ∈ args, a.IsLiteral
  | _ => False

instance : DecidablePred IsClause := fun f =>
  match f with
  | lit _ => inferInstanceAs (Decidable True)
  | or args => inferInstanceAs
      (Decidable (Connective.or.arity.Allows args.length ∧ ∀ a ∈ args, a.IsLiteral))
  | not _ | implies _ _ | iff _ _ | and _ => inferInstanceAs (Decidable False)

/-- A clause, or a conjunction of clauses that its arity allows. -/
def IsClausal : Formula → Prop
  | and args => Connective.and.arity.Allows args.length ∧ ∀ a ∈ args, a.IsClause
  | f => f.IsClause

instance : DecidablePred IsClausal := fun f =>
  match f with
  | and args => inferInstanceAs
      (Decidable (Connective.and.arity.Allows args.length ∧ ∀ a ∈ args, a.IsClause))
  | lit l => inferInstanceAs (Decidable (lit l).IsClause)
  | not a => inferInstanceAs (Decidable (not a).IsClause)
  | implies a b => inferInstanceAs (Decidable (implies a b).IsClause)
  | iff a b => inferInstanceAs (Decidable (iff a b).IsClause)
  | or args => inferInstanceAs (Decidable (or args).IsClause)

theorem isLiteral_iff {f : Formula} : f.IsLiteral ↔ ∃ l, f = lit l := by
  cases f <;> simp [IsLiteral]

theorem IsClause.isClausal {f : Formula} (h : f.IsClause) : f.IsClausal := by
  cases f with
  | and args => exact h.elim
  | _ => exact h

end Clausal.Formula
