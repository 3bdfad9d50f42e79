import Clausal.Proofs.FixedPoints

/-! Renaming of literals. The conversion looks at no literal, only at where the literals stand, so
that it commutes with every renaming that respects negation, even one that merges variables. -/
namespace Clausal

namespace Polarity

variable {ρ : Literal → Literal}

theorem onLiteral_rename (hρ : ∀ l, ρ (-l) = -ρ l) (p : Polarity) (l : Literal) :
    p.onLiteral (ρ l) = ρ (p.onLiteral l) := by
  cases p with
  | positive => rfl
  | negative => exact (hρ l).symm

theorem conjoinClauses_map (p : Polarity) (css : List (List (List Literal))) :
    p.conjoinClauses (css.map (List.map (List.map ρ))) =
      (p.conjoinClauses css).map (List.map ρ) := by
  cases p with
  | positive => exact List.map_flatten.symm
  | negative => exact crossClauses_map ρ css

theorem disjoinClauses_map (p : Polarity) (css : List (List (List Literal))) :
    p.disjoinClauses (css.map (List.map (List.map ρ))) =
      (p.disjoinClauses css).map (List.map ρ) := by
  rw [p.disjoinClauses_eq_flip, p.disjoinClauses_eq_flip, conjoinClauses_map]

end Polarity

def Clause.rename (ρ : Literal → Literal) (c : Clause) : Clause := ⟨c.literals.map ρ⟩

def ClauseList.rename (ρ : Literal → Literal) (cs : ClauseList) : ClauseList :=
  ⟨cs.clauses.map (Clause.rename ρ)⟩

namespace Formula

/-- Replaces every literal and keeps the connectives. -/
def rename (ρ : Literal → Literal) : Formula → Formula
  | lit l => lit (ρ l)
  | not a => not (rename ρ a)
  | implies a b => implies (rename ρ a) (rename ρ b)
  | iff a b => iff (rename ρ a) (rename ρ b)
  | and args => and (args.map fun a => rename ρ a)
  | or args => or (args.map fun a => rename ρ a)

variable {ρ : Literal → Literal}

theorem connective?_rename (f : Formula) : (f.rename ρ).connective? = f.connective? := by
  cases f <;> simp [rename, connective?]

theorem operands_rename (f : Formula) : (f.rename ρ).operands = f.operands.map (rename ρ) := by
  cases f <;> simp [rename, operands]

theorem isShort_rename (f : Formula) : (f.rename ρ).IsShort ↔ f.IsShort := by
  cases f <;> simp [rename, IsShort]

theorem arityFault?_rename (f : Formula) : (f.rename ρ).arityFault? = f.arityFault? := by
  simp only [arityFault?, isShort_rename, connective?_rename, operands_rename, List.length_map]

theorem firstArityFault?_rename (f : Formula) :
    (f.rename ρ).firstArityFault? = f.firstArityFault? := by
  induction f using induction_operands with
  | step f ih =>
    have hoperands : f.operands.findSome? (firstArityFault? ∘ rename ρ) =
        f.operands.findSome? firstArityFault? :=
      findSome?_congr ih
    rw [firstArityFault?_eq, firstArityFault?_eq, operands_rename, arityFault?_rename,
      List.findSome?_map, hoperands]

theorem wellFormed_rename {f : Formula} (h : f.WellFormed) (ρ : Literal → Literal) :
    (f.rename ρ).WellFormed := by
  rw [← firstArityFault?_eq_none_iff] at h ⊢
  rw [firstArityFault?_rename, h]

theorem clausesAt_map_rename {args : List Formula} {p : Polarity}
    (h : ∀ a ∈ args, clausesAt p (a.rename ρ) = (clausesAt p a).map (List.map ρ)) :
    (args.map (rename ρ)).map (clausesAt p) =
      (args.map (clausesAt p)).map (List.map (List.map ρ)) := by
  rw [map_map_congr h, List.map_map]
  rfl

theorem clausesAt_rename (hρ : ∀ l, ρ (-l) = -ρ l) (p : Polarity) (f : Formula) :
    clausesAt p (f.rename ρ) = (clausesAt p f).map (List.map ρ) := by
  induction f generalizing p with
  | lit l => simp [rename, clausesAt, Polarity.onLiteral_rename hρ]
  | not a ih => simp only [rename, clausesAt, ih]
  | implies a b iha ihb =>
    simp only [rename, clausesAt, iha, ihb]
    exact p.disjoinClauses_map [_, _]
  | iff a b iha ihb =>
    have hdisjoin : ∀ cs ds : List (List Literal),
        p.disjoinClauses [cs.map (List.map ρ), ds.map (List.map ρ)] =
          (p.disjoinClauses [cs, ds]).map (List.map ρ) :=
      fun cs ds => p.disjoinClauses_map [cs, ds]
    simp only [rename, clausesAt, iha, ihb, hdisjoin]
    exact p.conjoinClauses_map [_, _]
  | and args ih =>
    rw [rename, clausesAt, clausesAt, clausesAt_map_rename fun a ha => ih a ha p,
      p.conjoinClauses_map]
  | or args ih =>
    rw [rename, clausesAt, clausesAt, clausesAt_map_rename fun a ha => ih a ha p,
      p.disjoinClauses_map]

theorem isLiteral_rename {f : Formula} (h : f.IsLiteral) : (f.rename ρ).IsLiteral := by
  obtain ⟨l, rfl⟩ := isLiteral_iff.1 h
  simp [rename, IsLiteral]

theorem isClause_rename {f : Formula} (h : f.IsClause) : (f.rename ρ).IsClause := by
  cases f with
  | lit l => simp [rename, IsClause]
  | or args =>
    obtain ⟨hlen, hlits⟩ := h
    rw [rename]
    refine ⟨by rwa [List.length_map], ?_⟩
    rw [List.forall_mem_map]
    exact fun a ha => isLiteral_rename (hlits a ha)
  | _ => exact h.elim

theorem isClausal_rename {f : Formula} (h : f.IsClausal) : (f.rename ρ).IsClausal := by
  by_cases hc : f.IsClause
  · exact (isClause_rename hc).isClausal
  cases f with
  | and args =>
    obtain ⟨hlen, hclauses⟩ := h
    rw [rename]
    refine ⟨by rwa [List.length_map], ?_⟩
    rw [List.forall_mem_map]
    exact fun a ha => isClause_rename (hclauses a ha)
  | _ => exact absurd h hc

theorem clauseListOfFormula_rename (hρ : ∀ l, ρ (-l) = -ρ l) {r : Formula} (h : r.IsClausal) :
    ClauseList.ofFormula (r.rename ρ) = (ClauseList.ofFormula r).map (ClauseList.rename ρ) := by
  rw [clauseListOfFormula_eq_ok h, clauseListOfFormula_eq_ok (isClausal_rename h),
    clausesAt_rename hρ, List.map_map]
  show _ = Except.ok (ClauseList.rename ρ _)
  rw [ClauseList.rename, List.map_map]
  rfl

/-- A well-formed formula and the renamed one have clausal forms of which the second is the first
renamed, as it is clausal and has the renamed clauses. -/
theorem exists_clausalForm_rename (hρ : ∀ l, ρ (-l) = -ρ l) {f : Formula} (h : f.WellFormed) :
    ∃ r, f.clausalForm = .ok r ∧ (f.rename ρ).clausalForm = .ok (r.rename ρ) := by
  obtain ⟨r, hf, hr, hclauses⟩ := exists_clausalForm_clausesAt h
  obtain ⟨r', hf', hr', hclauses'⟩ := exists_clausalForm_clausesAt (wellFormed_rename h ρ)
  have heq : r' = r.rename ρ := by
    apply hr'.eq_of_clausesAt_eq (isClausal_rename hr)
    rw [hclauses', clausesAt_rename hρ, clausesAt_rename hρ, hclauses]
  exact ⟨r, hf, heq ▸ hf'⟩

/-- Renaming before the conversion and renaming after it give the same, a formula or the fault of
the same short node. The clauses handed over are renamed one by one with every literal, so that none
is simplified, not even where two variables take one name. -/
theorem clausalForm_rename (hρ : ∀ l, ρ (-l) = -ρ l) (f : Formula) :
    (f.rename ρ).clausalForm = f.clausalForm.map (rename ρ) ∧
    (∀ e, (f.rename ρ).clausalForm = .error e ↔ f.clausalForm = .error e) ∧
    (∀ e, f.clausalForm = .error e → ∃ c n, e = .arity c n) ∧
    (f.rename ρ).clauseList = f.clauseList.map (ClauseList.rename ρ) := by
  unfold clauseList
  cases he : f.firstArityFault? with
  | none =>
    obtain ⟨r, hf, hrename⟩ := exists_clausalForm_rename hρ (firstArityFault?_eq_none_iff.1 he)
    rw [hf, hrename]
    refine ⟨rfl, fun e => ⟨nofun, nofun⟩, nofun, ?_⟩
    exact clauseListOfFormula_rename hρ (isClausal_of_clausalForm hf)
  | some e =>
    rw [clausalForm_eq_error he, clausalForm_eq_error ((firstArityFault?_rename f).trans he)]
    refine ⟨rfl, fun e' => Iff.rfl, ?_, rfl⟩
    rintro _ ⟨⟩
    exact exists_arity_of_firstArityFault? he

theorem clausalForm_rename_of_merged_variables :
    let x1 : Literal := .ofWord 1 (by decide)
    let x2 : Literal := .ofWord 2 (by decide)
    let ρ : Literal → Literal := fun l => if l.isNegative then x1 else -x1
    let f := or [lit x1, and [not (lit x2), lit x2]]
    (∀ l, ρ (-l) = -ρ l) ∧ (f.rename ρ).clausalForm = f.clausalForm.map (rename ρ) ∧
      ∃ r, f.clausalForm = .ok r := by
  intro x1 x2 ρ f
  have hρ : ∀ l, ρ (-l) = -ρ l := by
    intro l
    simp only [ρ, Literal.isNegative_neg]
    cases l.isNegative <;> simp
  obtain ⟨hrename, -, -, -⟩ := clausalForm_rename hρ f
  have hf : f.WellFormed := by simp [f]
  obtain ⟨r, hr, -⟩ := exists_clausalForm_clausesAt hf
  exact ⟨hρ, hrename, r, hr⟩

end Formula

end Clausal
