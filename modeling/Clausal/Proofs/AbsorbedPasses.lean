import Clausal.Pass
import Clausal.Proofs.Rebuilding

/-! Passes that a conversion absorbs. A pass that keeps the clauses, in order and with all their
literals, can go before the conversion without a trace in its result. -/
namespace Clausal

namespace Formula

/-- No implication and no equivalence is left. -/
def IsExpanded (f : Formula) : Prop :=
  f.Everywhere fun g => g.connective? ≠ some .implies ∧ g.connective? ≠ some .iff

@[simp] theorem isExpanded_lit (l : Literal) : (lit l).IsExpanded := by
  rw [IsExpanded, everywhere_iff]
  simp [connective?, operands]

@[simp] theorem isExpanded_not {a : Formula} : (not a).IsExpanded ↔ a.IsExpanded := by
  rw [IsExpanded, everywhere_iff]
  simp [connective?, operands, IsExpanded]

@[simp] theorem not_isExpanded_implies (a b : Formula) : ¬ (implies a b).IsExpanded :=
  fun h => h.self.1 rfl

@[simp] theorem not_isExpanded_iff (a b : Formula) : ¬ (iff a b).IsExpanded :=
  fun h => h.self.2 rfl

@[simp] theorem isExpanded_and {args : List Formula} :
    (and args).IsExpanded ↔ ∀ a ∈ args, a.IsExpanded := by
  rw [IsExpanded, everywhere_iff]
  simp [connective?, operands, IsExpanded]

@[simp] theorem isExpanded_or {args : List Formula} :
    (or args).IsExpanded ↔ ∀ a ∈ args, a.IsExpanded := by
  rw [IsExpanded, everywhere_iff]
  simp [connective?, operands, IsExpanded]

theorem operandFault?_eq_none_iff {p : Polarity} {c : Connective} {args : List Formula}
    (h : ∀ a ∈ args, negationFault? p a = none ↔ a.WellFormed ∧ a.IsExpanded) :
    (args.findSome? (negationFault? p)).or (joinFault? c args.length) = none ↔
      (2 ≤ args.length ∧ ∀ a ∈ args, a.WellFormed) ∧ ∀ a ∈ args, a.IsExpanded := by
  rw [Option.or_eq_none_iff, List.findSome?_eq_none_iff, joinFault?_eq_none_iff]
  constructor
  · intro hboth
    obtain ⟨hargs, hlen⟩ := hboth
    exact ⟨⟨hlen, fun a ha => ((h a ha).1 (hargs a ha)).1⟩,
      fun a ha => ((h a ha).1 (hargs a ha)).2⟩
  · intro hboth
    obtain ⟨⟨hlen, hwell⟩, hexpanded⟩ := hboth
    exact ⟨fun a ha => (h a ha).2 ⟨hwell a ha, hexpanded a ha⟩, hlen⟩

theorem negationFault?_eq_none_iff {p : Polarity} {f : Formula} :
    negationFault? p f = none ↔ f.WellFormed ∧ f.IsExpanded := by
  induction f generalizing p with
  | lit l => simp [negationFault?]
  | not a ih => simp [negationFault?, ih]
  | implies a b _ _ => simp [negationFault?]
  | iff a b _ _ => simp [negationFault?]
  | and args ih =>
    rw [negationFault?_and, wellFormed_and, isExpanded_and]
    exact operandFault?_eq_none_iff fun a ha => ih a ha
  | or args ih =>
    rw [negationFault?_or, wellFormed_or, isExpanded_or]
    exact operandFault?_eq_none_iff fun a ha => ih a ha

/-- Negations move inward without a fault where expanding has nothing to do. -/
theorem negateInward_eq_ok {f : Formula} (hw : f.WellFormed) (he : f.IsExpanded) :
    f.negateInward = .ok (nnfAt .positive f) := by
  rw [negateInward_eq, negationFault?_eq_none_iff.2 ⟨hw, he⟩]
  rfl

theorem clausesAt_expandIff (p : Polarity) (f : Formula) :
    clausesAt p f.expandIff = clausesAt p f := by
  rw [← clausesAt_nnfAt, nnfAt_expandIff, clausesAt_nnfAt]

theorem clausesAt_expandImplies (p : Polarity) (f : Formula) :
    clausesAt p f.expandImplies = clausesAt p f := by
  rw [← clausesAt_nnfAt, nnfAt_expandImplies, clausesAt_nnfAt]

theorem exists_transform_clausesAt {step : Formula → Formula}
    (hstep : ∀ g : Formula, g.WellFormed → (step g).WellFormed)
    (hclauses : ∀ p g, clausesAt p (step g) = clausesAt p g) {f : Formula} (hw : f.WellFormed) :
    ∃ g, f.transform step = .ok g ∧ g.WellFormed ∧
      clausesAt .positive g = clausesAt .positive f :=
  ⟨f.bottomUp step, transform_eq_ok hw, hw.bottomUp hstep, clausesAt_bottomUp hclauses .positive f⟩

end Formula

namespace Pass

open Formula

/-- What the pass asks of a formula if it is to keep the clauses: negations move inward only past
conjunctions and disjunctions, and multiplying out below a negation would bring other clauses. -/
def Suits : Pass → Formula → Prop
  | negateInward, f => f.IsExpanded
  | multiplyOut, f => f.IsNnf
  | expandIffs, _ | expandImplications, _ | nnf, _ | mergeNested, _ | clausalForm, _ => True

theorem exists_apply_clausesAt {p : Pass} {f : Formula} (hw : f.WellFormed) (hp : p.Suits f) :
    ∃ g, p.apply f = .ok g ∧ g.WellFormed ∧ clausesAt .positive g = clausesAt .positive f := by
  cases p with
  | expandIffs =>
    exact exists_transform_clausesAt (fun _ => wellFormed_expandIff) clausesAt_expandIff hw
  | expandImplications =>
    exact exists_transform_clausesAt (fun _ => wellFormed_expandImplies) clausesAt_expandImplies hw
  | mergeNested =>
    exact exists_transform_clausesAt (fun _ => wellFormed_mergeNode) clausesAt_mergeNode hw
  | negateInward =>
    exact ⟨_, negateInward_eq_ok hw hp, wellFormed_nnfAt hw .positive, clausesAt_nnfAt .positive f⟩
  | nnf => exact ⟨_, nnf_eq_ok hw, wellFormed_nnfAt hw .positive, clausesAt_nnfAt .positive f⟩
  | multiplyOut =>
    exact ⟨_, multiplyOut_eq_ok hw, hw.bottomUp fun _ => wellFormed_multiplyNode,
      clausesAt_bottomUp_multiplyNode hp⟩
  | clausalForm =>
    obtain ⟨r, hf, hr, hclauses⟩ := exists_clausalForm_clausesAt hw
    exact ⟨r, hf, hr.wellFormed_isNnf.1, hclauses⟩

/-- A pass before the conversion leaves no trace: expanding and merging do so on every well-formed
formula, moving negations inward where everything is expanded, and multiplying out on literals,
conjunctions and disjunctions. -/
theorem clausalForm_of_apply {p : Pass} {f : Formula} (hw : f.WellFormed) (hp : p.Suits f) :
    ∃ g r, p.apply f = .ok g ∧ g.clausalForm = .ok r ∧ f.clausalForm = .ok r := by
  obtain ⟨g, hg, hgw, hclauses⟩ := exists_apply_clausesAt hw hp
  obtain ⟨r, hf, hgr⟩ := exists_clausalForm_of_clausesAt_eq hw hgw hclauses
  exact ⟨g, r, hg, hgr, hf⟩

theorem clausalForm_of_apply_negateInward :
    let x1 : Literal := .ofWord 1 (by decide)
    let x2 : Literal := .ofWord 2 (by decide)
    let x3 : Literal := .ofWord 3 (by decide)
    let f := not (and [lit x1, not (or [lit x2, and [lit x2, lit x3]])])
    f.WellFormed ∧ Pass.negateInward.Suits f ∧
      ∃ g r, Pass.negateInward.apply f = .ok g ∧ g.clausalForm = .ok r ∧ f.clausalForm = .ok r := by
  intro x1 x2 x3 f
  have hw : f.WellFormed := by simp [f]
  have hp : Pass.negateInward.Suits f := by
    simp [Suits, f, IsExpanded, Everywhere, preorder_eq, operands, connective?]
  exact ⟨hw, hp, clausalForm_of_apply hw hp⟩

end Pass

end Clausal
