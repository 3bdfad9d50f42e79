import Clausal.Proofs.ConversionRounds
import Clausal.Proofs.Occurrences

/-! Merged formulas. Merging gives one with the same literals in the same order, and leaves a formula
as it is exactly if it is merged already. -/
namespace Clausal.Formula

theorem literals_parts (c : Connective) (f : Formula) :
    (parts c f).flatMap literals = f.literals := by
  unfold parts
  split
  next hf => exact (literals_of_connective? hf).symm
  next => simp

theorem literals_flatMap_parts (c : Connective) (args : List Formula) :
    (args.flatMap (parts c)).flatMap literals = args.flatMap literals := by
  rw [List.flatMap_assoc]
  exact List.flatMap_congr fun a _ => literals_parts c a

theorem literals_mergeNode (f : Formula) : f.mergeNode.literals = f.literals := by
  cases f with
  | and args => rw [mergeNode_and, literals_and, literals_and, literals_flatMap_parts]
  | or args => rw [mergeNode_or, literals_or, literals_or, literals_flatMap_parts]
  | _ => rfl

theorem flatMap_parts_eq_self {c : Connective} {args : List Formula}
    (h : ∀ a ∈ args, a.connective? ≠ some c) : args.flatMap (parts c) = args := by
  have hparts : args.flatMap (parts c) = args.flatMap fun a => [a] :=
    List.flatMap_congr fun a ha => if_neg (h a ha)
  rw [hparts, List.flatMap_singleton']

theorem IsMerged.mergeNode_eq_self {f : Formula} (h : f.IsMerged) : f.mergeNode = f := by
  cases f with
  | and args =>
    have hargs : ∀ a ∈ args, a.connective? ≠ some .and := h.self .and (.inl rfl) rfl
    rw [mergeNode_and, flatMap_parts_eq_self hargs]
  | or args =>
    have hargs : ∀ a ∈ args, a.connective? ≠ some .or := h.self .or (.inr rfl) rfl
    rw [mergeNode_or, flatMap_parts_eq_self hargs]
  | _ => rfl

theorem IsMerged.bottomUp_eq_self {f : Formula} (h : f.IsMerged) : f.bottomUp mergeNode = f :=
  Formula.bottomUp_eq_self fun _ hg => IsMerged.mergeNode_eq_self (h.of_mem hg)

/-- Merging leaves no conjunction directly below a conjunction and no disjunction directly below a
disjunction, at any depth, keeps the literals with their order and repetitions, and changes nothing
exactly where there was nothing to merge, so that it changes nothing a second time. -/
theorem isMerged_of_mergeNested {f : Formula} (hw : f.WellFormed) :
    ∃ g, f.mergeNested = .ok g ∧ g.IsMerged ∧ g.literals = f.literals ∧
      (g = f ↔ f.IsMerged) ∧ g.mergeNested = .ok g := by
  have hgm : (f.bottomUp mergeNode).IsMerged := isMerged_bottomUp f
  have hgw : (f.bottomUp mergeNode).WellFormed := hw.bottomUp fun _ => wellFormed_mergeNode
  refine ⟨f.bottomUp mergeNode, mergeNested_eq_ok hw, hgm,
    literals_bottomUp literals_mergeNode f, ⟨?_, ?_⟩, ?_⟩
  · intro hfixed
    rwa [hfixed] at hgm
  · exact fun hf => hf.bottomUp_eq_self
  · rw [mergeNested_eq_ok hgw, hgm.bottomUp_eq_self]

/-- Three conjunctions in one another, and two disjunctions below a negation. -/
theorem isMerged_of_nested_conjunctions :
    let x1 : Literal := .ofWord 1 (by decide)
    let x2 : Literal := .ofWord 2 (by decide)
    let x3 : Literal := .ofWord 3 (by decide)
    let f := and [and [lit x1, and [lit x2, lit x1]], not (or [or [lit x3, lit x2], lit x3])]
    let g := and [lit x1, lit x2, lit x1, not (or [lit x3, lit x2, lit x3])]
    f.WellFormed ∧ f.mergeNested = .ok g ∧ g.IsMerged ∧ g.literals = f.literals ∧ ¬ f.IsMerged ∧
      g.mergeNested = .ok g := by
  intro x1 x2 x3 f g
  have hw : f.WellFormed := by simp [f]
  have hg : f.mergeNested = .ok g := by
    rw [mergeNested_eq_ok hw]
    simp [f, g, bottomUp, mergeNode, conjuncts, disjuncts]
  obtain ⟨r, hr, hmerged, hliterals, hfixed, hagain⟩ := isMerged_of_mergeNested hw
  obtain rfl : r = g := Except.ok.inj (hr.symm.trans hg)
  have hne : g ≠ f := by decide
  exact ⟨hw, hr, hmerged, hliterals, fun hf => hne (hfixed.2 hf), hagain⟩

end Clausal.Formula
