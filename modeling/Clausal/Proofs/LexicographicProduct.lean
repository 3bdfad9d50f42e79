import Clausal.Proofs.ConversionRounds
import Mathlib.Algebra.BigOperators.Group.List.Basic

/-! Multiplying out by plain recursion. A disjunction over conjunctions becomes the conjunction of
all disjunctions that take one conjunct of each operand, in lexicographic order; once no conjunction
stands directly below a disjunction, nothing changes any more. -/
namespace Clausal

section Choices

variable {α : Type}

theorem length_choices (xss : List (List α)) :
    (choices xss).length = (xss.map List.length).prod := by
  induction xss with
  | nil => rfl
  | cons xs xss ih => rw [length_choices_cons, ih, List.map_cons, List.prod_cons]

/-- Choices from ordered lists come in lexicographic order. -/
theorem pairwise_choices {R : α → α → Prop} {xss : List (List α)}
    (h : ∀ xs ∈ xss, xs.Pairwise R) : (choices xss).Pairwise (List.Lex R) := by
  induction xss with
  | nil => simp
  | cons xs xss ih =>
    have hrest := ih fun ys hys => h ys (by simp [hys])
    rw [choices_cons, List.pairwise_flatMap]
    -- Choices with the same first item are ordered by the rest, others by the first item alone.
    constructor
    · intro x _
      rw [List.pairwise_map]
      exact hrest.imp fun hlex => .cons hlex
    · refine (h xs (by simp)).imp fun hxy ys hys zs hzs => ?_
      obtain ⟨_, _, rfl⟩ := List.mem_map.1 hys
      obtain ⟨_, _, rfl⟩ := List.mem_map.1 hzs
      exact .rel hxy

/-- The picks are all the ways to take one item of each list, every item with its place in the list,
in lexicographic order of the places: the place in the first list is the most significant. -/
structure IsLexProduct (picks : List (List (α × Nat))) (xss : List (List α)) : Prop where
  mem_iff : ∀ ps, ps ∈ picks ↔ List.Forall₂ (· ∈ ·) ps (xss.map fun xs => xs.zipIdx)
  ordered : picks.Pairwise (List.Lex fun p q => p.2 < q.2)

theorem pairwise_zipIdx (xs : List α) : xs.zipIdx.Pairwise fun p q => p.2 < q.2 := by
  have hplaces : (xs.zipIdx.map Prod.snd).Pairwise (· < ·) := by
    rw [List.zipIdx_map_snd]
    exact List.pairwise_lt_range'
  exact List.pairwise_map.1 hplaces

theorem isLexProduct_choices (xss : List (List α)) :
    IsLexProduct (choices (xss.map fun xs => xs.zipIdx)) xss where
  mem_iff _ := mem_choices
  ordered := by
    apply pairwise_choices
    rw [List.forall_mem_map]
    exact fun xs _ => pairwise_zipIdx xs

theorem map_fst_choices (xss : List (List α)) :
    (choices (xss.map fun xs => xs.zipIdx)).map (List.map Prod.fst) = choices xss := by
  rw [← choices_map, List.map_map]
  simp [Function.comp_def]

end Choices

namespace Formula

/-- Multiplied out from the leaves up. -/
def multiplied : Formula → Formula
  | lit l => lit l
  | not a => not (multiplied a)
  | implies a b => implies (multiplied a) (multiplied b)
  | iff a b => iff (multiplied a) (multiplied b)
  | and args => and (args.map fun a => multiplied a)
  | or args =>
    let operands := args.map fun a => multiplied a
    if operands.any isAnd then and ((choices (operands.map conjunctLeaves)).map or)
    else or operands

theorem multiplied_eq_bottomUp (f : Formula) : f.multiplied = f.bottomUp multiplyNode := by
  induction f with
  | lit l =>
    rw [multiplied, bottomUp]
    rfl
  | not a ih =>
    rw [multiplied, bottomUp, ih]
    rfl
  | implies a b iha ihb | iff a b iha ihb =>
    rw [multiplied, bottomUp, iha, ihb]
    rfl
  | and args ih =>
    rw [multiplied, bottomUp, List.map_congr_left ih]
    rfl
  | or args ih => rw [multiplied, bottomUp, List.map_congr_left ih, multiplyNode_or]

/-- Multiplying out a well-formed formula gives, from the leaves up, for each disjunction over a
conjunction the conjunction of all its choices. The loop that splits conjunctions finds the choices
from any operands: each takes one leaf of every operand, in the place of the operand, and they come
in lexicographic order, as many as the product of the numbers of leaves. -/
theorem multiplyOut_eq_multiplied {f : Formula} (hw : f.WellFormed) :
    f.multiplyOut = .ok f.multiplied ∧
      ∀ operands : List Formula,
        let leaves := operands.map conjunctLeaves
        multiplyPending [operands] [] = (choices leaves).map or ∧
          (choices leaves).length = (leaves.map List.length).prod ∧
          (∀ ys ∈ choices leaves, List.Forall₂ (· ∈ ·) ys leaves) ∧
          ∃ picks, choices leaves = picks.map (List.map Prod.fst) ∧ IsLexProduct picks leaves := by
  constructor
  · rw [multiplyOut_eq_ok hw, multiplied_eq_bottomUp]
  · intro operands leaves
    refine ⟨?_, length_choices leaves, fun ys hys => mem_choices.1 hys, _,
      (map_fst_choices leaves).symm, isLexProduct_choices leaves⟩
    rw [multiplyPending_eq]
    simp [leaves]

/-- Two conjunctions of unequal sizes, one of them nested, around a literal. -/
theorem multiplyOut_of_nested_conjunction :
    let x1 : Literal := .ofWord 1 (by decide)
    let x2 : Literal := .ofWord 2 (by decide)
    let f := or [and [lit x1, and [lit x2, lit (-x1)]], lit x2, and [lit x1, lit (-x2)]]
    f.WellFormed ∧ f.multiplyOut = .ok (and
      [or [lit x1, lit x2, lit x1], or [lit x1, lit x2, lit (-x2)],
        or [lit x2, lit x2, lit x1], or [lit x2, lit x2, lit (-x2)],
        or [lit (-x1), lit x2, lit x1], or [lit (-x1), lit x2, lit (-x2)]]) := by
  intro x1 x2 f
  have hf : f.WellFormed := by simp [f]
  have hmultiplied := (multiplyOut_eq_multiplied hf).1
  refine ⟨hf, ?_⟩
  simpa [f, multiplied, isAnd, conjunctLeaves, choices] using hmultiplied

/-- Below a disjunction of a multiplied out formula in negation normal form there is no
conjunction, however deep. -/
theorem IsMultipliedOut.everywhere_not_isAnd {f : Formula} (hm : f.IsMultipliedOut)
    (hn : f.IsNnf) (hf : f.isAnd = false) : f.Everywhere fun g => g.isAnd = false := by
  induction f using induction_operands with
  | step f ih =>
    refine everywhere_iff.2 ⟨hf, fun a ha => ih a ha (hm.operand ha) (hn.operand ha) ?_⟩
    cases f with
    | lit l => simp [operands] at ha
    | and args => simp [isAnd] at hf
    | or args => exact hm.self args rfl a ha
    | _ => simpa [connective?] using hn.self

/-- Multiplying out leaves no conjunction directly below a disjunction, changes nothing exactly
where there was none, and so changes nothing a second time. From literals, conjunctions and
disjunctions alone it leaves no conjunction at all below a disjunction. -/
theorem isMultipliedOut_of_multiplyOut {f : Formula} (hw : f.WellFormed) :
    ∃ g, f.multiplyOut = .ok g ∧ g.IsMultipliedOut ∧ (g = f ↔ f.IsMultipliedOut) ∧
      g.multiplyOut = .ok g ∧
      (f.IsNnf → ∀ args, or args ∈ g.preorder →
        ∀ a ∈ args, a.Everywhere fun b => b.isAnd = false) := by
  have hgm : (f.bottomUp multiplyNode).IsMultipliedOut := isMultipliedOut_bottomUp f
  have hgw : (f.bottomUp multiplyNode).WellFormed := hw.bottomUp fun _ => wellFormed_multiplyNode
  refine ⟨f.bottomUp multiplyNode, multiplyOut_eq_ok hw, hgm, ⟨?_, ?_⟩, ?_, ?_⟩
  · intro hfixed
    rwa [hfixed] at hgm
  · exact fun hf => hf.bottomUp_eq_self
  · rw [multiplyOut_eq_ok hgw, hgm.bottomUp_eq_self]
  · intro hn args hargs a ha
    have hgn : (f.bottomUp multiplyNode).IsNnf := hn.bottomUp fun _ => isNnf_multiplyNode
    have hnode : (or args).IsMultipliedOut := hgm.of_mem hargs
    have hnnf : (or args).IsNnf := hgn.of_mem hargs
    exact IsMultipliedOut.everywhere_not_isAnd (hnode.operand ha) (hnnf.operand ha)
      (hnode.self args rfl a ha)

/-- The inner disjunction turns into a conjunction, which the outer one has to split in turn. -/
theorem isMultipliedOut_of_nested_disjunctions :
    let x1 : Literal := .ofWord 1 (by decide)
    let x2 : Literal := .ofWord 2 (by decide)
    let x3 : Literal := .ofWord 3 (by decide)
    let f := or [lit x1, or [lit x2, and [lit x3, lit (-x1)]]]
    f.WellFormed ∧ f.IsNnf ∧ ¬ f.IsMultipliedOut ∧
      ∃ g, f.multiplyOut = .ok g ∧ g ≠ f ∧ g.multiplyOut = .ok g ∧
        ∀ args, or args ∈ g.preorder → ∀ a ∈ args, a.Everywhere fun b => b.isAnd = false := by
  intro x1 x2 x3 f
  have hw : f.WellFormed := by simp [f]
  have hn : f.IsNnf := by simp [f]
  have hm : ¬ f.IsMultipliedOut := by
    simp [f, IsMultipliedOut, Everywhere, preorder_eq, operands, isAnd]
  obtain ⟨g, hg, -, hfixed, hagain, hbelow⟩ := isMultipliedOut_of_multiplyOut hw
  exact ⟨hw, hn, hm, g, hg, fun h => hm (hfixed.1 h), hagain, hbelow hn⟩

end Formula

end Clausal
