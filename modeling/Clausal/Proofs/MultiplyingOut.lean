import Clausal.Product
import Clausal.Proofs.NegationNormalForm
import Mathlib.Data.List.Forall2

/-! Multiplying out in closed form: a disjunction over conjunctions becomes the conjunction of all
choices of one conjunct for each operand, in lexicographic order. -/
namespace Clausal

/-- All ways to choose one item of each list, in lexicographic order: the choice in the first list
is the most significant. -/
def choices {α : Type} : List (List α) → List (List α)
  | [] => [[]]
  | xs :: xss => xs.flatMap fun x => (choices xss).map (x :: ·)

example : choices [[1, 2], [3], [4, 5]] = [[1, 3, 4], [1, 3, 5], [2, 3, 4], [2, 3, 5]] := rfl

section Choices

variable {α β : Type}

@[simp] theorem choices_nil : choices ([] : List (List α)) = [[]] := rfl

theorem choices_cons (xs : List α) (xss : List (List α)) :
    choices (xs :: xss) = xs.flatMap fun x => (choices xss).map (x :: ·) := rfl

theorem choices_flatMap_cons (xs : List β) (g : β → List α) (xss : List (List α)) :
    choices (xs.flatMap g :: xss) = xs.flatMap fun x => choices (g x :: xss) := by
  simp only [choices_cons, List.flatMap_assoc]

theorem choices_singletons_append (xs : List α) (xss : List (List α)) :
    choices (xs.map ([·]) ++ xss) = (choices xss).map (xs ++ ·) := by
  induction xs with
  | nil => simp
  | cons x xs ih =>
    rw [List.map_cons, List.cons_append, choices_cons, ih]
    simp

theorem choices_singletons (xs : List α) : choices (xs.map ([·])) = [xs] := by
  have h := choices_singletons_append xs []
  simpa using h

theorem choices_map (g : α → β) (xss : List (List α)) :
    choices (xss.map (List.map g)) = (choices xss).map (List.map g) := by
  induction xss with
  | nil => rfl
  | cons xs xss ih =>
    simp only [List.map_cons, choices_cons, ih, List.flatMap_map, List.map_flatMap, List.map_map]
    rfl

theorem mem_choices {ys : List α} {xss : List (List α)} :
    ys ∈ choices xss ↔ List.Forall₂ (· ∈ ·) ys xss := by
  induction xss generalizing ys with
  | nil => simp
  | cons xs xss ih =>
    rw [choices_cons, List.mem_flatMap]
    constructor
    · intro hex
      obtain ⟨x, hx, hys⟩ := hex
      obtain ⟨zs, hzs, rfl⟩ := List.mem_map.1 hys
      exact .cons hx (ih.1 hzs)
    · rintro (_ | ⟨hx, hzs⟩)
      exact ⟨_, hx, List.mem_map.2 ⟨_, ih.2 hzs, rfl⟩⟩

theorem length_of_mem_choices {ys : List α} {xss : List (List α)} (h : ys ∈ choices xss) :
    ys.length = xss.length :=
  (mem_choices.1 h).length_eq

theorem exists_mem_of_mem_choices {ys : List α} {xss : List (List α)} (h : ys ∈ choices xss)
    {y : α} (hy : y ∈ ys) : ∃ xs ∈ xss, y ∈ xs := by
  have hall := mem_choices.1 h
  clear h
  induction hall with
  | nil => simp at hy
  | cons hx _ ih =>
    rcases List.mem_cons.1 hy with rfl | hy
    · exact ⟨_, by simp, hx⟩
    · obtain ⟨xs, hxs, hmem⟩ := ih hy
      exact ⟨xs, by simp [hxs], hmem⟩

theorem length_choices_cons (xs : List α) (xss : List (List α)) :
    (choices (xs :: xss)).length = xs.length * (choices xss).length := by
  induction xs with
  | nil => simp [choices_cons]
  | cons x xs ih =>
    rw [choices_cons] at ih ⊢
    rw [List.flatMap_cons, List.length_append, ih, List.length_map, List.length_cons, Nat.succ_mul]
    omega

theorem length_choices_pos {xss : List (List α)} (h : ∀ xs ∈ xss, 0 < xs.length) :
    0 < (choices xss).length := by
  induction xss with
  | nil => simp
  | cons xs xss ih =>
    rw [length_choices_cons]
    exact Nat.mul_pos (h xs (by simp)) (ih fun ys hys => h ys (by simp [hys]))

/-- Every item is part of a choice, as long as each other list has an item to go with it. -/
theorem exists_mem_choices {xss : List (List α)} (h : ∀ xs ∈ xss, 0 < xs.length) {xs : List α}
    (hxs : xs ∈ xss) {x : α} (hx : x ∈ xs) : ∃ ys ∈ choices xss, x ∈ ys := by
  induction xss with
  | nil => simp at hxs
  | cons zs xss ih =>
    have hxss : ∀ ys ∈ xss, 0 < ys.length := fun ys hys => h ys (by simp [hys])
    rcases List.mem_cons.1 hxs with rfl | hxs
    · obtain ⟨ys, hys⟩ := List.exists_mem_of_length_pos (length_choices_pos hxss)
      refine ⟨x :: ys, ?_, by simp⟩
      rw [choices_cons, List.mem_flatMap]
      exact ⟨x, hx, List.mem_map_of_mem hys⟩
    · obtain ⟨ys, hys, hx⟩ := ih hxss hxs
      obtain ⟨z, hz⟩ := List.exists_mem_of_length_pos (h zs (by simp))
      refine ⟨z :: ys, ?_, by simp [hx]⟩
      rw [choices_cons, List.mem_flatMap]
      exact ⟨z, hz, List.mem_map_of_mem hys⟩

/-- Disjunction distributes over conjunction, for any number of operands. -/
theorem all_any_choices (p : α → Bool) (xss : List (List α)) :
    (choices xss).all (fun ys => ys.any p) = xss.any fun xs => xs.all p := by
  induction xss with
  | nil => rfl
  | cons xs xss ih =>
    rw [choices_cons, List.all_flatMap, List.any_cons, ← ih, List.or_all_distrib_right]
    simp only [List.all_map, Function.comp_def, List.any_cons, List.or_all_distrib_left]

theorem two_le_length_choices {xss : List (List α)} (h : ∀ xs ∈ xss, 0 < xs.length)
    {ys : List α} (hys : ys ∈ xss) (hlen : 2 ≤ ys.length) : 2 ≤ (choices xss).length := by
  induction xss with
  | nil => simp at hys
  | cons xs xss ih =>
    have hxs := h xs (by simp)
    have hxss : ∀ zs ∈ xss, 0 < zs.length := fun zs hzs => h zs (by simp [hzs])
    rw [length_choices_cons]
    rcases List.mem_cons.1 hys with rfl | hys
    · exact Nat.mul_le_mul hlen (length_choices_pos hxss)
    · exact Nat.mul_le_mul hxs (ih hxss hys)

theorem length_le_length_flatMap {xs : List α} {g : α → List β} (h : ∀ x ∈ xs, 0 < (g x).length) :
    xs.length ≤ (xs.flatMap g).length := by
  induction xs with
  | nil => simp
  | cons x xs ih =>
    have hx := h x (by simp)
    have hxs := ih fun y hy => h y (by simp [hy])
    rw [List.flatMap_cons, List.length_append, List.length_cons]
    omega

end Choices

namespace Formula

/-- The formulas that a formula conjoins, through conjunctions within conjunctions. -/
def conjunctLeaves : Formula → List Formula
  | and args => args.flatMap fun a => conjunctLeaves a
  | f => [f]

theorem conjunctLeaves_and (args : List Formula) :
    (and args).conjunctLeaves = args.flatMap conjunctLeaves := by
  rw [conjunctLeaves]

theorem conjunctLeaves_of_not_isAnd {f : Formula} (h : f.isAnd = false) :
    f.conjunctLeaves = [f] := by
  cases f with
  | and args => simp [isAnd] at h
  | _ => rw [conjunctLeaves]; simp

theorem map_conjunctLeaves_of_not_isAnd {args : List Formula} (h : ∀ a ∈ args, a.isAnd = false) :
    args.map conjunctLeaves = args.map ([·]) :=
  List.map_congr_left fun a ha => conjunctLeaves_of_not_isAnd (h a ha)

theorem isAnd_eq_false_of_firstAnd? {args before cs after : List Formula}
    (h : firstAnd? args = some (before, cs, after)) : ∀ a ∈ before, a.isAnd = false := by
  unfold firstAnd? at h
  split at h
  next rest heq =>
    cases h
    intro a ha
    have hall := List.all_eq_true.1 List.all_takeWhile a ha
    simpa using hall
  next => contradiction

theorem choices_split {before : List Formula} (h : ∀ a ∈ before, a.isAnd = false)
    (cs after : List Formula) :
    choices ((before ++ and cs :: after).map conjunctLeaves) =
      cs.flatMap fun c => choices ((before ++ c :: after).map conjunctLeaves) := by
  simp only [List.map_append, map_conjunctLeaves_of_not_isAnd h, choices_singletons_append,
    List.map_cons]
  rw [conjunctLeaves_and, choices_flatMap_cons, List.map_flatMap]

/-- Each pending disjunction comes out as all choices of one conjunct for each operand. -/
theorem multiplyPending_eq (pending : List (List Formula)) (finished : List Formula) :
    multiplyPending pending finished =
      finished.reverse ++
        pending.flatMap fun args => (choices (args.map conjunctLeaves)).map or := by
  fun_induction multiplyPending pending finished with
  | case1 finished => simp
  | case2 finished args pending hnone ih =>
    have hargs := firstAnd?_eq_none_iff.1 hnone
    rw [ih, List.flatMap_cons, map_conjunctLeaves_of_not_isAnd hargs, choices_singletons]
    simp
  | case3 finished args pending before cs after hsome ih =>
    have hargs := firstAnd?_eq_some hsome
    have hbefore := isAnd_eq_false_of_firstAnd? hsome
    rw [ih, hargs, List.flatMap_append, List.flatMap_cons, choices_split hbefore, List.flatMap_map,
      List.map_flatMap]

theorem multiplyNode_or (args : List Formula) :
    multiplyNode (or args) =
      if args.any isAnd then and ((choices (args.map conjunctLeaves)).map or) else or args := by
  rw [multiplyNode, multiplyPending_eq]
  simp

theorem isAnd_of_mem_conjunctLeaves {f : Formula} :
    ∀ b ∈ f.conjunctLeaves, b.isAnd = false := by
  induction f with
  | and args ih =>
    intro b hb
    rw [conjunctLeaves_and] at hb
    obtain ⟨a, ha, hb⟩ := List.mem_flatMap.1 hb
    exact ih a ha b hb
  | _ =>
    rw [conjunctLeaves_of_not_isAnd rfl]
    simp [isAnd]

theorem Everywhere.conjunctLeaves {P : Formula → Prop} {f : Formula} (h : f.Everywhere P) :
    ∀ b ∈ f.conjunctLeaves, b.Everywhere P := by
  induction f with
  | and args ih =>
    intro b hb
    rw [conjunctLeaves_and] at hb
    obtain ⟨a, ha, hb⟩ := List.mem_flatMap.1 hb
    exact ih a ha (h.operand ha) b hb
  | _ =>
    rw [conjunctLeaves_of_not_isAnd rfl]
    simpa using h

theorem length_conjunctLeaves_pos {f : Formula} (h : f.WellFormed) :
    0 < f.conjunctLeaves.length := by
  induction f with
  | and args ih =>
    obtain ⟨hlen, hargs⟩ := wellFormed_and.1 h
    have hle := length_le_length_flatMap fun a ha => ih a ha (hargs a ha)
    rw [conjunctLeaves_and]
    exact Nat.lt_of_lt_of_le Nat.zero_lt_two (Nat.le_trans hlen hle)
  | _ =>
    rw [conjunctLeaves_of_not_isAnd rfl]
    simp

theorem two_le_length_conjunctLeaves {f : Formula} (h : f.WellFormed) (ha : f.isAnd = true) :
    2 ≤ f.conjunctLeaves.length := by
  cases f with
  | and args =>
    obtain ⟨hlen, hargs⟩ := wellFormed_and.1 h
    have hle := length_le_length_flatMap fun a ha => length_conjunctLeaves_pos (hargs a ha)
    rw [conjunctLeaves_and]
    exact Nat.le_trans hlen hle
  | _ => simp [isAnd] at ha

theorem conjunctLeaves_lengths_pos {args : List Formula} (h : ∀ a ∈ args, a.WellFormed) :
    ∀ xs ∈ args.map conjunctLeaves, 0 < xs.length := by
  rw [List.forall_mem_map]
  exact fun a ha => length_conjunctLeaves_pos (h a ha)

theorem exists_leaf_of_mem_choices {args ys : List Formula}
    (hys : ys ∈ choices (args.map conjunctLeaves)) {y : Formula} (hy : y ∈ ys) :
    ∃ a ∈ args, y ∈ a.conjunctLeaves := by
  obtain ⟨xs, hxs, hyx⟩ := exists_mem_of_mem_choices hys hy
  obtain ⟨a, ha, rfl⟩ := List.mem_map.1 hxs
  exact ⟨a, ha, hyx⟩

/-- What holds of the operands, of the conjunction that comes out, and of its disjunctions, holds
everywhere in it. -/
theorem everywhere_multiplied {P : Formula → Prop} {args : List Formula}
    (h : ∀ a ∈ args, a.Everywhere P) (hand : P (and ((choices (args.map conjunctLeaves)).map or)))
    (hor : ∀ ys ∈ choices (args.map conjunctLeaves), P (or ys)) :
    (and ((choices (args.map conjunctLeaves)).map or)).Everywhere P := by
  rw [everywhere_iff]
  refine ⟨hand, fun d hd => ?_⟩
  obtain ⟨ys, hys, rfl⟩ := List.mem_map.1 hd
  rw [everywhere_iff]
  refine ⟨hor ys hys, fun y hy => ?_⟩
  obtain ⟨a, ha, hya⟩ := exists_leaf_of_mem_choices hys hy
  exact (h a ha).conjunctLeaves y hya

theorem wellFormed_multiplyNode {f : Formula} (h : f.WellFormed) : f.multiplyNode.WellFormed := by
  cases f with
  | or args =>
    obtain ⟨hlen, hargs⟩ := wellFormed_or.1 h
    rw [multiplyNode_or]
    split
    next hany =>
      obtain ⟨a, ha, hand⟩ := List.any_eq_true.1 hany
      apply everywhere_multiplied hargs
      · have htwo := two_le_length_choices (conjunctLeaves_lengths_pos hargs)
          (List.mem_map_of_mem ha) (two_le_length_conjunctLeaves (hargs a ha) hand)
        rw [not_isShort_and, List.length_map]
        exact htwo
      · intro ys hys
        have hys := length_of_mem_choices hys
        rw [List.length_map] at hys
        rw [not_isShort_or, hys]
        exact hlen
    next => exact h
  | _ => exact h

theorem isNnf_multiplyNode {f : Formula} (h : f.IsNnf) : f.multiplyNode.IsNnf := by
  cases f with
  | or args =>
    rw [multiplyNode_or]
    split
    next =>
      apply everywhere_multiplied fun a ha => h.operand ha
      · rintro c ⟨⟩
        exact .inl rfl
      · rintro ys - c ⟨⟩
        exact .inr rfl
    next => exact h
  | _ => exact h

/-- No disjunction has a conjunction among its operands. -/
def IsMultipliedOut (f : Formula) : Prop :=
  f.Everywhere fun g => ∀ args, g = or args → ∀ a ∈ args, a.isAnd = false

theorem isMultipliedOut_multiplyNode {f : Formula} (h : ∀ a ∈ f.operands, a.IsMultipliedOut) :
    f.multiplyNode.IsMultipliedOut := by
  cases f with
  | or args =>
    rw [multiplyNode_or]
    split
    next hany =>
      apply everywhere_multiplied h
      · intro ys hys
        cases hys
      · rintro ys hys _ ⟨⟩ y hy
        obtain ⟨a, -, hya⟩ := exists_leaf_of_mem_choices hys hy
        exact isAnd_of_mem_conjunctLeaves y hya
    next hany =>
      refine everywhere_iff.2 ⟨?_, h⟩
      rintro _ ⟨⟩ a ha
      simpa using fun hand => hany (List.any_eq_true.2 ⟨a, ha, hand⟩)
  | _ => exact everywhere_iff.2 ⟨by rintro _ ⟨⟩, h⟩

theorem isMultipliedOut_bottomUp (f : Formula) : (f.bottomUp multiplyNode).IsMultipliedOut :=
  everywhere_bottomUp (fun _ => isMultipliedOut_multiplyNode) f

end Formula

end Clausal
