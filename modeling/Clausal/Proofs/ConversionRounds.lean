import Clausal.ClausalForm
import Clausal.Proofs.NestedMerging
import Clausal.Sample

/-! The loop of the conversion without a limit on its rounds. It reaches clausal form from every
well-formed formula in negation normal form, in at most two rounds. -/
namespace Clausal.Formula

/-- Merging and multiplying out from the first formula stops at the last, in clausal form, after the
number of rounds. -/
inductive Rounds : Formula → Nat → Formula → Prop
  | stop {f : Formula} (clausal : f.IsClausal) : Rounds f 0 f
  | round {f g d r : Formula} {k : Nat} (pending : ¬ f.IsClausal) (merge : f.mergeNested = .ok g)
      (multiply : g.multiplyOut = .ok d) (rest : Rounds d k r) : Rounds f (k + 1) r

theorem Rounds.isClausal {f r : Formula} {k : Nat} (h : Rounds f k r) : r.IsClausal := by
  induction h with
  | stop clausal => exact clausal
  | round _ _ _ _ ih => exact ih

/-- The loop with a limit is the loop, cut off after so many rounds. -/
theorem settle_eq_ok_iff {limit k : Nat} {f r : Formula} :
    settle limit f = .ok (r, k) ↔ k ≤ limit ∧ Rounds f k r := by
  induction limit generalizing f k with
  | zero =>
    rw [settle]
    constructor
    · intro h
      split at h
      next hf =>
        cases h
        exact ⟨Nat.le_refl 0, .stop hf⟩
      next => cases h
    · intro hboth
      obtain ⟨hk, hr⟩ := hboth
      cases hr with
      | stop hf => rw [if_pos hf]
      | round => omega
  | succ limit ih =>
    rw [settle]
    by_cases hf : f.IsClausal
    · rw [if_pos hf]
      constructor
      · intro h
        cases h
        exact ⟨Nat.zero_le _, .stop hf⟩
      · intro hboth
        obtain ⟨-, hr⟩ := hboth
        cases hr with
        | stop => rfl
        | round hpending => exact absurd hf hpending
    · rw [if_neg hf]
      simp only [bind_eq_ok_iff]
      constructor
      · intro hex
        obtain ⟨g, hg, d, hd, s, hs, heq⟩ := hex
        cases heq
        obtain ⟨hk, hr⟩ := ih.1 hs
        exact ⟨Nat.succ_le_succ hk, .round hf hg hd hr⟩
      · intro hboth
        obtain ⟨hk, hr⟩ := hboth
        cases hr with
        | stop hc => exact absurd hc hf
        | round _ hg hd hr =>
          exact ⟨_, hg, _, hd, _, ih.2 ⟨Nat.le_of_succ_le_succ hk, hr⟩, rfl⟩

theorem mergeNested_eq_ok {f : Formula} (h : f.WellFormed) :
    f.mergeNested = .ok (f.bottomUp mergeNode) :=
  transform_eq_ok h

theorem multiplyOut_eq_ok {f : Formula} (h : f.WellFormed) :
    f.multiplyOut = .ok (f.bottomUp multiplyNode) :=
  transform_eq_ok h

theorem multiplyNode_eq_self {f : Formula} (h : ∀ args, f = or args → ∀ a ∈ args, a.isAnd = false) :
    f.multiplyNode = f := by
  cases f with
  | or args =>
    have hany : args.any isAnd = false := List.any_eq_false.2 fun a ha => by simp [h args rfl a ha]
    rw [multiplyNode, if_neg (by simp [hany])]
  | _ => rfl

theorem IsMultipliedOut.bottomUp_eq_self {f : Formula} (h : f.IsMultipliedOut) :
    f.bottomUp multiplyNode = f :=
  Formula.bottomUp_eq_self fun g hg => multiplyNode_eq_self (h g hg)

/-- The first round leaves no conjunction below a disjunction, and the second has nothing to do but
to merge. -/
theorem exists_rounds {f : Formula} (hw : f.WellFormed) (hn : f.IsNnf) :
    ∃ k r, k ≤ 2 ∧ Rounds f k r := by
  by_cases hf : f.IsClausal
  · exact ⟨0, f, by omega, .stop hf⟩
  have hgw : (f.bottomUp mergeNode).WellFormed := hw.bottomUp fun _ => wellFormed_mergeNode
  let d := (f.bottomUp mergeNode).bottomUp multiplyNode
  have hdw : d.WellFormed := hgw.bottomUp fun _ => wellFormed_multiplyNode
  have hdn : d.IsNnf := (hn.bottomUp fun _ => isNnf_mergeNode).bottomUp fun _ => isNnf_multiplyNode
  have hdm : d.IsMultipliedOut := isMultipliedOut_bottomUp _
  have hfirst : ∀ {k r}, Rounds d k r → Rounds f (k + 1) r :=
    .round hf (mergeNested_eq_ok hw) (multiplyOut_eq_ok hgw)
  by_cases hd : d.IsClausal
  · exact ⟨1, d, by omega, hfirst (.stop hd)⟩
  let g := d.bottomUp mergeNode
  have hgw' : g.WellFormed := hdw.bottomUp fun _ => wellFormed_mergeNode
  have hgm : g.IsMultipliedOut := hdm.bottomUp_mergeNode
  have hgc : g.IsClausal :=
    isClausal_of_isMerged hgw' (hdn.bottomUp fun _ => isNnf_mergeNode) hgm (isMerged_bottomUp d)
  have hsecond : g.multiplyOut = .ok g := by
    rw [multiplyOut_eq_ok hgw', hgm.bottomUp_eq_self]
  exact ⟨2, g, Nat.le_refl 2, hfirst (.round hd (mergeNested_eq_ok hdw) hsecond (.stop hgc))⟩

theorem nodeCount_eq_length (f : Formula) : f.nodeCount = f.preorder.length := by
  rw [nodeCount, foldNodes_eq_foldl]
  simp

theorem length_preorder_pos (f : Formula) : 0 < f.preorder.length := by
  rw [preorder_eq]
  simp

theorem two_le_nodeCount {f : Formula} (hw : f.WellFormed) (hc : ¬ f.IsClausal) :
    2 ≤ f.nodeCount := by
  have hle : f.operands.length ≤ (f.operands.flatMap preorder).length :=
    length_le_length_flatMap fun a _ => length_preorder_pos a
  have hpos : 0 < f.operands.length := by
    cases hcon : f.connective? with
    | none => cases f <;> simp_all [connective?, IsClausal, IsClause]
    | some c => exact length_operands_pos hcon hw
  rw [nodeCount_eq_length, preorder_eq, List.length_cons]
  omega

/-- The limit on the rounds is never met. -/
theorem exists_clausalForm_eq_ok {f : Formula} (h : f.WellFormed) :
    ∃ k r, k ≤ 2 ∧ Rounds (nnfAt .positive f) k r ∧ f.clausalForm = .ok r := by
  have hw := wellFormed_nnfAt h .positive
  obtain ⟨k, r, hk, hr⟩ := exists_rounds hw (isNnf_nnfAt .positive f)
  have hlimit : k ≤ (nnfAt .positive f).nodeCount := by
    cases hr with
    | stop => exact Nat.zero_le _
    | round hpending => exact Nat.le_trans hk (two_le_nodeCount hw hpending)
  have hs := settle_eq_ok_iff.2 ⟨hlimit, hr⟩
  refine ⟨k, r, hk, hr, ?_⟩
  rw [clausalForm, bind_eq_ok_iff]
  exact ⟨_, nnf_eq_ok h, bind_eq_ok_iff.2 ⟨_, hs, rfl⟩⟩

/-- From a well-formed formula the loop of the conversion ends after at most two rounds, whatever
the limit above, and the conversion gives its result, which is in clausal form. -/
theorem clausalForm_in_two_rounds {f : Formula} (h : f.WellFormed) :
    ∃ g k r, f.nnf = .ok g ∧ Rounds g k r ∧ k ≤ 2 ∧
      (∀ limit, k ≤ limit → settle limit g = .ok (r, k)) ∧
      f.clausalForm = .ok r ∧ r.IsClausal := by
  obtain ⟨k, r, hk, hr, hf⟩ := exists_clausalForm_eq_ok h
  exact ⟨_, k, r, nnf_eq_ok h, hr, hk, fun limit hl => settle_eq_ok_iff.2 ⟨hl, hr⟩, hf,
    hr.isClausal⟩

theorem clausalForm_of_alternation :
    let x1 := Sample.literal 1 (by decide)
    let x2 := Sample.literal 2 (by decide)
    let x3 := Sample.literal 3 (by decide)
    let x4 := Sample.literal 4 (by decide)
    let x5 := Sample.literal 5 (by decide)
    let f := or [x1, and [x2, or [x3, and [x4, x5]]]]
    let r := and [or [x1, x2], or [x1, x3, x4], or [x1, x3, x5]]
    f.WellFormed ∧ f.nnf = .ok f ∧ Rounds f 2 r ∧
      (∀ limit, 2 ≤ limit → settle limit f = .ok (r, 2)) ∧ f.clausalForm = .ok r ∧ r.IsClausal := by
  intro x1 x2 x3 x4 x5 f r
  have hf : f.WellFormed := by simp [f, x1, x2, x3, x4, x5, Sample.literal]
  have hnnf : f.nnf = .ok f := by decide +kernel
  have hsettle : settle 2 f = .ok (r, 2) := by decide +kernel
  obtain ⟨g, k, r', hg, hrounds, hk, hlimit, hr, hclausal⟩ := clausalForm_in_two_rounds hf
  obtain rfl : f = g := Except.ok.inj (hnnf.symm.trans hg)
  obtain ⟨rfl, rfl⟩ : r = r' ∧ 2 = k := by
    simpa using hsettle.symm.trans (hlimit 2 hk)
  exact ⟨hf, hnnf, hrounds, hlimit, hr, hclausal⟩

end Clausal.Formula
