import Clausal.Proofs.Rebuilding

/-! The conversion without its loop. Multiplying out once and then merging once reaches clausal form
with the same clauses as the rounds of the loop, hence the same formula. -/
namespace Clausal.Formula

theorem clausesAt_multiplied_merged {f : Formula} (hn : f.IsNnf) :
    clausesAt .positive ((f.bottomUp multiplyNode).bottomUp mergeNode) =
      clausesAt .positive f := by
  rw [clausesAt_bottomUp_mergeNode, clausesAt_bottomUp_multiplyNode hn]

theorem isClausal_multiplied_merged {f : Formula} (hw : f.WellFormed) (hn : f.IsNnf) :
    ((f.bottomUp multiplyNode).bottomUp mergeNode).IsClausal := by
  have hdw : (f.bottomUp multiplyNode).WellFormed := hw.bottomUp fun _ => wellFormed_multiplyNode
  have hdn : (f.bottomUp multiplyNode).IsNnf := hn.bottomUp fun _ => isNnf_multiplyNode
  have hdm : (f.bottomUp multiplyNode).IsMultipliedOut := isMultipliedOut_bottomUp f
  exact isClausal_of_isMerged (hdw.bottomUp fun _ => wellFormed_mergeNode)
    (hdn.bottomUp fun _ => isNnf_mergeNode) hdm.bottomUp_mergeNode (isMerged_bottomUp _)

theorem multiplyOut_mergeNested_eq_ok {f : Formula} (hw : f.WellFormed) :
    (do
      let d ← f.multiplyOut
      d.mergeNested) = .ok ((f.bottomUp multiplyNode).bottomUp mergeNode) := by
  have hdw : (f.bottomUp multiplyNode).WellFormed := hw.bottomUp fun _ => wellFormed_multiplyNode
  rw [bind_eq_ok_iff]
  exact ⟨_, multiplyOut_eq_ok hw, mergeNested_eq_ok hdw⟩

/-- However many rounds the loop takes, the conversion gives what negation normal form, multiplying
out once and merging once give. -/
theorem clausalForm_eq_one_round {f : Formula} (h : f.WellFormed) :
    ∃ r, f.clausalForm = .ok r ∧
      (do
        let g ← f.nnf
        let d ← g.multiplyOut
        d.mergeNested) = .ok r := by
  have hw := wellFormed_nnfAt h .positive
  have hn := isNnf_nnfAt .positive f
  obtain ⟨r, hf, hr, hclauses⟩ := exists_clausalForm_clausesAt h
  have heq : ((nnfAt .positive f).bottomUp multiplyNode).bottomUp mergeNode = r := by
    apply (isClausal_multiplied_merged hw hn).eq_of_clausesAt_eq hr
    rw [clausesAt_multiplied_merged hn, clausesAt_nnfAt, hclauses]
  have hround := multiplyOut_mergeNested_eq_ok hw
  rw [heq] at hround
  exact ⟨r, hf, bind_eq_ok_iff.2 ⟨_, nnf_eq_ok h, hround⟩⟩

theorem clausalForm_of_nested_disjunctions :
    let x1 := Sample.literal 1 (by decide)
    let x2 := Sample.literal 2 (by decide)
    let x3 := Sample.literal 3 (by decide)
    let x4 := Sample.literal 4 (by decide)
    let x2' := Sample.literal (-2) (by decide)
    let x3' := Sample.literal (-3) (by decide)
    let x4' := Sample.literal (-4) (by decide)
    let f := or [x1, not (and [x2, or [x3, and [x3, x4]]])]
    let r := and [or [x1, x2', x3'], or [x1, x2', x3', x4']]
    f.WellFormed ∧ f.clausalForm = .ok r ∧
      (do
        let g ← f.nnf
        let d ← g.multiplyOut
        d.mergeNested) = .ok r := by
  intro x1 x2 x3 x4 x2' x3' x4' f r
  have hf : f.WellFormed := by simp [f, x1, x2, x3, x4, Sample.literal]
  have hr : f.clausalForm = .ok r := by decide +kernel
  obtain ⟨r', hr', hround⟩ := clausalForm_eq_one_round hf
  obtain rfl : r = r' := Except.ok.inj (hr.symm.trans hr')
  exact ⟨hf, hr, hround⟩

end Clausal.Formula
