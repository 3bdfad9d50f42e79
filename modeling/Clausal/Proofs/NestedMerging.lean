import Clausal.Merging
import Clausal.NormalForm
import Clausal.Proofs.MultiplyingOut

/-! Merging leaves no conjunction directly below a conjunction and no disjunction directly below a
disjunction, and keeps what multiplying out has reached. Both together make a clausal form. -/
namespace Clausal.Formula

/-- The operands of a formula with the connective, and any other formula alone. -/
def parts (c : Connective) (f : Formula) : List Formula :=
  if f.connective? = some c then f.operands else [f]

theorem conjuncts_eq_parts : conjuncts = parts .and := by
  funext f
  cases f <;> simp [conjuncts, parts, connective?, operands]

theorem disjuncts_eq_parts : disjuncts = parts .or := by
  funext f
  cases f <;> simp [disjuncts, parts, connective?, operands]

theorem mergeNode_and (args : List Formula) :
    mergeNode (and args) = and (args.flatMap (parts .and)) := by
  rw [mergeNode, conjuncts_eq_parts]

theorem mergeNode_or (args : List Formula) :
    mergeNode (or args) = or (args.flatMap (parts .or)) := by
  rw [mergeNode, disjuncts_eq_parts]

theorem everywhere_parts {P : Formula → Prop} {c : Connective} {args : List Formula}
    (h : ∀ a ∈ args, a.Everywhere P) : ∀ b ∈ args.flatMap (parts c), b.Everywhere P := by
  intro b hb
  obtain ⟨a, ha, hb⟩ := List.mem_flatMap.1 hb
  unfold parts at hb
  split at hb
  · exact (h a ha).operand hb
  · rw [List.mem_singleton.1 hb]
    exact h a ha

theorem length_parts_pos {c : Connective} {f : Formula} (h : f.WellFormed) :
    0 < (parts c f).length := by
  unfold parts
  split
  next hc => exact length_operands_pos hc h
  next => simp

theorem length_le_length_flatMap_parts (c : Connective) {args : List Formula}
    (h : ∀ a ∈ args, a.WellFormed) : args.length ≤ (args.flatMap (parts c)).length :=
  length_le_length_flatMap fun a ha => length_parts_pos (h a ha)

theorem wellFormed_mergeNode {f : Formula} (h : f.WellFormed) : f.mergeNode.WellFormed := by
  cases f with
  | and args =>
    obtain ⟨hlen, hargs⟩ := wellFormed_and.1 h
    rw [mergeNode_and, wellFormed_and]
    exact ⟨Nat.le_trans hlen (length_le_length_flatMap_parts _ hargs), everywhere_parts hargs⟩
  | or args =>
    obtain ⟨hlen, hargs⟩ := wellFormed_or.1 h
    rw [mergeNode_or, wellFormed_or]
    exact ⟨Nat.le_trans hlen (length_le_length_flatMap_parts _ hargs), everywhere_parts hargs⟩
  | _ => exact h

theorem isNnf_mergeNode {f : Formula} (h : f.IsNnf) : f.mergeNode.IsNnf := by
  cases f with
  | and args =>
    rw [mergeNode_and, isNnf_and]
    exact everywhere_parts (isNnf_and.1 h)
  | or args =>
    rw [mergeNode_or, isNnf_or]
    exact everywhere_parts (isNnf_or.1 h)
  | _ => exact h

theorem connective?_mergeNode (f : Formula) : f.mergeNode.connective? = f.connective? := by
  cases f <;> rfl

theorem connective?_bottomUp_mergeNode (f : Formula) :
    (f.bottomUp mergeNode).connective? = f.connective? := by
  rw [bottomUp_eq, connective?_mergeNode, connective?_mapOperands]

theorem isAnd_eq (f : Formula) : f.isAnd = decide (f.connective? = some .and) := by
  cases f <;> rfl

theorem isMultipliedOut_mergeNode {f : Formula} (h : f.IsMultipliedOut) :
    f.mergeNode.IsMultipliedOut := by
  cases f with
  | and args =>
    rw [mergeNode_and]
    refine everywhere_iff.2 ⟨?_, everywhere_parts fun a ha => h.operand ha⟩
    rintro _ ⟨⟩
  | or args =>
    rw [mergeNode_or]
    refine everywhere_iff.2 ⟨?_, everywhere_parts fun a ha => h.operand ha⟩
    rintro _ ⟨⟩ b hb
    obtain ⟨a, ha, hb⟩ := List.mem_flatMap.1 hb
    unfold parts at hb
    split at hb
    next hor =>
      cases a with
      | or bs => exact (h.operand ha).self bs rfl b hb
      | _ => cases hor
    next =>
      rw [List.mem_singleton.1 hb]
      exact h.self args rfl a ha
  | _ => exact h

theorem IsMultipliedOut.bottomUp_mergeNode {f : Formula} (h : f.IsMultipliedOut) :
    (f.bottomUp mergeNode).IsMultipliedOut := by
  refine Everywhere.bottomUp ?_ (fun g hg => isMultipliedOut_mergeNode hg) h
  intro g hg args hargs a ha
  cases g with
  | or bs =>
    cases hargs
    obtain ⟨b, hb, rfl⟩ := List.mem_map.1 ha
    rw [isAnd_eq, connective?_bottomUp_mergeNode, ← isAnd_eq]
    exact hg bs rfl b hb
  | _ => cases hargs

/-- No conjunction has a conjunction, and no disjunction a disjunction, among its operands. -/
def IsMerged (f : Formula) : Prop :=
  f.Everywhere fun g => ∀ c, c = .and ∨ c = .or → g.connective? = some c →
    ∀ a ∈ g.operands, a.connective? ≠ some c

theorem connective?_ne_of_mem_parts {c : Connective} (hc : c = .and ∨ c = .or) {args : List Formula}
    (h : ∀ a ∈ args, a.IsMerged) : ∀ b ∈ args.flatMap (parts c), b.connective? ≠ some c := by
  intro b hb
  obtain ⟨a, ha, hb⟩ := List.mem_flatMap.1 hb
  unfold parts at hb
  split at hb
  next hac => exact (h a ha).self c hc hac b hb
  next hac =>
    rw [List.mem_singleton.1 hb]
    exact hac

theorem isMerged_mergeNode {f : Formula} (h : ∀ a ∈ f.operands, a.IsMerged) :
    f.mergeNode.IsMerged := by
  cases f with
  | and args =>
    rw [mergeNode_and]
    refine everywhere_iff.2 ⟨?_, everywhere_parts h⟩
    rintro c hc ⟨⟩
    exact connective?_ne_of_mem_parts hc h
  | or args =>
    rw [mergeNode_or]
    refine everywhere_iff.2 ⟨?_, everywhere_parts h⟩
    rintro c hc ⟨⟩
    exact connective?_ne_of_mem_parts hc h
  | _ =>
    refine everywhere_iff.2 ⟨?_, h⟩
    intro c hc hcon
    rcases hc with rfl | rfl <;> cases hcon

theorem isMerged_bottomUp (f : Formula) : (f.bottomUp mergeNode).IsMerged :=
  everywhere_bottomUp (fun _ => isMerged_mergeNode) f

theorem isClause_of_isMerged {args : List Formula} (hw : (or args).WellFormed)
    (hn : (or args).IsNnf) (hd : (or args).IsMultipliedOut) (hm : (or args).IsMerged) :
    (or args).IsClause := by
  obtain ⟨hlen, -⟩ := wellFormed_or.1 hw
  refine ⟨hlen, fun a ha => ?_⟩
  have hcon := (isNnf_or.1 hn a ha).self
  have hand := hd.self args rfl a ha
  have hor := hm.self .or (.inr rfl) rfl a ha
  rw [isAnd_eq] at hand
  cases a <;> simp_all [connective?, IsLiteral]

/-- What is well-formed, in negation normal form, multiplied out and merged is in clausal form. -/
theorem isClausal_of_isMerged {f : Formula} (hw : f.WellFormed) (hn : f.IsNnf)
    (hd : f.IsMultipliedOut) (hm : f.IsMerged) : f.IsClausal := by
  cases f with
  | lit l => trivial
  | or args => exact isClause_of_isMerged hw hn hd hm
  | and args =>
    obtain ⟨hlen, hargs⟩ := wellFormed_and.1 hw
    refine ⟨hlen, fun a ha => ?_⟩
    have hna := isNnf_and.1 hn a ha
    have hand := hm.self .and (.inl rfl) rfl a ha
    cases a with
    | lit l => trivial
    | or bs => exact isClause_of_isMerged (hargs _ ha) hna (hd.operand ha) (hm.operand ha)
    | and bs => exact absurd rfl hand
    | _ => simpa [connective?] using hna.self
  | _ => simpa [connective?] using hn.self

theorem IsClause.wellFormed_isNnf {f : Formula} (h : f.IsClause) : f.WellFormed ∧ f.IsNnf := by
  cases f with
  | lit l => simp
  | or args =>
    obtain ⟨hlen, hlits⟩ := h
    have hargs : ∀ a ∈ args, a.WellFormed ∧ a.IsNnf := by
      intro a ha
      obtain ⟨l, rfl⟩ := isLiteral_iff.1 (hlits a ha)
      simp
    exact ⟨wellFormed_or.2 ⟨hlen, fun a ha => (hargs a ha).1⟩,
      isNnf_or.2 fun a ha => (hargs a ha).2⟩
  | _ => exact h.elim

theorem IsClausal.wellFormed_isNnf {f : Formula} (h : f.IsClausal) : f.WellFormed ∧ f.IsNnf := by
  cases f with
  | and args =>
    obtain ⟨hlen, hcs⟩ := h
    exact ⟨wellFormed_and.2 ⟨hlen, fun a ha => (hcs a ha).wellFormed_isNnf.1⟩,
      isNnf_and.2 fun a ha => (hcs a ha).wellFormed_isNnf.2⟩
  | _ => exact IsClause.wellFormed_isNnf h

end Clausal.Formula
