import Clausal.Blueprint
import Clausal.Proofs.Contexts
import Clausal.Proofs.ConversionRounds
import Mathlib.Logic.Relation

/-! Merging as the normal form of a grouping. Two formulas merge to the same formula exactly if they
differ in how operands of conjunctions and of disjunctions are grouped and in nothing else. -/
namespace Clausal

namespace Formula

/-- The node is that of conjunctions or that of disjunctions. -/
inductive IsJunction : Connective → (List Formula → Formula) → Prop
  | and : IsJunction .and and
  | or : IsJunction .or or

namespace IsJunction

variable {c : Connective} {node : List Formula → Formula}

theorem wellFormed_node (h : IsJunction c node) {args : List Formula} :
    (node args).WellFormed ↔ 2 ≤ args.length ∧ ∀ a ∈ args, a.WellFormed := by
  cases h with
  | and => exact wellFormed_and
  | or => exact wellFormed_or

theorem parts_node (h : IsJunction c node) (args : List Formula) : parts c (node args) = args := by
  cases h <;> rfl

theorem eq_node_parts (h : IsJunction c node) {f : Formula} (hf : f.connective? = some c) :
    f = node (parts c f) := by
  cases h with
  | and =>
    cases f with
    | and args => rfl
    | _ => cases hf
  | or =>
    cases f with
    | or args => rfl
    | _ => cases hf

theorem connective?_node (h : IsJunction c node) (args : List Formula) :
    (node args).connective? = some c := by
  cases h <;> rfl

theorem ofConnective_eq_ok (h : IsJunction c node) {args : List Formula} (hlen : 2 ≤ args.length) :
    ofConnective c args = .ok (node args) := by
  cases h with
  | and => exact if_pos hlen
  | or => exact if_pos hlen

theorem bottomUp_node (h : IsJunction c node) (args : List Formula) :
    (node args).bottomUp mergeNode =
      node (args.flatMap fun a => parts c (a.bottomUp mergeNode)) := by
  cases h with
  | and => rw [bottomUp, mergeNode_and, List.flatMap_map]
  | or => rw [bottomUp, mergeNode_or, List.flatMap_map]

/-- An operand of the node stands in a frame. -/
theorem exists_frame (h : IsJunction c node) (before after : List Formula) :
    ∃ fr : Frame, ∀ a, fr.plug a = node (before ++ a :: after) := by
  cases h with
  | and => exact ⟨.and before after, fun _ => rfl⟩
  | or => exact ⟨.or before after, fun _ => rfl⟩

end IsJunction

/-- An operand with the connective of the node itself gives way to its own operands, in its place.
Both have at least two operands. -/
inductive Splices : Formula → Formula → Prop
  | intro {c : Connective} {node : List Formula → Formula} (hnode : IsJunction c node)
      {before inner after : List Formula} (hinner : 2 ≤ inner.length)
      (houter : 2 ≤ (before ++ node inner :: after).length) :
      Splices (node (before ++ node inner :: after)) (node (before ++ inner ++ after))

/-- At some node of the formula, at any depth, an operand gives way to its operands, or some
operands come together in one. -/
def RegroupsOnce (f g : Formula) : Prop := Context.Anywhere Splices f g ∨ Context.Anywhere Splices g f

/-- The formulas differ in the grouping of conjunctions and disjunctions alone. -/
def Regrouped : Formula → Formula → Prop := Relation.ReflTransGen RegroupsOnce

theorem Splices.wellFormed_iff {f g : Formula} (h : Splices f g) : f.WellFormed ↔ g.WellFormed := by
  obtain @⟨c, node, hnode, before, inner, after, hinner, houter⟩ := h
  have hflat : 2 ≤ (before ++ inner ++ after).length := by
    simp only [List.length_append]
    omega
  simp only [hnode.wellFormed_node, List.forall_mem_append, List.forall_mem_cons]
  tauto

/-- A node over an operand with its own connective merges to what the node over the operands of the
operand merges to. -/
theorem Splices.bottomUp_eq {f g : Formula} (h : Splices f g) :
    f.bottomUp mergeNode = g.bottomUp mergeNode := by
  obtain @⟨c, node, hnode, before, inner, after, -, -⟩ := h
  rw [hnode.bottomUp_node, hnode.bottomUp_node, List.flatMap_append, List.flatMap_cons,
    hnode.bottomUp_node inner, hnode.parts_node, List.append_assoc, List.flatMap_append,
    List.flatMap_append]

end Formula

open Formula

theorem Frame.bottomUp_plug {fr : Frame} {step : Formula → Formula} {a b : Formula}
    (h : a.bottomUp step = b.bottomUp step) :
    (fr.plug a).bottomUp step = (fr.plug b).bottomUp step := by
  cases fr <;> simp only [plug, bottomUp, List.map_append, List.map_cons, h]

namespace Context

theorem bottomUp_fill {K : Context} {step : Formula → Formula} {f g : Formula}
    (h : f.bottomUp step = g.bottomUp step) :
    (K.fill f).bottomUp step = (K.fill g).bottomUp step := by
  induction K with
  | nil => exact h
  | cons fr K ih => exact Frame.bottomUp_plug ih

end Context

namespace Formula

/-- One regrouping keeps every number of operands at two or more. -/
theorem RegroupsOnce.wellFormed {f g : Formula} (h : RegroupsOnce f g) (hf : f.WellFormed) :
    g.WellFormed := by
  rcases h with h | h
  · exact h.wellFormed (fun _ _ hsplice => hsplice.wellFormed_iff.1) hf
  · exact h.swap.wellFormed (fun _ _ hsplice => hsplice.wellFormed_iff.2) hf

/-- One regrouping does not change what the formula merges to. -/
theorem RegroupsOnce.bottomUp_eq {f g : Formula} (h : RegroupsOnce f g) :
    f.bottomUp mergeNode = g.bottomUp mergeNode := by
  rcases h with ⟨K, a, b, hab, rfl, rfl⟩ | ⟨K, a, b, hab, rfl, rfl⟩
  · exact Context.bottomUp_fill hab.bottomUp_eq
  · exact (Context.bottomUp_fill hab.bottomUp_eq).symm

theorem RegroupsOnce.plug {f g : Formula} (h : RegroupsOnce f g) (fr : Frame) :
    RegroupsOnce (fr.plug f) (fr.plug g) :=
  h.imp (fun h => h.plug fr) fun h => h.plug fr

namespace Regrouped

theorem wellFormed {f g : Formula} (h : f.Regrouped g) (hf : f.WellFormed) : g.WellFormed := by
  induction h with
  | refl => exact hf
  | tail _ hstep ih => exact hstep.wellFormed ih

theorem bottomUp_eq {f g : Formula} (h : f.Regrouped g) :
    f.bottomUp mergeNode = g.bottomUp mergeNode := by
  induction h with
  | refl => rfl
  | tail _ hstep ih => exact ih.trans hstep.bottomUp_eq

theorem symm {f g : Formula} (h : f.Regrouped g) : g.Regrouped f := by
  induction h with
  | refl => exact .refl
  | tail _ hstep ih => exact .head hstep.symm ih

theorem plug {f g : Formula} (h : f.Regrouped g) (fr : Frame) :
    (fr.plug f).Regrouped (fr.plug g) :=
  h.lift fr.plug fun _ _ hstep => hstep.plug fr

/-- The operands from some place on are regrouped one after the other. -/
theorem node_append {c : Connective} {node : List Formula → Formula} (hnode : IsJunction c node)
    {φ ψ : Formula → Formula} {args : List Formula} (h : ∀ a ∈ args, (φ a).Regrouped (ψ a))
    (before : List Formula) :
    (node (before ++ args.map φ)).Regrouped (node (before ++ args.map ψ)) := by
  induction args generalizing before with
  | nil => exact .refl
  | cons a args ih =>
    obtain ⟨fr, hfr⟩ := hnode.exists_frame before (args.map φ)
    have hfirst := (h a (by simp)).plug fr
    have hrest := ih (fun b hb => h b (by simp [hb])) (before ++ [ψ a])
    rw [hfr, hfr] at hfirst
    rw [List.append_assoc, List.append_assoc] at hrest
    exact hfirst.trans hrest

theorem isCompositional : IsCompositional Regrouped where
  trans := Relation.ReflTransGen.trans
  mapOperands {f φ ψ} h := by
    cases f with
    | lit l => exact .refl
    | not a => exact (h a (by simp [operands])).plug .not
    | implies a b =>
      have ha := (h a (by simp [operands])).plug (.premise (φ b))
      have hb := (h b (by simp [operands])).plug (.conclusion (ψ a))
      exact ha.trans hb
    | iff a b =>
      have ha := (h a (by simp [operands])).plug (.iffLeft (φ b))
      have hb := (h b (by simp [operands])).plug (.iffRight (ψ a))
      exact ha.trans hb
    | and args => exact node_append .and h []
    | or args => exact node_append .or h []

/-- The operands from some place on give way to their parts one after the other. -/
theorem node_flatMap_parts {c : Connective} {node : List Formula → Formula}
    (hnode : IsJunction c node) {args : List Formula} (hargs : ∀ a ∈ args, a.WellFormed)
    (before : List Formula) (hlen : 2 ≤ (before ++ args).length) :
    (node (before ++ args)).Regrouped (node (before ++ args.flatMap (parts c))) := by
  induction args generalizing before with
  | nil => exact .refl
  | cons a args ih =>
    have hrest : ∀ b ∈ args, b.WellFormed := fun b hb => hargs b (by simp [hb])
    rw [List.flatMap_cons, ← List.append_assoc]
    by_cases ha : a.connective? = some c
    · have hnested : a = node (parts c a) := hnode.eq_node_parts ha
      have hinner : 2 ≤ (parts c a).length := by
        have hwell := hargs a (by simp)
        rw [hnested, hnode.wellFormed_node] at hwell
        exact hwell.1
      have hstep : RegroupsOnce (node (before ++ a :: args))
          (node (before ++ parts c a ++ args)) := by
        have houter : 2 ≤ (before ++ node (parts c a) :: args).length := by rwa [← hnested]
        have hsplice := Splices.intro hnode hinner houter
        rw [← hnested] at hsplice
        exact .inl ⟨[], _, _, hsplice, rfl, rfl⟩
      have hflat : 2 ≤ (before ++ parts c a ++ args).length := by
        simp only [List.length_append]
        omega
      exact .head hstep (ih hrest _ hflat)
    · have hparts : parts c a = [a] := if_neg ha
      have hshift : before ++ a :: args = before ++ [a] ++ args := by simp
      rw [hshift] at hlen ⊢
      rw [hparts]
      exact ih hrest _ hlen

theorem of_mergeNode {f : Formula} (hf : f.WellFormed) : f.Regrouped f.mergeNode := by
  cases f with
  | and args =>
    obtain ⟨hlen, hargs⟩ := wellFormed_and.1 hf
    rw [mergeNode_and]
    exact node_flatMap_parts .and hargs [] hlen
  | or args =>
    obtain ⟨hlen, hargs⟩ := wellFormed_or.1 hf
    rw [mergeNode_or]
    exact node_flatMap_parts .or hargs [] hlen
  | _ => exact .refl

/-- What a well-formed formula merges to is a regrouping of it. -/
theorem of_bottomUp {f : Formula} (hf : f.WellFormed) : f.Regrouped (f.bottomUp mergeNode) :=
  (isCompositional.bottomUp (fun _ => wellFormed_mergeNode) (fun _ hg => (of_mergeNode hg).symm)
    hf).symm

end Regrouped

/-! ### Chains of nodes with two operands -/

section Chains

variable {c : Connective} {node : List Formula → Formula}

/-- The operands that the formula adds to a node of the connective when the node is merged. -/
def mergedParts (c : Connective) (f : Formula) : List Formula := parts c (f.bottomUp mergeNode)

theorem IsJunction.mergedParts_node (hnode : IsJunction c node) (args : List Formula) :
    mergedParts c (node args) = args.flatMap (mergedParts c) := by
  rw [mergedParts, hnode.bottomUp_node, hnode.parts_node]
  rfl

theorem IsJunction.bottomUp_eq (hnode : IsJunction c node) {f : Formula}
    (hf : f.connective? = some c) : f.bottomUp mergeNode = node (mergedParts c f) :=
  hnode.eq_node_parts (by rw [connective?_bottomUp_mergeNode, hf])

theorem mergedParts_foldl_left (hnode : IsJunction c node) (f : Formula) (fs : List Formula) :
    mergedParts c (fs.foldl (fun acc g => node [acc, g]) f) =
      (f :: fs).flatMap (mergedParts c) := by
  induction fs generalizing f with
  | nil => simp
  | cons g fs ih =>
    rw [List.foldl_cons, ih]
    simp [hnode.mergedParts_node]

theorem mergedParts_foldl_right (hnode : IsJunction c node) (f : Formula) (fs : List Formula) :
    mergedParts c (fs.foldl (fun acc g => node [g, acc]) f) =
      (fs.reverse ++ [f]).flatMap (mergedParts c) := by
  induction fs generalizing f with
  | nil => simp
  | cons g fs ih =>
    rw [List.foldl_cons, ih]
    simp [hnode.mergedParts_node]

theorem IsJunction.wellFormed_pair (hnode : IsJunction c node) {f g : Formula}
    (hf : f.WellFormed) (hg : g.WellFormed) :
    (node [f, g]).WellFormed ∧ (node [f, g]).connective? = some c := by
  rw [hnode.wellFormed_node, hnode.connective?_node]
  simp [hf, hg]

theorem IsJunction.ofConnective_pair (hnode : IsJunction c node) (f g : Formula) :
    ofConnective c [f, g] = .ok (node [f, g]) :=
  hnode.ofConnective_eq_ok (Nat.le_refl 2)

/-- A chain of joins over at least one more formula is a node of the connective. -/
theorem wellFormed_foldl {step : Formula → Formula → Formula}
    (h : ∀ f g, f.WellFormed → g.WellFormed →
      (step f g).WellFormed ∧ (step f g).connective? = some c)
    {f : Formula} {fs : List Formula} (hne : fs ≠ []) (hf : f.WellFormed)
    (hfs : ∀ g ∈ fs, g.WellFormed) :
    (fs.foldl step f).WellFormed ∧ (fs.foldl step f).connective? = some c := by
  cases fs with
  | nil => contradiction
  | cons g gs =>
    have hfirst := h f g hf (hfs g (by simp))
    rw [List.foldl_cons]
    exact List.foldlRecOn (motive := fun acc => acc.WellFormed ∧ acc.connective? = some c) gs step
      hfirst fun acc hacc b hb => h acc b hacc.1 (hfs b (by simp [hb]))

theorem IsJunction.mergeNested_eq_ok (hnode : IsJunction c node) {f : Formula}
    {args : List Formula} (hf : f.WellFormed ∧ f.connective? = some c)
    (hparts : mergedParts c f = args.flatMap (mergedParts c)) :
    f.mergeNested = .ok (node (args.flatMap (mergedParts c))) := by
  rw [Formula.mergeNested_eq_ok hf.1, hnode.bottomUp_eq hf.2, hparts]

theorem exists_joinLeft (hnode : IsJunction c node) {args : List Formula} (hlen : 2 ≤ args.length)
    (hargs : ∀ a ∈ args, a.WellFormed) :
    ∃ l, Blueprint.joinLeft c args = .ok l ∧
      l.mergeNested = .ok (node (args.flatMap (mergedParts c))) := by
  match args with
  | f :: fs =>
    have hne : fs ≠ [] := by
      rintro rfl
      simp at hlen
    have hsteps : (fun acc g => ofConnective c [acc, g]) = fun acc g => .ok (node [acc, g]) :=
      funext fun acc => funext fun g => hnode.ofConnective_pair acc g
    refine ⟨fs.foldl (fun acc g => node [acc, g]) f, ?_, ?_⟩
    · rw [Blueprint.joinLeft, hsteps]
      exact List.foldlM_pure
    · refine hnode.mergeNested_eq_ok ?_ (mergedParts_foldl_left hnode f fs)
      exact wellFormed_foldl (fun _ _ hf hg => hnode.wellFormed_pair hf hg) hne (hargs f (by simp))
        fun g hg => hargs g (by simp [hg])

theorem exists_joinRight (hnode : IsJunction c node) {args : List Formula} (hlen : 2 ≤ args.length)
    (hargs : ∀ a ∈ args, a.WellFormed) :
    ∃ r, Blueprint.joinRight c args = .ok r ∧
      r.mergeNested = .ok (node (args.flatMap (mergedParts c))) := by
  obtain ⟨gs, rfl⟩ : ∃ gs, args = gs.reverse := ⟨args.reverse, by simp⟩
  match gs with
  | f :: fs =>
    have hne : fs ≠ [] := by
      rintro rfl
      simp at hlen
    have hsteps : (fun acc g => ofConnective c [g, acc]) = fun acc g => .ok (node [g, acc]) :=
      funext fun acc => funext fun g => hnode.ofConnective_pair g acc
    have hparts := mergedParts_foldl_right hnode f fs
    rw [← List.reverse_cons] at hparts
    refine ⟨fs.foldl (fun acc g => node [g, acc]) f, ?_, ?_⟩
    · rw [Blueprint.joinRight, List.reverse_reverse, hsteps]
      exact List.foldlM_pure
    · refine hnode.mergeNested_eq_ok ?_ hparts
      exact wellFormed_foldl (fun _ _ hf hg => hnode.wellFormed_pair hg hf) hne (hargs f (by simp))
        fun g hg => hargs g (by simp [hg])

end Chains

/-- Two well-formed formulas merge to the same formula exactly if one is a regrouping of the other,
and all formulas on the way are well-formed. So the chains of joins to the left and to the right
over the same operands merge to what the one node over all of them merges to. -/
theorem mergeNested_eq_iff_regrouped {f g : Formula} (hf : f.WellFormed) (hg : g.WellFormed) :
    (∃ r s, f.mergeNested = .ok r ∧ g.mergeNested = .ok s ∧ (r = s ↔ f.Regrouped g)) ∧
    (∀ h, f.Regrouped h → h.WellFormed) ∧
    ∀ c node, IsJunction c node → ∀ args : List Formula, 2 ≤ args.length →
      (∀ a ∈ args, a.WellFormed) →
      ∃ l r m, Blueprint.joinLeft c args = .ok l ∧ Blueprint.joinRight c args = .ok r ∧
        l.mergeNested = .ok m ∧ r.mergeNested = .ok m ∧ (node args).mergeNested = .ok m := by
  refine ⟨⟨_, _, mergeNested_eq_ok hf, mergeNested_eq_ok hg, ?_, ?_⟩, ?_, ?_⟩
  · intro hsame
    have hforward := Regrouped.of_bottomUp hf
    have hback := (Regrouped.of_bottomUp hg).symm
    rw [hsame] at hforward
    exact hforward.trans hback
  · exact fun h => h.bottomUp_eq
  · exact fun h hh => hh.wellFormed hf
  · intro c node hnode args hlen hargs
    obtain ⟨l, hl, hlm⟩ := exists_joinLeft hnode hlen hargs
    obtain ⟨r, hr, hrm⟩ := exists_joinRight hnode hlen hargs
    have hwell : (node args).WellFormed := hnode.wellFormed_node.2 ⟨hlen, hargs⟩
    exact ⟨l, r, _, hl, hr, hlm, hrm,
      hnode.mergeNested_eq_ok ⟨hwell, hnode.connective?_node args⟩ (hnode.mergedParts_node args)⟩

/-- The first two differ in the grouping of a disjunction and of a conjunction below a negation; the
third has two operands in the other order. -/
theorem mergeNested_eq_of_two_groupings :
    let x1 : Literal := .ofWord 1 (by decide)
    let x2 : Literal := .ofWord 2 (by decide)
    let x3 : Literal := .ofWord 3 (by decide)
    let f := or [or [lit x1, lit x2], not (and [lit x1, and [lit x2, lit x3]])]
    let g := or [lit x1, or [lit x2, not (and [and [lit x1, lit x2], lit x3])]]
    let h := or [lit x2, lit x1, not (and [lit x1, lit x2, lit x3])]
    f.WellFormed ∧ g.WellFormed ∧ h.WellFormed ∧ f.Regrouped g ∧ ¬ f.Regrouped h ∧
      ∃ l r m, Blueprint.joinLeft .and [lit x1, f, lit x3] = .ok l ∧
        Blueprint.joinRight .and [lit x1, f, lit x3] = .ok r ∧
        l.mergeNested = .ok m ∧ r.mergeNested = .ok m ∧
        (and [lit x1, f, lit x3]).mergeNested = .ok m := by
  intro x1 x2 x3 f g h
  have hf : f.WellFormed := by simp [f]
  have hg : g.WellFormed := by simp [g]
  have hh : h.WellFormed := by simp [h]
  have hmf : f.mergeNested = .ok (or [lit x1, lit x2, not (and [lit x1, lit x2, lit x3])]) := by
    rw [mergeNested_eq_ok hf]
    simp [f, bottomUp, mergeNode, conjuncts, disjuncts]
  have hmg : g.mergeNested = .ok (or [lit x1, lit x2, not (and [lit x1, lit x2, lit x3])]) := by
    rw [mergeNested_eq_ok hg]
    simp [g, bottomUp, mergeNode, conjuncts, disjuncts]
  have hmh : h.mergeNested = .ok h := by
    rw [mergeNested_eq_ok hh]
    simp [h, bottomUp, mergeNode, conjuncts, disjuncts]
  have hne : or [lit x1, lit x2, not (and [lit x1, lit x2, lit x3])] ≠ h := by decide
  have hargs : ∀ a ∈ [lit x1, f, lit x3], a.WellFormed := by simp [hf]
  obtain ⟨⟨_, _, hr, hs, hfg⟩, -, hchains⟩ := mergeNested_eq_iff_regrouped hf hg
  obtain ⟨⟨_, _, hr', ht, hfh⟩, -, -⟩ := mergeNested_eq_iff_regrouped hf hh
  cases hmf.symm.trans hr
  cases hmg.symm.trans hs
  cases hmf.symm.trans hr'
  cases hmh.symm.trans ht
  exact ⟨hf, hg, hh, hfg.1 rfl, mt hfh.2 hne, hchains .and and .and _ (by simp) hargs⟩

end Formula

end Clausal
