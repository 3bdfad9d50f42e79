import Clausal.Proofs.LexicographicProduct
import Clausal.Proofs.Occurrences

/-! The order in which subformulas are visited. From any stack the visit goes through the formulas
on it from the top down, each followed by the visits of its operands; so it meets the places of a
formula in lexicographic order, every place once. -/
namespace Clausal.Formula

/-- Steps from the stack go through the formulas of the list, and then there is none left. -/
inductive Yields : List Formula → List Formula → Prop
  | stop {pending : List Formula} (done : next? pending = none) : Yields pending []
  | step {pending rest fs : List Formula} {f : Formula} (next : next? pending = some (f, rest))
      (later : Yields rest fs) : Yields pending (f :: fs)

theorem Yields.eq_flatMap {pending fs : List Formula} (h : Yields pending fs) :
    fs = pending.flatMap preorder := by
  induction h with
  | stop done =>
    rw [next?_eq_none_iff.1 done]
    rfl
  | step next later ih =>
    obtain ⟨below, rfl, rfl⟩ := next?_eq_some_iff.1 next
    simp [ih, preorder_eq]

/-- Every step takes a node off the stack, so that the steps end. -/
theorem yields_flatMap (pending : List Formula) : Yields pending (pending.flatMap preorder) := by
  match hnext : next? pending with
  | none =>
    rw [next?_eq_none_iff.1 hnext]
    exact .stop next?_nil
  | some (f, rest) =>
    have hlater := yields_flatMap rest
    obtain ⟨below, rfl, rfl⟩ := next?_eq_some_iff.1 hnext
    have hlist : (f :: below).flatMap preorder = f :: (f.operands ++ below).flatMap preorder := by
      simp [preorder_eq f]
    rw [hlist]
    exact .step hnext hlater
termination_by weight pending
decreasing_by exact weight_of_next? hnext

theorem yields_iff {pending fs : List Formula} :
    Yields pending fs ↔ fs = pending.flatMap preorder :=
  ⟨Yields.eq_flatMap, fun h => h ▸ yields_flatMap pending⟩

theorem nodes_eq (f : Formula) : f.nodes = f.preorder := by
  rw [nodes, foldNodes_eq_foldl]
  simp

/-! ### Places -/

/-- The subformula at a place, which gives at every node on the way the number of the operand. -/
def at? : Formula → List Nat → Option Formula
  | f, [] => some f
  | f, i :: place =>
    match f.operands[i]? with
    | some a => a.at? place
    | none => none

/-- All places of a formula, the root before the places below each operand in turn. -/
def places (f : Formula) : List (List Nat) :=
  [] :: f.operands.zipIdx.attach.flatMap fun ⟨p, _⟩ => (places p.1).map (p.2 :: ·)
termination_by sizeOf f
decreasing_by exact sizeOf_lt_of_mem_operands (List.fst_mem_of_mem_zipIdx ‹_›)

theorem places_eq (f : Formula) :
    f.places = [] :: f.operands.zipIdx.flatMap fun p => p.1.places.map (p.2 :: ·) := by
  rw [places, List.flatMap_subtype (g := fun p => p.1.places.map (p.2 :: ·)) fun _ _ => rfl,
    List.unattach_attach]

theorem at?_cons_of_getElem? {f a : Formula} {i : Nat} (h : f.operands[i]? = some a)
    (place : List Nat) : f.at? (i :: place) = a.at? place := by
  rw [at?, h]

theorem mem_places {f : Formula} {place : List Nat} : place ∈ f.places ↔ (f.at? place).isSome := by
  induction place generalizing f with
  | nil => simp [places_eq f, at?]
  | cons i place ih =>
    have hbelow : i :: place ∈ f.places ↔ ∃ a, f.operands[i]? = some a ∧ place ∈ a.places := by
      rw [places_eq f]
      simp [List.mem_zipIdx_iff_getElem?]
    rw [hbelow, at?]
    cases f.operands[i]? <;> simp [ih]

/-- The places below one operand come before those below the operands to the right of it. -/
theorem pairwise_places (f : Formula) : f.places.Pairwise (List.Lex (· < ·)) := by
  induction f using induction_operands with
  | step f ih =>
    rw [places_eq, List.pairwise_cons, List.pairwise_flatMap]
    refine ⟨?_, ?_, ?_⟩
    · intro place hplace
      obtain ⟨p, -, hp⟩ := List.mem_flatMap.1 hplace
      obtain ⟨_, -, rfl⟩ := List.mem_map.1 hp
      exact .nil
    · intro p hp
      have hoperand := ih p.1 (List.fst_mem_of_mem_zipIdx hp)
      rw [List.pairwise_map]
      exact hoperand.imp fun hlex => .cons hlex
    · apply (pairwise_zipIdx f.operands).imp
      intro p q hpq place hplace place' hplace'
      obtain ⟨_, -, rfl⟩ := List.mem_map.1 hplace
      obtain ⟨_, -, rfl⟩ := List.mem_map.1 hplace'
      exact .rel hpq

theorem map_at?_places (f : Formula) : f.places.map f.at? = f.preorder.map some := by
  induction f using induction_operands with
  | step f ih =>
    have hbelow : ∀ p ∈ f.operands.zipIdx,
        (p.1.places.map (p.2 :: ·)).map f.at? = p.1.preorder.map some := by
      intro p hp
      have hoperand := List.mem_zipIdx_iff_getElem?.1 hp
      rw [List.map_map, ← ih p.1 (List.fst_mem_of_mem_zipIdx hp)]
      exact List.map_congr_left fun place _ => at?_cons_of_getElem? hoperand place
    calc f.places.map f.at?
        = some f :: f.operands.zipIdx.flatMap fun p => (p.1.places.map (p.2 :: ·)).map f.at? := by
          rw [places_eq, List.map_cons, List.map_flatMap, at?]
      _ = some f :: f.operands.zipIdx.flatMap fun p => p.1.preorder.map some := by
          rw [List.flatMap_congr hbelow]
      _ = some f :: (f.operands.zipIdx.map Prod.fst).flatMap fun a => a.preorder.map some := by
          rw [List.flatMap_map]
      _ = f.preorder.map some := by
          rw [List.zipIdx_map_fst, preorder_eq, List.map_cons, List.map_flatMap]

/-! ### Leaves -/

/-- The literals at the leaves from left to right. -/
def leaves : Formula → List Literal
  | lit l => [l]
  | not a => leaves a
  | implies a b | iff a b => leaves a ++ leaves b
  | and args | or args => args.flatMap fun a => leaves a

theorem literals_eq_leaves (f : Formula) : f.literals = f.leaves := by
  induction f with
  | lit l => rw [literals_lit, leaves]
  | not a ih => rw [literals_not, ih, leaves]
  | implies a b iha ihb | iff a b iha ihb =>
    rw [literals_of_connective? rfl, leaves, ← iha, ← ihb]
    simp [operands]
  | and args ih =>
    rw [literals_and, leaves]
    exact List.flatMap_congr ih
  | or args ih =>
    rw [literals_or, leaves]
    exact List.flatMap_congr ih

/-- The visit of a stack ends after the formulas in preorder: each formula on it before its
operands, and these from left to right. The nodes of a formula are what stands at its places in
their lexicographic order, with no place left out or met twice. Hence its literals are its leaves
from left to right, and its variables the magnitudes of these in ascending order. -/
theorem nodes_in_preorder :
    (∀ pending fs, Yields pending fs ↔ fs = pending.flatMap preorder) ∧
    ∀ f : Formula,
      f.preorder = f :: f.operands.flatMap preorder ∧
      (Yields [f] f.nodes ∧ f.nodes = f.preorder ∧ f.nodeCount = f.nodes.length) ∧
      (∃ ps : List (List Nat), ps.Pairwise (List.Lex (· < ·)) ∧
        (∀ place, place ∈ ps ↔ (f.at? place).isSome) ∧ ps.map f.at? = f.nodes.map some) ∧
      f.literals = f.leaves ∧
      (∀ v, v ∈ f.vars ↔ ∃ l ∈ f.leaves, v.index.toNat = l.toInt.natAbs) ∧
      f.vars.Pairwise fun v w => v.index.toNat < w.index.toNat := by
  refine ⟨fun pending fs => yields_iff, fun f => ⟨preorder_eq f, ⟨?_, nodes_eq f, ?_⟩,
    ⟨f.places, pairwise_places f, fun place => mem_places, ?_⟩, literals_eq_leaves f, fun v => ?_,
    Var.pairwise_ascending _⟩⟩
  · rw [yields_iff, nodes_eq, List.flatMap_singleton]
  · rw [nodeCount_eq_length, nodes_eq]
  · rw [map_at?_places, nodes_eq]
  · rw [mem_vars, literals_eq_leaves]
    constructor
    · rintro ⟨l, hl, rfl⟩
      exact ⟨l, hl, Literal.toNat_index_var l⟩
    · rintro ⟨l, hl, hv⟩
      exact ⟨l, hl, Var.ext_toNat ((Literal.toNat_index_var l).trans hv.symm)⟩

example :
    let x1 : Literal := .ofWord 1 (by decide)
    let x2 : Literal := .ofWord (-2) (by decide)
    (or [and [lit x1, or []], implies (lit x2) (not (lit x1))]).nodes =
      [or [and [lit x1, or []], implies (lit x2) (not (lit x1))], and [lit x1, or []], lit x1,
        or [], implies (lit x2) (not (lit x1)), lit x2, not (lit x1), lit x1] := by cbv

end Clausal.Formula
