import Clausal.Proofs.ClauseTruth
import Clausal.Sample
import Mathlib.Algebra.Group.Basic
import Mathlib.Data.List.Sort

/-! The literals of a clausal form. They are those that occur in the formula, negated where the
occurrence stands under an odd number of negations. -/
namespace Clausal

instance : InvolutiveNeg Literal where
  neg_neg := Literal.neg_neg

theorem Var.ascending_eq_of_mem_iff {vs ws : List Var}
    (h : ∀ v, v ∈ ascending vs ↔ v ∈ ascending ws) : ascending vs = ascending ws := by
  have hirrefl : Std.Irrefl fun v w : Var => v.index.toNat < w.index.toNat :=
    ⟨fun v => Nat.lt_irrefl _⟩
  have hantisymm : Std.Antisymm fun v w : Var => v.index.toNat < w.index.toNat :=
    ⟨fun v w hvw hwv => absurd hvw (Nat.lt_asymm hwv)⟩
  exact (pairwise_ascending vs).eq_of_mem_iff (pairwise_ascending ws) h

theorem Polarity.exists_iff (p : Polarity) {P : Polarity → Prop} :
    (∃ q, P q) ↔ P p ∨ P p.flip := by
  have hall : ∀ q, q = p ∨ q = p.flip := by
    intro q
    cases p <;> cases q <;> simp
  constructor
  · intro hex
    obtain ⟨q, hq⟩ := hex
    rcases hall q with rfl | rfl
    · exact .inl hq
    · exact .inr hq
  · rintro (h | h)
    · exact ⟨p, h⟩
    · exact ⟨p.flip, h⟩

namespace Formula

/-- The literal occurs in the formula where the negations above it leave it at the polarity. A
negation and the premise of an implication turn the polarity, and what occurs below an equivalence
counts at both. -/
inductive OccursAt : Formula → Polarity → Literal → Prop
  | lit (l : Literal) : OccursAt (lit l) .positive l
  | not {a : Formula} {p : Polarity} {l : Literal} (below : OccursAt a p l) :
      OccursAt (not a) p.flip l
  | premise {a b : Formula} {p : Polarity} {l : Literal} (below : OccursAt a p l) :
      OccursAt (implies a b) p.flip l
  | conclusion {a b : Formula} {p : Polarity} {l : Literal} (below : OccursAt b p l) :
      OccursAt (implies a b) p l
  | left {a b : Formula} {p q : Polarity} {l : Literal} (below : OccursAt a q l) :
      OccursAt (iff a b) p l
  | right {a b : Formula} {p q : Polarity} {l : Literal} (below : OccursAt b q l) :
      OccursAt (iff a b) p l
  | and {args : List Formula} {a : Formula} {p : Polarity} {l : Literal} (operand : a ∈ args)
      (below : OccursAt a p l) : OccursAt (and args) p l
  | or {args : List Formula} {a : Formula} {p : Polarity} {l : Literal} (operand : a ∈ args)
      (below : OccursAt a p l) : OccursAt (or args) p l

section OccursAt

variable {a b : Formula} {args : List Formula} {p : Polarity} {l m : Literal}

@[simp] theorem occursAt_lit : (lit m).OccursAt p l ↔ p = .positive ∧ l = m := by
  constructor
  · rintro ⟨⟩
    exact ⟨rfl, rfl⟩
  · rintro ⟨rfl, rfl⟩
    exact .lit l

@[simp] theorem occursAt_not : (not a).OccursAt p l ↔ a.OccursAt p.flip l := by
  constructor
  · intro h
    cases h with
    | not below => simpa using below
  · intro h
    simpa using h.not

@[simp] theorem occursAt_implies :
    (implies a b).OccursAt p l ↔ a.OccursAt p.flip l ∨ b.OccursAt p l := by
  constructor
  · intro h
    cases h with
    | premise below => exact .inl (by simpa using below)
    | conclusion below => exact .inr below
  · rintro (h | h)
    · simpa using h.premise (b := b)
    · exact h.conclusion

@[simp] theorem occursAt_iff :
    (iff a b).OccursAt p l ↔ ∃ q, a.OccursAt q l ∨ b.OccursAt q l := by
  constructor
  · intro h
    cases h with
    | left below => exact ⟨_, .inl below⟩
    | right below => exact ⟨_, .inr below⟩
  · rintro ⟨q, h | h⟩
    · exact h.left
    · exact h.right

@[simp] theorem occursAt_and : (and args).OccursAt p l ↔ ∃ a ∈ args, a.OccursAt p l := by
  constructor
  · intro h
    cases h with
    | and operand below => exact ⟨_, operand, below⟩
  · rintro ⟨a, ha, h⟩
    exact h.and ha

@[simp] theorem occursAt_or : (or args).OccursAt p l ↔ ∃ a ∈ args, a.OccursAt p l := by
  constructor
  · intro h
    cases h with
    | or operand below => exact ⟨_, operand, below⟩
  · rintro ⟨a, ha, h⟩
    exact h.or ha

end OccursAt

theorem mem_literals_map_nnfAt {args : List Formula} {p : Polarity} {l : Literal}
    (h : ∀ a ∈ args, l ∈ (nnfAt p a).literals ↔ a.OccursAt p l ∨ a.OccursAt p.flip (-l)) :
    l ∈ (args.map (nnfAt p)).flatMap literals ↔
      (∃ a ∈ args, a.OccursAt p l) ∨ ∃ a ∈ args, a.OccursAt p.flip (-l) := by
  rw [List.mem_flatMap, exists_mem_map_iff (P := fun g : Formula => l ∈ g.literals) h]
  simp only [and_or_left, exists_or]

/-- Moving negations inward keeps the literals that occur at the polarity and negates those that
occur at the other one. -/
theorem mem_literals_nnfAt {f : Formula} {p : Polarity} {l : Literal} :
    l ∈ (nnfAt p f).literals ↔ f.OccursAt p l ∨ f.OccursAt p.flip (-l) := by
  induction f generalizing p with
  | lit m =>
    rw [nnfAt, literals_lit, List.mem_singleton, occursAt_lit, occursAt_lit]
    cases p with
    | positive => simp
    | negative => simp [neg_eq_iff_eq_neg]
  | not a ih => rw [nnfAt, ih, occursAt_not, occursAt_not]
  | implies a b iha ihb =>
    rw [nnfAt, literals_disjoin, occursAt_implies, occursAt_implies]
    simp only [List.flatMap_cons, List.flatMap_nil, List.append_nil, List.mem_append, iha, ihb]
    exact or_or_or_comm
  | iff a b iha ihb =>
    rw [nnfAt, literals_conjoin, occursAt_iff, occursAt_iff, p.exists_iff, p.exists_iff]
    simp only [List.flatMap_cons, List.flatMap_nil, List.append_nil, List.mem_append,
      literals_disjoin, iha, ihb, Polarity.flip_flip]
    tauto
  | and args ih =>
    rw [nnfAt, literals_conjoin, occursAt_and, occursAt_and]
    exact mem_literals_map_nnfAt fun a ha => ih a ha
  | or args ih =>
    rw [nnfAt, literals_disjoin, occursAt_or, occursAt_or]
    exact mem_literals_map_nnfAt fun a ha => ih a ha

/-- The literals of the clausal form are exactly those that occur in the formula at positive
polarity and the negations of those that occur at negative polarity, so that no variable is lost and
none is new. -/
theorem literals_of_clausalForm {f : Formula} (h : f.WellFormed) :
    ∃ r, f.clausalForm = .ok r ∧
      (∀ l, l ∈ r.literals ↔ f.OccursAt .positive l ∨ f.OccursAt .negative (-l)) ∧
      r.vars = f.vars := by
  obtain ⟨r, hf, -, hvars, -⟩ := exists_clausalForm_truth h
  obtain ⟨r', hf', hr, hclauses⟩ := exists_clausalForm_clausesAt h
  obtain rfl : r = r' := Except.ok.inj (hf.symm.trans hf')
  refine ⟨r, hf, fun l => ?_, Var.ascending_eq_of_mem_iff hvars⟩
  rw [mem_literals_of_clausesAt h hr hclauses, mem_literals_nnfAt, Polarity.flip_positive]

theorem literals_of_equivalent_premise :
    let x1 : Literal := .ofWord 1 (by decide)
    let x2 : Literal := .ofWord 2 (by decide)
    let x3 : Literal := .ofWord 3 (by decide)
    let f := implies (iff (lit x1) (lit x2)) (not (lit x3))
    f.WellFormed ∧ ∃ r, f.clausalForm = .ok r ∧
      (x1 ∈ r.literals ∧ -x1 ∈ r.literals) ∧ (-x3 ∈ r.literals ∧ x3 ∉ r.literals) ∧
      r.vars = f.vars := by
  intro x1 x2 x3 f
  have hf : f.WellFormed := by simp [f]
  obtain ⟨r, hr, hliterals, hvars⟩ := literals_of_clausalForm hf
  have hdistinct : x3 ≠ x1 ∧ x3 ≠ x2 ∧ -x3 ≠ x1 ∧ -x3 ≠ x2 ∧ -x3 ≠ x3 := by decide
  refine ⟨hf, r, hr, ⟨?_, ?_⟩, ⟨?_, ?_⟩, hvars⟩
  · simp [hliterals, f]
  · simp [hliterals, f]
  · simp [hliterals, f]
  · simp [hliterals, f, hdistinct]

end Formula

end Clausal
