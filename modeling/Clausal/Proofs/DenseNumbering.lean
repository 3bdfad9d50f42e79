import Clausal.Proofs.DimacsReading
import Clausal.Proofs.PolarityOccurrences
import Clausal.Proofs.SolverModels
import Mathlib.Order.Interval.Finset.Nat

/-! Which formulas are handed over as valid instances. The header counts the variables, but a reader
takes the count for the greatest of them; the two agree where the variables are numbered without
gaps. -/
namespace Clausal

/-- Positive numbers reach no higher than their number exactly if they leave no gap. -/
theorem le_card_iff_eq_Icc {s : Finset Nat} (hpos : ∀ n ∈ s, 0 < n) :
    (∀ n ∈ s, n ≤ s.card) ↔ s = Finset.Icc 1 s.card := by
  constructor
  · intro hle
    have hsub : s ⊆ Finset.Icc 1 s.card := fun n hn => Finset.mem_Icc.2 ⟨hpos n hn, hle n hn⟩
    have hcard : (Finset.Icc 1 s.card).card ≤ s.card := by
      rw [Nat.card_Icc]
      omega
    exact Finset.eq_of_subset_of_card_le hsub hcard
  · intro hs n hn
    rw [hs] at hn
    exact (Finset.mem_Icc.1 hn).2

namespace Formula

/-- The numbers of the variables. -/
def indices (f : Formula) : Finset Nat := (f.vars.map fun v => v.index.toNat).toFinset

theorem mem_indices {f : Formula} {n : Nat} :
    n ∈ f.indices ↔ ∃ v ∈ f.vars, v.index.toNat = n := by
  rw [indices, List.mem_toFinset, List.mem_map]

/-- The variables are listed once each. -/
theorem card_indices (f : Formula) : f.indices.card = f.vars.length := by
  have hascending : (f.vars.map fun v => v.index.toNat).Pairwise (· < ·) :=
    List.pairwise_map.2 (Var.pairwise_ascending _)
  rw [indices, List.toFinset_card_of_nodup (hascending.imp Nat.ne_of_lt), List.length_map]

theorem pos_of_mem_indices {f : Formula} {n : Nat} (h : n ∈ f.indices) : 0 < n := by
  obtain ⟨v, hv, rfl⟩ := mem_indices.1 h
  obtain ⟨l, -, rfl⟩ := mem_vars.1 hv
  have hne := l.toInt_ne_zero
  rw [Literal.toNat_index_var]
  omega

/-- Conversion and extraction keep the variables. -/
theorem vars_of_clauseList {f : Formula} {cs : ClauseList} (hf : f.WellFormed)
    (h : f.clauseList = .ok cs) : cs.vars = f.vars := by
  rw [clauseList_eq_ok hf] at h
  cases h
  refine Var.ascending_eq_of_mem_iff fun v => ?_
  show v ∈ Var.ascending _ ↔ v ∈ f.vars
  rw [mem_vars_iff_clausesAt hf, Var.mem_ascending, List.flatMap_map, List.mem_flatMap]
  simp only [List.mem_map]

theorem exists_index_iff {f : Formula} {cs : ClauseList} (hf : f.WellFormed)
    (h : f.clauseList = .ok cs) {n : Nat} :
    n ∈ f.indices ↔ ∃ c ∈ cs.clauses, ∃ a ∈ Dimacs.clauseInts c, a.natAbs = n := by
  rw [mem_indices, ← vars_of_clauseList hf h, ClauseList.vars]
  simp only [Var.mem_ascending, List.mem_flatMap, List.mem_map, Dimacs.clauseInts]
  constructor
  · rintro ⟨_, ⟨c, hc, l, hl, rfl⟩, rfl⟩
    exact ⟨c, hc, l.toInt, ⟨l, hl, rfl⟩, (Literal.toNat_index_var l).symm⟩
  · rintro ⟨c, hc, _, ⟨l, hl, rfl⟩, rfl⟩
    exact ⟨l.var, ⟨c, hc, l, hl, rfl⟩, Literal.toNat_index_var l⟩

end Formula

namespace Dimacs

open Formula Text

/-- No literal is greater than the header announces. -/
def Instance.InBounds (i : Instance) : Prop :=
  ∀ ns ∈ i.clauses, ∀ n ∈ ns, n.natAbs ≤ i.varCount

theorem inBounds_iff {f : Formula} {cs : ClauseList} (hf : f.WellFormed)
    (h : f.clauseList = .ok cs) {v c : Nat} :
    Instance.InBounds ⟨v, c, cs.clauses.map clauseInts⟩ ↔ ∀ n ∈ f.indices, n ≤ v := by
  simp only [Instance.InBounds, List.forall_mem_map, exists_index_iff hf h]
  constructor
  · rintro hbound n ⟨c, hc, a, ha, rfl⟩
    exact hbound c hc a ha
  · intro hbound c hc a ha
    exact hbound a.natAbs ⟨c, hc, a, ha, rfl⟩

/-- The text of a converted formula announces as many variables as the formula has and as many
clauses as lines follow, each of them a clause ended by a zero. Its literals keep to the variables
announced exactly if those of the formula are numbered from one without gaps. -/
theorem inBounds_of_clauseList {f : Formula} (h : f.WellFormed) :
    ∃ cs i header body, f.clauseList = .ok cs ∧ read? cs.dimacs = some i ∧
      lines? cs.dimacs.toList = some (header :: body) ∧
      header? header = some (f.indices.card, body.length) ∧
      (i.varCount = f.indices.card ∧ i.clauseCount = body.length) ∧
      body.map (fun line => integers? (words line)) = i.clauses.map (fun ns => some (ns ++ [0])) ∧
      (i.InBounds ↔ f.indices = Finset.Icc 1 i.varCount) := by
  obtain ⟨cs, hcs⟩ : ∃ cs, f.clauseList = .ok cs := ⟨_, clauseList_eq_ok h⟩
  have hvars : cs.vars.length = f.indices.card := by rw [vars_of_clauseList h hcs, card_indices]
  have hsize : cs.size = (cs.clauses.map clauseLine).length := by
    rw [List.length_map, ClauseList.size]
  refine ⟨cs, _, _, _, hcs, read?_dimacs cs, lines?_dimacs cs, ?_, ⟨hvars, hsize⟩, ?_, ?_⟩
  · rw [header?_headerLine, hvars, hsize]
  · rw [List.map_map, List.map_map]
    exact List.map_congr_left fun c _ => integers?_clauseLine c
  · rw [inBounds_iff h hcs]
    show (∀ n ∈ f.indices, n ≤ cs.vars.length) ↔ f.indices = Finset.Icc 1 cs.vars.length
    rw [hvars]
    exact le_card_iff_eq_Icc fun n => pos_of_mem_indices

/-- Two variables are announced, and the literal -3 follows. -/
theorem inBounds_of_clauseList_of_gap :
    let x1 : Literal := .ofWord 1 (by decide)
    let x3 : Literal := .ofWord 3 (by decide)
    let f := implies (lit x3) (lit x1)
    f.WellFormed ∧ f.indices = {1, 3} ∧
      ∃ cs i, f.clauseList = .ok cs ∧ read? cs.dimacs = some i ∧ i.varCount = 2 ∧ ¬ i.InBounds := by
  intro x1 x3 f
  have hw : f.WellFormed := by simp [f]
  have hx1 : x1.var.index.toNat = 1 := by decide
  have hx3 : x3.var.index.toNat = 3 := by decide
  have hindices : f.indices = {1, 3} := by
    ext n
    simp only [f, mem_indices, mem_vars_implies, mem_vars_lit, Finset.mem_insert,
      Finset.mem_singleton]
    constructor
    · rintro ⟨_, rfl | rfl, rfl⟩
      · exact .inr hx3
      · exact .inl hx1
    · rintro (rfl | rfl)
      · exact ⟨x1.var, .inr rfl, hx1⟩
      · exact ⟨x3.var, .inl rfl, hx3⟩
  obtain ⟨cs, i, _, _, hcs, hread, -, -, ⟨hcount, -⟩, -, hbounds⟩ := inBounds_of_clauseList hw
  rw [hindices] at hcount hbounds
  have htwo : i.varCount = 2 := hcount
  have hgap : ({1, 3} : Finset Nat) ≠ Finset.Icc 1 i.varCount := by
    rw [htwo]
    decide
  exact ⟨hw, hindices, cs, i, hcs, hread, htwo, mt hbounds.1 hgap⟩

end Dimacs

end Clausal
