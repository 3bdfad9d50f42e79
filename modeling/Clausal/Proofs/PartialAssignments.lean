import Clausal.Proofs.PassEvaluation

/-! Evaluation under partial assignments. A value stays the same when more variables are assigned,
and only the variables of the formula count. Without implications every literal is read, and the
first unassigned one decides the fault. -/
namespace Clausal

namespace Assignment

/-- Every variable that the second assignment knows has the same value in the first. -/
def Extends (m' m : Assignment) : Prop := ∀ v b, m v = some b → m' v = some b

/-- The assignment of a value to every variable. -/
def ofTotal (σ : Var → Bool) : Assignment := fun v => some (σ v)

theorem extends_set {m : Assignment} {v : Var} (h : m v = none) (b : Bool) :
    (m.set v b).Extends m := by
  intro w c hw
  have hne : w ≠ v := by
    rintro rfl
    rw [h] at hw
    contradiction
  rw [set_of_ne m hne, hw]

end Assignment

namespace Formula

variable {m m' : Assignment} {f : Formula} {b : Bool}

theorem eval_lit_of_extends (hm : m'.Extends m) {l : Literal} (h : (lit l).eval m = .ok b) :
    (lit l).eval m' = .ok b := by
  cases hl : m l.var with
  | none =>
    rw [eval, hl] at h
    contradiction
  | some c =>
    rw [eval, hl] at h
    rw [eval, hm l.var c hl]
    exact h

/-- Growth of the assignment keeps a value, also above an implication that skips its conclusion: the
premise stays false. -/
theorem eval_of_extends (hm : m'.Extends m) (h : f.eval m = .ok b) : f.eval m' = .ok b := by
  induction f using induction_operands generalizing b with
  | step f ih =>
    have hself : f.mapOperands id = f := mapOperands_eq_self fun _ _ => rfl
    rw [← hself] at h ⊢
    exact eval_mapOperands_carries (fun _ _ _ hl => eval_lit_of_extends hm hl)
      (fun a ha _ hb => ih a ha hb) h

theorem eval_ofTotal (σ : Var → Bool) (f : Formula) :
    f.eval (.ofTotal σ) = .ok (f.truth σ) :=
  eval_eq_ok_truth fun _ _ => rfl

/-- A value is the truth value under every completion of the assignment. -/
theorem truth_of_eval {σ : Var → Bool} (hσ : (Assignment.ofTotal σ).Extends m)
    (h : f.eval m = .ok b) : f.truth σ = b := by
  have htotal := eval_of_extends hσ h
  rw [eval_ofTotal] at htotal
  exact Except.ok.inj htotal

/-- Variables that do not occur do not count, neither for a value nor for a fault. -/
theorem eval_congr (h : ∀ v ∈ f.vars, m' v = m v) : f.eval m' = f.eval m := by
  induction f using induction_operands with
  | step f ih =>
    have hself : f.mapOperands id = f := mapOperands_eq_self fun _ _ => rfl
    have hlit : ∀ l, f = lit l → (lit l).eval m' = (lit l).eval m := by
      rintro l rfl
      rw [eval, h l.var (by simp), eval]
    rw [← hself]
    exact eval_mapOperands_congr hlit
      fun a ha => ih a ha fun v hv => h v (mem_vars_of_mem_operands ha hv)

theorem exists_unassigned_of_eval {e : Fault} (h : f.eval m = .error e) :
    ∃ v ∈ f.vars, m v = none ∧ e = .unassigned v := by
  rw [eval_eq, faultOr_eq_error_iff] at h
  exact exists_unassigned_of_missing? h

/-- A node that skips no operand misses what the first operand misses that misses anything. -/
theorem IsEager.missing?_eq_findSome? {c : Connective} (hf : f.IsEager)
    (hc : f.connective? = some c) : f.missing? m = f.operands.findSome? (missing? m) := by
  cases f with
  | lit l => contradiction
  | not a => rw [missing?, operands, List.findSome?_singleton]
  | implies a b => exact absurd rfl hf.self
  | iff a b =>
    rw [missing?, operands, List.findSome?_cons, List.findSome?_singleton]
    cases missing? m a <;> rfl
  | and args => exact missing?_and m args
  | or args => exact missing?_or m args

theorem IsEager.missing?_eq_find? (hf : f.IsEager) :
    f.missing? m =
      (f.literals.find? fun l => (m l.var).isNone).map fun l => .unassigned l.var := by
  induction f using induction_operands with
  | step f ih =>
    cases hc : f.connective? with
    | none =>
      obtain ⟨l, rfl⟩ := connective?_eq_none_iff.1 hc
      rw [literals_lit, missing?, List.find?_singleton]
      cases m l.var <;> rfl
    | some c =>
      have hoperands := findSome?_congr fun a ha => ih a ha (hf.operand ha)
      rw [hf.missing?_eq_findSome? hc, hoperands, literals_of_connective? hc, List.find?_flatMap,
        List.map_findSome?]
      rfl

/-- Where no implication skips anything, evaluation fails exactly if some literal is unassigned, and
names the variable of the first one. -/
theorem IsEager.eval_eq_error_iff {e : Fault} (hf : f.IsEager) :
    f.eval m = .error e ↔
      ∃ l, (f.literals.find? fun l => (m l.var).isNone) = some l ∧ e = .unassigned l.var := by
  rw [eval_eq, faultOr_eq_error_iff, hf.missing?_eq_find?, Option.map_eq_some_iff]
  simp only [eq_comm]

/-- Evaluation under a partial assignment is sound and local, whatever the numbers of operands. A
value stays when the assignment grows, and is the truth value under every completion; variables that
do not occur do not count; a formula with all variables assigned has a value; a fault names a
variable of the formula that is unassigned, and without implications that of the first unassigned
literal. A conjunction without operands is true, a disjunction without operands is false. -/
theorem eval_of_partial_assignment (f : Formula) (m : Assignment) :
    (∀ b, f.eval m = .ok b →
      (∀ m' : Assignment, m'.Extends m → f.eval m' = .ok b) ∧
      ∀ σ, (Assignment.ofTotal σ).Extends m → f.truth σ = b) ∧
    (∀ m' : Assignment, (∀ v ∈ f.vars, m' v = m v) → f.eval m' = f.eval m) ∧
    ((∀ v ∈ f.vars, (m v).isSome) → ∃ b, f.eval m = .ok b) ∧
    (∀ e, f.eval m = .error e → ∃ v ∈ f.vars, m v = none ∧ e = .unassigned v) ∧
    (f.IsEager →
      ((∃ e, f.eval m = .error e) ↔ ∃ v ∈ f.vars, m v = none) ∧
      ∀ e, f.eval m = .error e ↔
        ∃ l, (f.literals.find? fun l => (m l.var).isNone) = some l ∧ e = .unassigned l.var) ∧
    (and []).eval m = .ok true ∧ (or []).eval m = .ok false := by
  refine ⟨fun b hb => ⟨fun m' hm => eval_of_extends hm hb, fun σ hσ => truth_of_eval hσ hb⟩,
    fun m' hm => eval_congr hm, fun hm => ⟨_, eval_eq_ok_truth hm⟩,
    fun e he => exists_unassigned_of_eval he, fun hf => ⟨⟨?_, ?_⟩, fun e => hf.eval_eq_error_iff⟩,
    by rw [eval]; rfl, by rw [eval]; rfl⟩
  · rintro ⟨e, he⟩
    obtain ⟨v, hv, hm, -⟩ := exists_unassigned_of_eval he
    exact ⟨v, hv, hm⟩
  · intro hm
    obtain ⟨v, -, -, he⟩ := hf.exists_unassigned hm
    exact ⟨_, he⟩

/-- The implication has a value, as its premise is false. The disjunction fails at its second
literal, also though its other operands would decide it. -/
theorem eval_of_partial_assignment_of_false_premise :
    let x1 : Literal := .ofWord 1 (by decide)
    let x2 : Literal := .ofWord 2 (by decide)
    let x3 : Literal := .ofWord 3 (by decide)
    let f := iff (implies (lit x1) (lit x2)) (or [])
    let g := or [lit x1, and [], not (lit x2), lit x3]
    let m := Assignment.empty.set x1.var false
    let m' := m.set x2.var true
    f.eval m = .ok false ∧ f.eval m' = .ok false ∧ f.truth (fun _ => false) = false ∧
      (∃ b, f.eval m' = .ok b) ∧ f.eval (m.set x3.var true) = f.eval m ∧
      g.IsEager ∧ g.eval m = .error (.unassigned x2.var) ∧ ∃ v ∈ g.vars, m v = none := by
  intro x1 x2 x3 f g m m'
  have h1 : m x1.var = some false := Assignment.set_self _ _ _
  have h2 : m x2.var = none := Assignment.set_of_ne _ (by decide) _
  have hf : f.eval m = .ok false := by
    have hpremise : (lit x1).eval m = .ok false := by
      rw [eval, h1]
      rfl
    have hleft : (implies (lit x1) (lit x2)).eval m = .ok true := by
      rw [eval, hpremise]
      rfl
    rw [eval, hleft, eval]
    rfl
  have hm' : m'.Extends m := Assignment.extends_set h2 true
  have hσ : (Assignment.ofTotal fun _ => false).Extends m := by
    intro v b hb
    by_cases hv : v = x1.var
    · rw [hv, h1] at hb
      exact hb
    · have hnone : m v = none := Assignment.set_of_ne _ hv _
      rw [hnone] at hb
      contradiction
  have hassigned : ∀ v ∈ f.vars, (m' v).isSome := by
    intro v hv
    obtain rfl | rfl : x1.var = v ∨ x2.var = v := by simpa [f] using hv
    · rw [hm' _ _ h1]
      rfl
    · exact Option.isSome_of_eq_some (Assignment.set_self _ _ _)
  have habsent : ∀ v ∈ f.vars, (m.set x3.var true) v = m v := by
    intro v hv
    obtain rfl | rfl : x1.var = v ∨ x2.var = v := by simpa [f] using hv
    · exact Assignment.set_of_ne _ (by decide) _
    · exact Assignment.set_of_ne _ (by decide) _
  have hg : g.IsEager := by
    simp [g, IsEager, Everywhere, preorder_eq, operands, connective?]
  have hfirst : (g.literals.find? fun l => (m l.var).isNone) = some x2 := by
    simp [g, literals_or, literals_and, literals_lit, literals_not, h1, h2]
  obtain ⟨hvalue, hlocal, -⟩ := eval_of_partial_assignment f m
  obtain ⟨hgrown, htruth⟩ := hvalue false hf
  obtain ⟨-, -, hvalues, -⟩ := eval_of_partial_assignment f m'
  obtain ⟨-, -, -, hfault, heager, -⟩ := eval_of_partial_assignment g m
  have herror : g.eval m = .error (.unassigned x2.var) := ((heager hg).2 _).2 ⟨x2, hfirst, rfl⟩
  obtain ⟨v, hv, hnone, -⟩ := hfault _ herror
  exact ⟨hf, hgrown m' hm', htruth _ hσ, hvalues hassigned, hlocal _ habsent, hg, herror, v, hv,
    hnone⟩

end Formula

end Clausal
