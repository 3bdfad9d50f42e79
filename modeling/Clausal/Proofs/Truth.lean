import Clausal.Evaluation
import Clausal.Proofs.Occurrences

/-! Evaluation in closed form: the first unassigned variable that counts, or else the truth value
under any completion of the assignment. -/
namespace Clausal

/-- The assignment with every other variable false. -/
def Assignment.complete (m : Assignment) (v : Var) : Bool := (m v).getD false

namespace Literal

def holds (σ : Var → Bool) (l : Literal) : Bool := σ l.var != l.isNegative

theorem holds_neg (σ : Var → Bool) (l : Literal) : (-l).holds σ = !l.holds σ := by
  simp [holds, isNegative_neg]

end Literal

/-- The truth value of a formula of which the negation of the polarity has the given one. -/
def Polarity.onTruth : Polarity → Bool → Bool
  | positive, b => b
  | negative, b => !b

theorem Polarity.onTruth_onTruth (p : Polarity) (b : Bool) : p.onTruth (p.onTruth b) = b := by
  cases p <;> simp [onTruth]

theorem Polarity.onTruth_not (p : Polarity) (b : Bool) : p.onTruth (!b) = !p.onTruth b := by
  cases p <;> simp [onTruth]

theorem Polarity.onTruth_flip (p : Polarity) (b : Bool) : p.flip.onTruth b = !p.onTruth b := by
  cases p <;> simp [onTruth, flip]

theorem Polarity.holds_onLiteral (p : Polarity) (σ : Var → Bool) (l : Literal) :
    (p.onLiteral l).holds σ = p.onTruth (l.holds σ) := by
  cases p with
  | positive => rfl
  | negative => exact Literal.holds_neg σ l

namespace Formula

def truth (σ : Var → Bool) : Formula → Bool
  | lit l => l.holds σ
  | not a => !truth σ a
  | implies a b => !truth σ a || truth σ b
  | iff a b => truth σ a == truth σ b
  | and args => (args.map fun a => truth σ a).all id
  | or args => (args.map fun a => truth σ a).any id

theorem truth_and (σ : Var → Bool) (args : List Formula) :
    truth σ (and args) = args.all (truth σ) := by
  rw [truth, List.all_map]
  rfl

theorem truth_or (σ : Var → Bool) (args : List Formula) :
    truth σ (or args) = args.any (truth σ) := by
  rw [truth, List.any_map]
  rfl

theorem truth_conjoin (p : Polarity) (σ : Var → Bool) (args : List Formula) :
    truth σ (p.conjoin args) = p.onTruth ((args.map fun a => p.onTruth (truth σ a)).all id) := by
  cases p with
  | positive =>
    rw [Polarity.conjoin, truth]
    rfl
  | negative =>
    rw [Polarity.conjoin, truth, List.any_map, List.all_map, List.any_eq_not_all_not]
    rfl

theorem truth_disjoin (p : Polarity) (σ : Var → Bool) (args : List Formula) :
    truth σ (p.disjoin args) = p.onTruth ((args.map fun a => p.onTruth (truth σ a)).any id) := by
  cases p with
  | positive =>
    rw [Polarity.disjoin, truth]
    rfl
  | negative =>
    rw [Polarity.disjoin, truth, List.any_map, List.all_map, List.all_eq_not_any_not]
    rfl

theorem truth_nnfAt (p : Polarity) (σ : Var → Bool) (f : Formula) :
    truth σ (nnfAt p f) = p.onTruth (truth σ f) := by
  induction f generalizing p with
  | lit l => rw [nnfAt, truth, truth, Polarity.holds_onLiteral]
  | not a ih => rw [nnfAt, ih, truth, Polarity.onTruth_flip, Polarity.onTruth_not]
  | implies a b iha ihb =>
    rw [nnfAt, truth_disjoin, truth]
    simp [iha, ihb, Polarity.onTruth_flip, Polarity.onTruth_not, Polarity.onTruth_onTruth]
  | iff a b iha ihb =>
    have hboth : (truth σ a == truth σ b) =
        ((!truth σ a || truth σ b) && (!truth σ b || truth σ a)) := by
      cases truth σ a <;> cases truth σ b <;> rfl
    rw [nnfAt, truth_conjoin, truth, hboth]
    simp [truth_disjoin, iha, ihb, Polarity.onTruth_flip, Polarity.onTruth_not,
      Polarity.onTruth_onTruth]
  | and args ih =>
    have hargs : (args.map (nnfAt p)).map (fun a => p.onTruth (truth σ a)) =
        args.map (truth σ) :=
      map_map_congr fun a ha => by rw [ih a ha, Polarity.onTruth_onTruth]
    rw [nnfAt, truth_conjoin, truth, hargs]
  | or args ih =>
    have hargs : (args.map (nnfAt p)).map (fun a => p.onTruth (truth σ a)) =
        args.map (truth σ) :=
      map_map_congr fun a ha => by rw [ih a ha, Polarity.onTruth_onTruth]
    rw [nnfAt, truth_disjoin, truth, hargs]

/-- The fault of the first unassigned variable. A conclusion counts only below a true premise. -/
def missing? (m : Assignment) : Formula → Option Fault
  | lit l => if (m l.var).isSome then none else some (.unassigned l.var)
  | not a => missing? m a
  | implies a b => (missing? m a).or (if a.truth m.complete then missing? m b else none)
  | iff a b => (missing? m a).or (missing? m b)
  | and args | or args => args.attach.findSome? fun ⟨a, _⟩ => missing? m a

theorem missing?_and (m : Assignment) (args : List Formula) :
    missing? m (and args) = args.findSome? (missing? m) := by
  rw [missing?, List.findSome?_subtype (g := missing? m) fun _ _ => rfl, List.unattach_attach]

theorem missing?_or (m : Assignment) (args : List Formula) :
    missing? m (or args) = args.findSome? (missing? m) := by
  rw [missing?, List.findSome?_subtype (g := missing? m) fun _ _ => rfl, List.unattach_attach]

theorem eval_eq (m : Assignment) (f : Formula) :
    f.eval m = faultOr (f.missing? m) (f.truth m.complete) := by
  induction f with
  | lit l =>
    rw [eval, missing?, truth, Literal.holds, Assignment.complete]
    cases m l.var <;> rfl
  | not a ih =>
    rw [eval, ih, missing?, truth]
    cases missing? m a <;> rfl
  | implies a b iha ihb =>
    rw [eval, iha, ihb, missing?, truth]
    cases missing? m a with
    | some e => rfl
    | none =>
      cases truth m.complete a with
      | false => rfl
      | true => cases missing? m b <;> rfl
  | iff a b iha ihb =>
    rw [eval, iha, ihb, missing?, truth]
    cases missing? m a with
    | some e => rfl
    | none => cases missing? m b <;> rfl
  | and args ih =>
    rw [eval, mapM_eq_faultOr ih, missing?_and, truth]
    cases args.findSome? (missing? m) with
    | some e => rfl
    | none => rfl
  | or args ih =>
    rw [eval, mapM_eq_faultOr ih, missing?_or, truth]
    cases args.findSome? (missing? m) with
    | some e => rfl
    | none => rfl

theorem missing?_eq_some {m : Assignment} {f : Formula} {e : Fault} (h : f.missing? m = some e) :
    (∃ l, f = lit l ∧ m l.var = none ∧ e = .unassigned l.var) ∨
      ∃ a ∈ f.operands, a.missing? m = some e := by
  cases f with
  | lit l =>
    rw [missing?] at h
    split at h
    · contradiction
    next hm =>
      cases h
      exact .inl ⟨l, rfl, by simpa using hm, rfl⟩
  | not a =>
    rw [missing?] at h
    exact .inr ⟨a, by simp [operands], h⟩
  | implies a b =>
    rw [missing?, Option.or_eq_some_iff] at h
    rcases h with h | ⟨-, h⟩
    · exact .inr ⟨a, by simp [operands], h⟩
    · split at h
      · exact .inr ⟨b, by simp [operands], h⟩
      · contradiction
  | iff a b =>
    rw [missing?, Option.or_eq_some_iff] at h
    rcases h with h | ⟨-, h⟩
    · exact .inr ⟨a, by simp [operands], h⟩
    · exact .inr ⟨b, by simp [operands], h⟩
  | and args =>
    rw [missing?_and] at h
    exact .inr (List.exists_of_findSome?_eq_some h)
  | or args =>
    rw [missing?_or] at h
    exact .inr (List.exists_of_findSome?_eq_some h)

/-- What evaluation misses is a variable of the formula without a value. -/
theorem exists_unassigned_of_missing? {m : Assignment} {f : Formula} {e : Fault}
    (h : f.missing? m = some e) : ∃ v ∈ f.vars, m v = none ∧ e = .unassigned v := by
  induction f using induction_operands with
  | step f ih =>
    rcases missing?_eq_some h with ⟨l, rfl, hm, he⟩ | ⟨a, ha, hmiss⟩
    · exact ⟨l.var, mem_vars.2 ⟨l, mem_literals.2 (.inl rfl), rfl⟩, hm, he⟩
    · obtain ⟨v, hv, hm, he⟩ := ih a ha hmiss
      exact ⟨v, mem_vars_of_mem_operands ha hv, hm, he⟩

theorem missing?_eq_none {m : Assignment} {f : Formula} (h : ∀ v ∈ f.vars, (m v).isSome) :
    f.missing? m = none := by
  cases hmiss : f.missing? m with
  | none => rfl
  | some e =>
    obtain ⟨v, hv, hm, -⟩ := exists_unassigned_of_missing? hmiss
    have hsome := h v hv
    simp [hm] at hsome

theorem eval_eq_ok_truth {m : Assignment} {f : Formula} (h : ∀ v ∈ f.vars, (m v).isSome) :
    f.eval m = .ok (f.truth m.complete) := by
  rw [eval_eq, missing?_eq_none h]
  rfl

/-- Evaluation reads every operand, as there are no implications. -/
def IsEager (f : Formula) : Prop := f.Everywhere fun g => g.connective? ≠ some .implies

theorem IsNnf.isEager {f : Formula} (h : f.IsNnf) : f.IsEager := by
  intro g hg hcon
  rcases h g hg _ hcon with h | h <;> contradiction

theorem IsEager.missing?_operand {m : Assignment} {f a : Formula} (hf : f.IsEager)
    (h : f.missing? m = none) (ha : a ∈ f.operands) : a.missing? m = none := by
  cases f with
  | lit l => simp [operands] at ha
  | not b =>
    rw [missing?] at h
    obtain rfl : a = b := by simpa [operands] using ha
    exact h
  | implies b c => exact absurd rfl hf.self
  | iff b c =>
    rw [missing?, Option.or_eq_none_iff] at h
    obtain rfl | rfl : a = b ∨ a = c := by simpa [operands] using ha
    · exact h.1
    · exact h.2
  | and args =>
    rw [missing?_and, List.findSome?_eq_none_iff] at h
    exact h a ha
  | or args =>
    rw [missing?_or, List.findSome?_eq_none_iff] at h
    exact h a ha

theorem IsEager.isSome_of_missing? {m : Assignment} {f : Formula} (hf : f.IsEager)
    (h : f.missing? m = none) {v : Var} (hv : v ∈ f.vars) : (m v).isSome := by
  induction f using induction_operands with
  | step f ih =>
    obtain ⟨l, hl, rfl⟩ := mem_vars.1 hv
    rcases mem_literals.1 hl with rfl | ⟨a, ha, hla⟩
    · rw [missing?] at h
      exact Option.isSome_iff_ne_none.2 (by simpa using h)
    · exact ih a ha (hf.operand ha) (hf.missing?_operand h ha) (mem_vars.2 ⟨l, hla, rfl⟩)

theorem IsEager.eval_eq_ok_iff {m : Assignment} {f : Formula} (hf : f.IsEager) {b : Bool} :
    f.eval m = .ok b ↔ (∀ v ∈ f.vars, (m v).isSome) ∧ f.truth m.complete = b := by
  rw [eval_eq, faultOr_eq_ok_iff]
  constructor
  · intro hboth
    obtain ⟨hmiss, htruth⟩ := hboth
    exact ⟨fun v hv => hf.isSome_of_missing? hmiss hv, htruth⟩
  · intro hboth
    obtain ⟨hall, htruth⟩ := hboth
    exact ⟨missing?_eq_none hall, htruth⟩

theorem IsEager.exists_unassigned {m : Assignment} {f : Formula} (hf : f.IsEager)
    (h : ∃ v ∈ f.vars, m v = none) :
    ∃ v ∈ f.vars, m v = none ∧ f.eval m = .error (.unassigned v) := by
  obtain ⟨w, hw, hmw⟩ := h
  cases hmiss : f.missing? m with
  | none =>
    have hsome := hf.isSome_of_missing? hmiss hw
    simp [hmw] at hsome
  | some e =>
    obtain ⟨v, hv, hm, rfl⟩ := exists_unassigned_of_missing? hmiss
    exact ⟨v, hv, hm, by rw [eval_eq, hmiss]; rfl⟩

end Formula

end Clausal
