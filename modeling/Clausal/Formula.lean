import Clausal.Literal

/-! Propositional formulas. Conjunctions and disjunctions take any number of operands, in order;
`ofConnective` is the constructor that insists on two. -/
namespace Clausal

inductive Formula where
  | lit (l : Literal)
  | not (a : Formula)
  | implies (a b : Formula)
  | iff (a b : Formula)
  | and (args : List Formula)
  | or (args : List Formula)
  deriving Repr

namespace Formula

instance : AndOp Formula := ⟨fun a b => and [a, b]⟩

instance : OrOp Formula := ⟨fun a b => or [a, b]⟩

instance : Complement Formula := ⟨not⟩

/-- Induction with a hypothesis for every operand of a conjunction or disjunction. -/
@[elab_as_elim, induction_eliminator]
theorem induction {motive : Formula → Prop} (lit : ∀ l, motive (lit l))
    (not : ∀ a, motive a → motive (not a))
    (implies : ∀ a b, motive a → motive b → motive (implies a b))
    (iff : ∀ a b, motive a → motive b → motive (iff a b))
    (and : ∀ args, (∀ a ∈ args, motive a) → motive (and args))
    (or : ∀ args, (∀ a ∈ args, motive a) → motive (or args)) (f : Formula) : motive f :=
  match f with
  | .lit l => lit l
  | .not a => not a (induction lit not implies iff and or a)
  | .implies a b =>
    implies a b (induction lit not implies iff and or a) (induction lit not implies iff and or b)
  | .iff a b =>
    iff a b (induction lit not implies iff and or a) (induction lit not implies iff and or b)
  | .and args => and args fun a _ => induction lit not implies iff and or a
  | .or args => or args fun a _ => induction lit not implies iff and or a

/-! ### Equality -/

mutual

def same : Formula → Formula → Bool
  | lit l, lit m => decide (l = m)
  | not a, not b => same a b
  | implies a b, implies c d => same a c && same b d
  | iff a b, iff c d => same a c && same b d
  | and as, and bs => sameAll as bs
  | or as, or bs => sameAll as bs
  | _, _ => false

def sameAll : List Formula → List Formula → Bool
  | [], [] => true
  | a :: as, b :: bs => same a b && sameAll as bs
  | _, _ => false

end

theorem sameAll_iff {as bs : List Formula} (h : ∀ a ∈ as, ∀ b, same a b = true ↔ a = b) :
    sameAll as bs = true ↔ as = bs := by
  induction as generalizing bs with
  | nil => cases bs <;> simp [sameAll]
  | cons a as ih =>
    cases bs with
    | nil => simp [sameAll]
    | cons b bs =>
      have hb := h a (by simp) b
      have hbs : sameAll as bs = true ↔ as = bs := ih fun a ha => h a (by simp [ha])
      simp [sameAll, hb, hbs]

theorem same_iff (f g : Formula) : same f g = true ↔ f = g := by
  induction f generalizing g with
  | lit l => cases g <;> simp [same]
  | not a ih => cases g <;> simp [same, ih]
  | implies a b iha ihb => cases g <;> simp [same, iha, ihb]
  | iff a b iha ihb => cases g <;> simp [same, iha, ihb]
  | and args ih => cases g <;> simp [same, sameAll_iff ih]
  | or args ih => cases g <;> simp [same, sameAll_iff ih]

instance : DecidableEq Formula := fun f g => decidable_of_iff _ (same_iff f g)

/-! ### Head and operands -/

def literal? : Formula → Option Literal
  | lit l => some l
  | _ => none

/-- The connective at the root, none for a literal. -/
def connective? : Formula → Option Connective
  | lit _ => none
  | not _ => some .not
  | implies _ _ => some .implies
  | iff _ _ => some .iff
  | and _ => some .and
  | or _ => some .or

theorem connective?_eq_none_iff {f : Formula} : f.connective? = none ↔ ∃ l, f = lit l := by
  cases f <;> simp [connective?]

/-- The immediate subformulas from left to right. -/
def operands : Formula → List Formula
  | lit _ => []
  | not a => [a]
  | implies a b | iff a b => [a, b]
  | and args | or args => args

/-- The node of a connective over a list that fits its shape; a conjunction or disjunction takes any
list. -/
def ofOperands? : Connective → List Formula → Option Formula
  | .and, args => some (and args)
  | .or, args => some (or args)
  | .not, [a] => some (not a)
  | .implies, [a, b] => some (implies a b)
  | .iff, [a, b] => some (iff a b)
  | _, _ => none

/-- The node of a connective over as many operands as its arity allows. -/
def ofConnective (c : Connective) (args : List Formula) : Except Fault Formula :=
  if c.arity.Allows args.length then
    match ofOperands? c args with
    | some f => .ok f
    | none => .error (.arity c args.length)
  else .error (.arity c args.length)

theorem ofOperands?_operands {f : Formula} {c : Connective} (h : f.connective? = some c) :
    ofOperands? c f.operands = some f := by
  cases f <;> simp_all [connective?] <;> subst h <;> rfl

theorem ofOperands?_isSome {c : Connective} {args : List Formula}
    (h : c.arity.Allows args.length) : (ofOperands? c args).isSome := by
  cases c
  case and | or => rfl
  case not =>
    obtain ⟨a, rfl⟩ := List.length_eq_one_iff.1 h
    rfl
  case implies | iff =>
    match args, h with
    | [_, _], _ => rfl

theorem ofOperands?_isSome_of_length {f : Formula} {c : Connective} {args : List Formula}
    (hc : f.connective? = some c) (hlen : args.length = f.operands.length) :
    (ofOperands? c args).isSome := by
  cases f with
  | lit l => contradiction
  | and as | or as =>
    cases hc
    rfl
  | not a | implies a b | iff a b =>
    cases hc
    exact ofOperands?_isSome hlen

theorem ofConnective_eq_ok_iff {f : Formula} {c : Connective} {args : List Formula} :
    ofConnective c args = .ok f ↔ c.arity.Allows args.length ∧ ofOperands? c args = some f := by
  unfold ofConnective
  split
  · split <;> simp_all
  · simp_all

/-- The only fault of the checked constructor is the number of operands. -/
theorem ofConnective_eq_error_iff {e : Fault} {c : Connective} {args : List Formula} :
    ofConnective c args = .error e ↔
      ¬ c.arity.Allows args.length ∧ e = .arity c args.length := by
  unfold ofConnective
  split
  next h =>
    have hs := ofOperands?_isSome h
    split <;> simp_all
  next h => simp_all [eq_comm]

theorem sizeOf_lt_of_mem_operands {f a : Formula} (h : a ∈ f.operands) : sizeOf a < sizeOf f := by
  cases f with
  | lit l => simp [operands] at h
  | not b =>
    have ha : a = b := by simpa [operands] using h
    subst ha
    simp only [not.sizeOf_spec]
    omega
  | implies b c =>
    have ha : a = b ∨ a = c := by simpa [operands] using h
    simp only [implies.sizeOf_spec]
    rcases ha with rfl | rfl <;> omega
  | iff b c =>
    have ha : a = b ∨ a = c := by simpa [operands] using h
    simp only [iff.sizeOf_spec]
    rcases ha with rfl | rfl <;> omega
  | and args =>
    have ha := List.sizeOf_lt_of_mem (show a ∈ args from h)
    simp only [and.sizeOf_spec]
    omega
  | or args =>
    have ha := List.sizeOf_lt_of_mem (show a ∈ args from h)
    simp only [or.sizeOf_spec]
    omega

/-- Induction on operands, whatever the connective. -/
theorem induction_operands {motive : Formula → Prop}
    (step : ∀ f, (∀ a ∈ f.operands, motive a) → motive f) (f : Formula) : motive f :=
  step f fun a _ => induction_operands step a
termination_by sizeOf f
decreasing_by exact sizeOf_lt_of_mem_operands ‹_›

mutual

/-- The number of nodes. -/
def size : Formula → Nat
  | lit _ => 1
  | not a => size a + 1
  | implies a b | iff a b => size a + size b + 1
  | and args | or args => weight args + 1

/-- The number of nodes of several formulas together. -/
def weight : List Formula → Nat
  | [] => 0
  | f :: fs => size f + weight fs

end

@[simp] theorem weight_nil : weight [] = 0 := rfl

@[simp] theorem weight_cons (f : Formula) (fs : List Formula) :
    weight (f :: fs) = f.size + weight fs := rfl

@[simp] theorem weight_append (fs gs : List Formula) :
    weight (fs ++ gs) = weight fs + weight gs := by
  induction fs with
  | nil => simp
  | cons f fs ih =>
    simp only [List.cons_append, weight_cons, ih]
    omega

theorem size_eq (f : Formula) : f.size = weight f.operands + 1 := by
  cases f <;> simp [size, operands]

theorem size_pos (f : Formula) : 0 < f.size := by
  rw [size_eq]
  omega

end Formula

end Clausal
