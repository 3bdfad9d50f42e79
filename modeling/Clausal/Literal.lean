import Clausal.Fault

/-! Literals: signed 64-bit words whose magnitude is a variable and whose sign is the polarity. -/
namespace Clausal

/-- A variable or its negation. Zero has no sign and the least word has no negation in 64 bits, so
neither is a literal. -/
structure Literal where
  code : Int64
  code_ne_zero : code ≠ 0
  code_ne_minValue : code ≠ Int64.minValue
  deriving DecidableEq, Repr

namespace Literal

def toInt (l : Literal) : Int := l.code.toInt

theorem ext_toInt {l m : Literal} (h : l.toInt = m.toInt) : l = m := by
  cases l
  cases m
  simpa [toInt, Int64.toInt_inj] using h

theorem toInt_ne_zero (l : Literal) : l.toInt ≠ 0 := by
  intro h
  exact l.code_ne_zero (Int64.toInt_inj.1 (by simpa [toInt] using h))

/-- The words that are literals. -/
def InRange (n : Int64) : Prop := n ≠ 0 ∧ n ≠ Int64.minValue

instance (n : Int64) : Decidable (InRange n) :=
  inferInstanceAs (Decidable (n ≠ 0 ∧ n ≠ Int64.minValue))

theorem inRange_code (l : Literal) : InRange l.code := ⟨l.code_ne_zero, l.code_ne_minValue⟩

/-- The greatest variable that has a literal. -/
def maxIndex : Nat := 0x7fffffffffffffff

theorem natAbs_toInt_le (l : Literal) : l.toInt.natAbs ≤ maxIndex := by
  have hlow := Int64.minValue_le_toInt l.code
  have hhigh := Int64.toInt_lt l.code
  have hne : l.code.toInt ≠ Int64.minValue.toInt := fun h =>
    l.code_ne_minValue (Int64.toInt_inj.1 h)
  rw [Int64.toInt_minValue] at hlow hne
  simp only [toInt, maxIndex]
  omega

def ofWord (n : Int64) (h : InRange n) : Literal := ⟨n, h.1, h.2⟩

/-- Reads a word that may be no literal. -/
def ofInt64? (n : Int64) : Option Literal :=
  if h : InRange n then some (ofWord n h) else none

@[simp] theorem ofInt64?_code (l : Literal) : ofInt64? l.code = some l := by
  simp [ofInt64?, inRange_code l, ofWord]

theorem ofInt64?_eq_some_iff {n : Int64} {l : Literal} : ofInt64? n = some l ↔ l.code = n := by
  constructor
  · intro h
    unfold ofInt64? at h
    split at h
    · cases h
      rfl
    · contradiction
  · rintro rfl
    exact ofInt64?_code l

theorem ofInt64?_eq_none_iff {n : Int64} : ofInt64? n = none ↔ ¬ InRange n := by
  unfold ofInt64?
  split <;> simp_all

/-- Reads a word that comes from outside and may be wrong. -/
def validate (n : Int64) : Except Fault Literal :=
  match ofInt64? n with
  | some l => .ok l
  | none => .error (.invalidLiteral n)

/-- Reads a word that the caller promises to be a literal. -/
def ofInt64 (n : Int64) : Except Fault Literal :=
  match ofInt64? n with
  | some l => .ok l
  | none => .error (.broken .literalRange)

theorem ofInt64_eq_ok_iff {n : Int64} {l : Literal} : ofInt64 n = .ok l ↔ l.code = n := by
  rw [← ofInt64?_eq_some_iff, ofInt64]
  cases ofInt64? n <;> simp

@[simp] theorem ofInt64_code (l : Literal) : ofInt64 l.code = .ok l := ofInt64_eq_ok_iff.2 rfl

theorem ofInt64_eq_error_iff {n : Int64} {e : Fault} :
    ofInt64 n = .error e ↔ ¬ InRange n ∧ e = .broken .literalRange := by
  rw [← ofInt64?_eq_none_iff, ofInt64]
  cases ofInt64? n <;> simp [eq_comm]

def ofInt32 (n : Int32) : Except Fault Literal := ofInt64 n.toInt64

/-- The literal of the other polarity. -/
def neg (l : Literal) : Literal where
  code := -l.code
  code_ne_zero := Int64.neg_ne_zero.2 l.code_ne_zero
  code_ne_minValue := by
    intro h
    apply l.code_ne_minValue
    rw [← Int64.neg_neg (a := l.code), h]
    decide

instance : Neg Literal := ⟨neg⟩

@[simp] theorem code_neg (l : Literal) : (-l).code = -l.code := rfl

/-- Negation stays within 64 bits. -/
@[simp] theorem toInt_neg (l : Literal) : (-l).toInt = -l.toInt := by
  have h := natAbs_toInt_le l
  simp only [toInt, code_neg, Int64.toInt_neg, maxIndex] at h ⊢
  rw [Int.bmod_eq_of_le] <;> omega

@[simp] theorem neg_neg (l : Literal) : - -l = l := by
  apply ext_toInt
  simp

/-- The variable, whatever the polarity. -/
def var (l : Literal) : Var := ⟨UInt64.ofNat l.toInt.natAbs⟩

@[simp] theorem var_neg (l : Literal) : (-l).var = l.var := by
  simp [var]

theorem toNat_index_var (l : Literal) : l.var.index.toNat = l.toInt.natAbs := by
  have h := natAbs_toInt_le l
  simp only [var, UInt64.toNat_ofNat', maxIndex] at h ⊢
  omega

/-- One for a variable, minus one for its negation. -/
def sign (l : Literal) : Int := l.toInt.sign

def isNegative (l : Literal) : Bool := decide (l.toInt < 0)

theorem isNegative_neg (l : Literal) : (-l).isNegative = !l.isNegative := by
  have h := toInt_ne_zero l
  simp only [isNegative, toInt_neg]
  by_cases hl : l.toInt < 0 <;> simp [hl] <;> omega

def text (l : Literal) : String := toString l.toInt

/-- Literals compare as the integers they are written as. -/
instance : Ord Literal where
  compare l m := compare l.toInt m.toInt

end Literal

/-- The positive literal of a variable that the caller promises to be in range. -/
def Var.literal (v : Var) : Except Fault Literal :=
  if 0 < v.index.toNat ∧ v.index.toNat ≤ Literal.maxIndex then
    Literal.ofInt64 (Int64.ofNat v.index.toNat)
  else .error (.broken .variableRange)

end Clausal
