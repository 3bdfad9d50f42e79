import Clausal.Merging

/-! Disjunctions over conjunctions are multiplied out into conjunctions of disjunctions. -/
namespace Clausal.Formula

def isAnd : Formula → Bool
  | and _ => true
  | _ => false

/-- Splits a list at its first conjunction: what comes before, its conjuncts, what comes after. -/
def firstAnd? (args : List Formula) : Option (List Formula × List Formula × List Formula) :=
  match args.dropWhile fun a => !a.isAnd with
  | and cs :: after => some (args.takeWhile fun a => !a.isAnd, cs, after)
  | _ => none

theorem firstAnd?_eq_some {args before cs after : List Formula}
    (h : firstAnd? args = some (before, cs, after)) : args = before ++ and cs :: after := by
  unfold firstAnd? at h
  split at h
  next rest heq =>
    cases h
    rw [← heq, List.takeWhile_append_dropWhile]
  next => contradiction

@[simp] theorem firstAnd?_nil : firstAnd? [] = none := rfl

@[simp] theorem firstAnd?_and_cons (cs after : List Formula) :
    firstAnd? (and cs :: after) = some ([], cs, after) := by
  simp [firstAnd?, isAnd]

theorem firstAnd?_cons {a : Formula} (h : a.isAnd = false) (args : List Formula) :
    firstAnd? (a :: args) =
      (firstAnd? args).map fun (before, cs, after) => (a :: before, cs, after) := by
  simp only [firstAnd?, List.dropWhile_cons, List.takeWhile_cons, h, Bool.not_false, if_true]
  split <;> rfl

theorem firstAnd?_eq_none_iff {args : List Formula} :
    firstAnd? args = none ↔ ∀ a ∈ args, a.isAnd = false := by
  induction args with
  | nil => simp
  | cons a args ih =>
    cases ha : a.isAnd with
    | false => simp [firstAnd?_cons ha, ih, ha]
    | true =>
      cases a <;> simp [isAnd] at ha
      simp [isAnd]

mutual

/-- Bounds the disjunctions that one operand of a disjunction is worth. -/
def spread : Formula → Nat
  | and args => spreadSum args + 1
  | lit _ | not _ | implies _ _ | iff _ _ | or _ => 1

def spreadSum : List Formula → Nat
  | [] => 0
  | f :: fs => spread f + spreadSum fs

end

theorem spread_pos (f : Formula) : 0 < f.spread := by
  cases f <;> simp [spread]

/-- Bounds the disjunctions that a list of operands is multiplied out to. -/
def span : List Formula → Nat
  | [] => 1
  | f :: fs => f.spread * span fs

theorem span_append (fs gs : List Formula) : span (fs ++ gs) = span fs * span gs := by
  induction fs with
  | nil => simp [span]
  | cons f fs ih => simp [span, ih, Nat.mul_assoc]

theorem span_pos (args : List Formula) : 0 < span args := by
  induction args with
  | nil => simp [span]
  | cons a args ih => exact Nat.mul_pos a.spread_pos ih

/-- The weight of a worklist of disjunctions. -/
def spanSum : List (List Formula) → Nat
  | [] => 0
  | args :: pending => span args + spanSum pending

theorem spanSum_append (pending later : List (List Formula)) :
    spanSum (pending ++ later) = spanSum pending + spanSum later := by
  induction pending with
  | nil => simp [spanSum]
  | cons args pending ih => simp [spanSum, ih, Nat.add_assoc]

theorem spanSum_split (before cs after : List Formula) :
    spanSum (cs.map fun c => before ++ c :: after) = span before * spreadSum cs * span after := by
  induction cs with
  | nil => simp [spanSum, spreadSum]
  | cons c cs ih =>
    simp only [List.map_cons, spanSum, ih, spreadSum, span_append, span]
    simp [Nat.mul_add, Nat.add_mul, Nat.mul_assoc]

/-- Replaces the first conjunction of a pending disjunction by each of its conjuncts in turn, until
no conjunction is left; the disjunctions come out from left to right. -/
def multiplyPending : List (List Formula) → List Formula → List Formula
  | [], finished => finished.reverse
  | args :: pending, finished =>
    match _ : firstAnd? args with
    | none => multiplyPending pending (or args :: finished)
    | some (before, cs, after) =>
      multiplyPending ((cs.map fun c => before ++ c :: after) ++ pending) finished
termination_by pending => spanSum pending
decreasing_by
  · have := span_pos args
    simp only [spanSum]
    omega
  · have hargs := firstAnd?_eq_some ‹_›
    have hpos := Nat.mul_pos (span_pos before) (span_pos after)
    have hsplit : span before * ((spreadSum cs + 1) * span after) =
        span before * spreadSum cs * span after + span before * span after := by
      simp [Nat.add_mul, Nat.mul_add, Nat.mul_assoc]
    simp only [spanSum_append, spanSum_split, spanSum, hargs, span_append, span, spread]
    omega

/-- Multiplies out a disjunction with a conjunction among its operands. -/
def multiplyNode : Formula → Formula
  | or args => if args.any isAnd then and (multiplyPending [args] []) else or args
  | f => f

def multiplyOut (f : Formula) : Except Fault Formula := f.transform multiplyNode

end Clausal.Formula
