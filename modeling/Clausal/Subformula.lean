import Clausal.Formula

/-! Subformulas in preorder, visited from an explicit stack, so that depth costs no call stack. -/
namespace Clausal.Formula

variable {σ : Type}

/-- One step of the visit: takes the formula on top off the stack and pushes its operands from right
to left, so that the leftmost comes next. -/
def next? : List Formula → Option (Formula × List Formula)
  | [] => none
  | f :: rest =>
    let pending :=
      match f with
      | lit _ => rest
      | not a => a :: rest
      | implies a b | iff a b => a :: b :: rest
      | and args | or args => args.reverse.foldl (fun stack a => a :: stack) rest
    some (f, pending)

@[simp] theorem next?_nil : next? [] = none := rfl

@[simp] theorem next?_cons (f : Formula) (rest : List Formula) :
    next? (f :: rest) = some (f, f.operands ++ rest) := by
  cases f <;> simp [next?, operands]

theorem next?_eq_none_iff {pending : List Formula} : next? pending = none ↔ pending = [] := by
  cases pending <;> simp

theorem next?_eq_some_iff {f : Formula} {pending rest : List Formula} :
    next? pending = some (f, rest) ↔
      ∃ below, pending = f :: below ∧ rest = f.operands ++ below := by
  cases pending with
  | nil => simp
  | cons g gs =>
    rw [next?_cons, Option.some.injEq, Prod.mk.injEq]
    grind

theorem weight_of_next? {f : Formula} {pending rest : List Formula}
    (h : next? pending = some (f, rest)) : weight rest < weight pending := by
  obtain ⟨below, rfl, rfl⟩ := next?_eq_some_iff.1 h
  have hsize := size_eq f
  simp only [weight_append, weight_cons]
  omega

/-- Folds over the formulas that the visit of a stack goes through. -/
def foldPending (step : σ → Formula → σ) (s : σ) (pending : List Formula) : σ :=
  match _h : next? pending with
  | none => s
  | some (f, rest) => foldPending step (step s f) rest
termination_by weight pending
decreasing_by exact weight_of_next? _h

def foldNodes (step : σ → Formula → σ) (s : σ) (f : Formula) : σ := foldPending step s [f]

/-- Every subformula, a formula before its operands and these from left to right. -/
def nodes (f : Formula) : List Formula := (f.foldNodes (fun seen g => g :: seen) []).reverse

def nodeCount (f : Formula) : Nat := f.foldNodes (fun n _ => n + 1) 0

/-- The literals from left to right, with repetitions. -/
def literals (f : Formula) : List Literal :=
  (f.foldNodes (fun seen g => g.literal?.toList ++ seen) []).reverse

/-- The distinct variables in ascending order. -/
def vars (f : Formula) : List Var := Var.ascending (f.literals.map Literal.var)

/-- The nodes by plain recursion. -/
def preorder (f : Formula) : List Formula := f :: f.operands.attach.flatMap fun ⟨a, _⟩ => preorder a
termination_by sizeOf f
decreasing_by exact sizeOf_lt_of_mem_operands ‹_›

theorem preorder_eq (f : Formula) : f.preorder = f :: f.operands.flatMap preorder := by
  rw [preorder]
  simp [List.flatMap]

theorem foldPending_eq_foldl (step : σ → Formula → σ) (s : σ) (pending : List Formula) :
    foldPending step s pending = (pending.flatMap preorder).foldl step s := by
  fun_induction foldPending step s pending with
  | case1 s pending h =>
    rw [next?_eq_none_iff.1 h]
    rfl
  | case2 s pending f rest h ih =>
    obtain ⟨below, rfl, rfl⟩ := next?_eq_some_iff.1 h
    simp [ih, preorder_eq f]

theorem foldNodes_eq_foldl (step : σ → Formula → σ) (s : σ) (f : Formula) :
    f.foldNodes step s = f.preorder.foldl step s := by
  simp [foldNodes, foldPending_eq_foldl]

end Clausal.Formula
