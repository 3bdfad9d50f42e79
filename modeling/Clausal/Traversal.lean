import Clausal.Subformula

/-! Bottom-up traversals of a formula, driven by a stack of jobs and a stack of finished results, so
that depth costs no call stack. A traversal hands a context of type `κ` down to the operands and
threads a state of type `σ` through the nodes in the order in which they are finished. -/
namespace Clausal

/-- What a traversal does with a subformula on entering it. -/
inductive Entry (κ : Type) where
  /-- Finish this formula in its place, without looking at the operands. -/
  | result (g : Formula)
  /-- Drop the node and enter its operands instead. -/
  | skip (context : κ)
  /-- Enter the operands, then join what they became by the connective. -/
  | descend (c : Connective) (context : κ)
  | refuse (e : Fault)

structure Traversal (κ σ : Type) where
  enter : κ → Formula → Entry κ
  join : Connective → List Formula → Except Fault Formula
  finish : Formula → StateM σ Formula

namespace Traversal

variable {κ σ : Type}

inductive Job (κ : Type) where
  | enter (context : κ) (f : Formula)
  /-- Join the given number of finished results. -/
  | join (c : Connective) (count : Nat)

def Job.weight : Job κ → Nat
  | enter _ f => 2 * f.size
  | join _ _ => 1

/-- Bounds the steps that the jobs take. -/
def weight : List (Job κ) → Nat
  | [] => 0
  | t :: jobs => t.weight + weight jobs

@[simp] theorem weight_nil : weight ([] : List (Job κ)) = 0 := rfl

@[simp] theorem weight_cons (t : Job κ) (jobs : List (Job κ)) :
    weight (t :: jobs) = t.weight + weight jobs := rfl

@[simp] theorem weight_append (ts us : List (Job κ)) :
    weight (ts ++ us) = weight ts + weight us := by
  induction ts with
  | nil => simp
  | cons t ts ih =>
    simp only [List.cons_append, weight_cons, ih]
    omega

@[simp] theorem weight_map_enter (k : κ) (fs : List Formula) :
    weight (fs.map (Job.enter k)) = 2 * Formula.weight fs := by
  induction fs with
  | nil => rfl
  | cons f fs ih =>
    simp only [List.map_cons, weight_cons, Formula.weight_cons, Job.weight, ih]
    omega

/-- Takes the operands of a connective off the finished results, whose latest stands first, and puts
them in the order in which they were finished. -/
def takeOperands : Nat → List Formula → List Formula → Option (List Formula × List Formula)
  | 0, done, args => some (args, done)
  | _ + 1, [], _ => none
  | n + 1, f :: done, args => takeOperands n done (f :: args)

theorem takeOperands_reverse_append (fs done args : List Formula) :
    takeOperands fs.length (fs.reverse ++ done) args = some (fs ++ args, done) := by
  obtain ⟨gs, rfl⟩ : ∃ gs, fs = gs.reverse := ⟨fs.reverse, by simp⟩
  induction gs generalizing args with
  | nil => simp [takeOperands]
  | cons g gs ih => simpa [takeOperands] using ih (g :: args)

/-- Works off the jobs. Every connective finds its operands on the results, and one result is left
at the end; anything else breaks a promise of this module. -/
def loop (t : Traversal κ σ) : List (Job κ) → List Formula → σ → Except Fault Formula × σ
  | [], [result], s => (.ok result, s)
  | [], _, s => (.error (.broken .operandStack), s)
  | .enter k f :: jobs, done, s =>
    match t.enter k f with
    | .result g =>
      let (result, s) := (t.finish g).run s
      loop t jobs (result :: done) s
    | .skip k => loop t (f.operands.map (.enter k) ++ jobs) done s
    | .descend c k =>
      loop t (f.operands.map (.enter k) ++ .join c f.operands.length :: jobs) done s
    | .refuse e => (.error e, s)
  | .join c n :: jobs, done, s =>
    match takeOperands n done [] with
    | none => (.error (.broken .operandStack), s)
    | some (args, done) =>
      match t.join c args with
      | .error e => (.error e, s)
      | .ok g =>
        let (result, s) := (t.finish g).run s
        loop t jobs (result :: done) s
termination_by jobs => weight jobs
decreasing_by
  · have := Formula.size_pos f
    simp only [weight_cons, Job.weight]
    omega
  · have := Formula.size_eq f
    simp only [weight_append, weight_map_enter, weight_cons, Job.weight]
    omega
  · have := Formula.size_eq f
    simp only [weight_append, weight_map_enter, weight_cons, Job.weight]
    omega
  · simp only [weight_cons, Job.weight]
    omega

/-- Traverses a formula that is reached in the given context. -/
def run (t : Traversal κ σ) (k : κ) (f : Formula) : ExceptT Fault (StateM σ) Formula :=
  ExceptT.mk fun s => loop t [.enter k f] [] s

/-- Takes every node apart. -/
def split (f : Formula) : Entry Unit :=
  match f.connective? with
  | none => .result f
  | some c => .descend c ()

theorem split_ne_skip (f : Formula) (k : Unit) : split f ≠ .skip k := by
  unfold split
  split <;> nofun

theorem split_ne_refuse (f : Formula) (e : Fault) : split f ≠ .refuse e := by
  unfold split
  split <;> nofun

theorem connective?_of_split {f : Formula} {c : Connective} {k : Unit}
    (h : split f = .descend c k) : f.connective? = some c := by
  unfold split at h
  split at h
  next => contradiction
  next hc =>
    cases h
    exact hc

/-- Puts every node together again as it was, whatever its number of operands. -/
def copying : Traversal Unit Unit where
  enter _ f := split f
  join c args :=
    match Formula.ofOperands? c args with
    | some g => .ok g
    | none => .error (.broken .operandStack)
  finish := pure

/-- Puts every node together, checks its arity, and replaces it by what `step` makes of it. -/
def transforming (step : Formula → StateM σ Formula) : Traversal Unit σ where
  enter _ f := split f
  join := Formula.ofConnective
  finish := step

end Traversal

namespace Formula

def copy (f : Formula) : Except Fault Formula := ((Traversal.copying.run () f).run ()).1

/-- Replaces every node, after its operands, by what `step` makes of it. -/
def transformM {σ : Type} (step : Formula → StateM σ Formula) (f : Formula) :
    ExceptT Fault (StateM σ) Formula :=
  (Traversal.transforming step).run () f

def transform (step : Formula → Formula) (f : Formula) : Except Fault Formula :=
  ((f.transformM fun g => (pure (step g) : StateM Unit Formula)).run ()).1

end Formula

end Clausal
