import Clausal.Proofs.Actions
import Clausal.Proofs.BottomUp
import Clausal.Proofs.StackHeight

/-! Rewriting with a step that has a state, by plain recursion. It is what the loop over jobs and
finished results does, whatever the step; and whatever else a step keeps in its state does not
change the rewriting. -/
namespace Clausal

variable {σ τ : Type}

namespace Formula

mutual

/-- Rewrites by plain recursion: the operands from left to right, then the node over what they have
become. A conjunction or disjunction insists on two operands. -/
def rewriteM (step : Formula → StateM σ Formula) : Formula → ExceptT Fault (StateM σ) Formula
  | lit l => step (lit l)
  | not a => do
    let a ← rewriteM step a
    step (not a)
  | implies a b => do
    let a ← rewriteM step a
    let b ← rewriteM step b
    step (implies a b)
  | iff a b => do
    let a ← rewriteM step a
    let b ← rewriteM step b
    step (iff a b)
  | and args => do
    let args ← rewriteAllM step args
    if args.length < 2 then throw (.arity .and args.length)
    step (and args)
  | or args => do
    let args ← rewriteAllM step args
    if args.length < 2 then throw (.arity .or args.length)
    step (or args)

def rewriteAllM (step : Formula → StateM σ Formula) :
    List Formula → ExceptT Fault (StateM σ) (List Formula)
  | [] => pure []
  | f :: fs => do
    let g ← rewriteM step f
    let gs ← rewriteAllM step fs
    return g :: gs

end

theorem rewriteAllM_eq (step : Formula → StateM σ Formula) (fs : List Formula) :
    rewriteAllM step fs = fs.mapM (rewriteM step) := by
  induction fs with
  | nil => rfl
  | cons f fs ih => rw [rewriteAllM, ih, List.mapM_cons]

end Formula

namespace Traversal

open Formula

theorem close_junction {c : Connective} {node : List Formula → Formula} (ha : c.arity = .atLeast 2)
    (hc : ∀ args, ofOperands? c args = some (node args)) (step : Formula → StateM σ Formula)
    (args : List Formula) :
    ((transforming step).close c args : ExceptT Fault (StateM σ) Formula) = (do
      if args.length < 2 then throw (.arity c args.length)
      step (node args)) := by
  unfold close
  by_cases h : args.length < 2
  · have hjoin : ofConnective c args = .error (.arity c args.length) := by
      rw [ofConnective_eq_error_iff, ha]
      exact ⟨Nat.not_le.2 h, rfl⟩
    simp only [transforming, hjoin, if_pos h]
    rfl
  · have hjoin : ofConnective c args = .ok (node args) := by
      rw [ofConnective_eq_ok_iff, ha]
      exact ⟨Nat.not_lt.1 h, hc args⟩
    simp only [transforming, hjoin, if_neg h]
    rfl

theorem run_close_error {step : Formula → StateM σ Formula} {c : Connective} {args : List Formula}
    {e : Fault} {s : σ} (h : ofConnective c args = .error e) :
    ((transforming step).close c args).run s = (.error e, s) := by
  apply run_bind_error
  show ((transforming step).join c args, s) = _
  rw [← h]
  rfl

theorem run_close_ok {step : Formula → StateM σ Formula} {c : Connective} {args : List Formula}
    {g r : Formula} {s s' : σ} (h : ofConnective c args = .ok g)
    (hstep : (step g).run s = (r, s')) :
    ((transforming step).close c args).run s = (.ok r, s') := by
  have hjoin : (liftM ((transforming step).join c args) :
      ExceptT Fault (StateM σ) Formula).run s = (.ok g, s) := by
    show ((transforming step).join c args, s) = _
    rw [← h]
    rfl
  unfold close
  rw [run_bind_ok hjoin]
  exact run_liftM hstep

/-- The two steps do the same to the part of the state that `π` shows, and so do the loops. -/
theorem loop_transforming_map {step : Formula → StateM σ Formula}
    {step' : Formula → StateM τ Formula} {π : τ → σ}
    (h : ∀ g t, (step g).run (π t) = Prod.map id π ((step' g).run t)) (jobs : List (Job Unit))
    (done : List Formula) (t : τ) :
    (transforming step).loop jobs done (π t) =
      Prod.map id π ((transforming step').loop jobs done t) := by
  have hfinish : ∀ {g result t t'}, ((transforming step').finish g).run t = (result, t') →
      ((transforming step).finish g).run (π t) = (result, π t') :=
    fun hstep => (h _ _).trans (congrArg (Prod.map id π) hstep)
  -- Both loops see the same jobs and results, so that they take the same turns.
  fun_induction loop (transforming step') jobs done t with
  | case1 result t =>
    rw [loop]
    rfl
  | case2 done t hdone =>
    rw [loop]
    · rfl
    · exact hdone
  | case3 k f jobs done t g henter result t' hstep ih =>
    have henter' : (transforming step).enter k f = .result g := henter
    rw [loop, henter']
    simp only [hfinish hstep]
    exact ih
  | case4 k f jobs done t k' henter ih => exact absurd henter (split_ne_skip f k')
  | case5 k f jobs done t c k' henter ih =>
    have henter' : (transforming step).enter k f = .descend c k' := henter
    rw [loop, henter']
    exact ih
  | case6 k f jobs done t e henter => exact absurd henter (split_ne_refuse f e)
  | case7 c n jobs done t hnone =>
    rw [loop, hnone]
    rfl
  | case8 c n jobs done t args rest htake e hfails =>
    have hfails' : (transforming step).join c args = .error e := hfails
    rw [loop, htake]
    simp only [hfails']
    rfl
  | case9 c n jobs done t args rest htake g hjoin result t' hstep ih =>
    have hjoin' : (transforming step).join c args = .ok g := hjoin
    rw [loop, htake]
    simp only [hjoin', hfinish hstep]
    exact ih

end Traversal

namespace Formula

theorem rewriteM_eq (step : Formula → StateM σ Formula) {f : Formula} {c : Connective}
    (hc : f.connective? = some c) :
    f.rewriteM step =
      f.operands.mapM (rewriteM step) >>= (Traversal.transforming step).close c := by
  cases f with
  | lit l => contradiction
  | not a | implies a b | iff a b =>
    cases hc
    simp only [rewriteM, operands, List.mapM_cons, List.mapM_nil, bind_assoc, pure_bind]
    rfl
  | and args | or args =>
    cases hc
    rw [rewriteM, rewriteAllM_eq]
    congr 1
    funext args
    exact (Traversal.close_junction rfl (fun _ => rfl) step args).symm

theorem walk_transforming (step : Formula → StateM σ Formula) (f : Formula) :
    (Traversal.transforming step).walk () f = f.rewriteM step := by
  induction f using induction_operands with
  | step f ih =>
    cases hc : f.connective? with
    | none =>
      obtain ⟨l, rfl⟩ := connective?_eq_none_iff.1 hc
      exact Traversal.walk_result rfl
    | some c =>
      have henter : (Traversal.transforming step).enter () f = .descend c () := by
        simp only [Traversal.transforming, Traversal.split, hc]
      rw [Traversal.walk_descend henter, rewriteM_eq step hc, mapM_congr_left ih]

theorem transformM_eq_rewriteM (step : Formula → StateM σ Formula) (f : Formula) :
    f.transformM step = f.rewriteM step := by
  rw [transformM, Traversal.run_eq_walk (dropsUnary_transforming step), walk_transforming]

/-- A rewriting changes the part of the state that `π` shows as a step does that has this part
alone. -/
theorem run_transformM_map {step : Formula → StateM σ Formula} {step' : Formula → StateM τ Formula}
    {π : τ → σ} (h : ∀ g t, (step g).run (π t) = Prod.map id π ((step' g).run t)) (f : Formula)
    (t : τ) : (f.transformM step).run (π t) = Prod.map id π ((f.transformM step').run t) :=
  Traversal.loop_transforming_map h [.enter () f] [] t

end Formula

end Clausal
