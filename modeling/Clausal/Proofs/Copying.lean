import Clausal.Proofs.KeptPromises

/-! Copies. Taking a formula apart with two stacks and putting it together again gives the formula,
short nodes included, and touches nothing that is on the stacks already. -/
namespace Clausal

namespace Traversal

/-- A node that is taken apart and joined again is the same node. -/
theorem close_copying {f : Formula} {c : Connective} (hc : f.connective? = some c) :
    copying.close c f.operands = pure f := by
  simp only [close, copying, Formula.ofOperands?_operands hc]
  rfl

theorem walk_copying (f : Formula) : copying.walk () f = pure f := by
  induction f using Formula.induction_operands with
  | step f ih =>
    cases hc : f.connective? with
    | none =>
      have henter : copying.enter () f = .result f := by simp only [copying, split, hc]
      rw [walk_result henter]
      rfl
    | some c =>
      have henter : copying.enter () f = .descend c () := by simp only [copying, split, hc]
      have hoperands : f.operands.mapM (copying.walk ()) = pure (f.operands.map id) :=
        mapM_eq_pure ih
      rw [walk_descend henter, hoperands, pure_bind, List.map_id, close_copying hc]

/-- Copies of several formulas come to lie on the results in their order, the last one on top,
before any other job is done. -/
theorem work_copying (fs : List Formula) (jobs : List (Job Unit)) (done : List Formula) :
    copying.work (fs.map (.enter ()) ++ jobs) done = copying.work jobs (fs.reverse ++ done) := by
  have hwalk : fs.mapM (copying.walk ()) = pure (fs.map id) :=
    mapM_eq_pure fun f _ => walk_copying f
  rw [work_map_enter fun f _ => work_enter_eq_walk dropsUnary_copying () f, hwalk, pure_bind,
    List.map_id]

end Traversal

namespace Formula

open Traversal

theorem copy_eq_ok (f : Formula) : f.copy = .ok f := by
  have hrun : copying.run () f = pure f := by
    rw [run_eq_walk dropsUnary_copying, walk_copying]
  rw [copy, hrun]
  rfl

/-- The copy of a formula of any depth and width is the formula itself. From any stacks, the loop
leaves the formulas that it was to copy on the results, and its other jobs and results alone. Hence
an equivalence expands into the same implications if its sides are copied for the first of them. -/
theorem copy_eq_self :
    (∀ f : Formula, f.copy = .ok f) ∧
    (∀ (fs : List Formula) (jobs : List (Job Unit)) (done : List Formula),
      copying.loop (fs.map (.enter ()) ++ jobs) done () =
        copying.loop jobs (fs.reverse ++ done) ()) ∧
    ∀ a b : Formula,
      (do
        let a' ← a.copy
        let b' ← b.copy
        return and [implies a' b', implies b a]) = .ok (iff a b).expandIff := by
  refine ⟨copy_eq_ok, fun fs jobs done => congrFun (work_copying fs jobs done) (), fun a b => ?_⟩
  rw [copy_eq_ok, copy_eq_ok]
  rfl

example : (and [or [], not (and [Sample.literal (-3) (by decide)])]).copy =
    .ok (and [or [], not (and [Sample.literal (-3) (by decide)])]) := by cbv

end Formula

end Clausal
