import Clausal.Traversal

/-! Traversals by plain recursion. The loop over jobs and finished results does what the recursion
does: every job leaves one result in its place, and the first fault ends the loop. -/
namespace Clausal.Traversal

variable {κ σ : Type}

/-- A node is dropped only if it has one operand, whose result then stands in its place. -/
def DropsUnary (t : Traversal κ σ) : Prop :=
  ∀ k f k', t.enter k f = .skip k' → f.operands.length = 1

/-- Joins the finished operands of a node and finishes the node. -/
def close (t : Traversal κ σ) (c : Connective) (args : List Formula) :
    ExceptT Fault (StateM σ) Formula := do
  let g ← t.join c args
  t.finish g

def walk (t : Traversal κ σ) (k : κ) (f : Formula) : ExceptT Fault (StateM σ) Formula :=
  match t.enter k f with
  | .result g => t.finish g
  | .skip k' =>
    match _h : f.operands with
    | [a] => walk t k' a
    | _ => throw (.broken .operandStack)
  | .descend c k' => do
    let args ← f.operands.attach.mapM fun ⟨a, _⟩ => walk t k' a
    t.close c args
  | .refuse e => throw e
termination_by sizeOf f
decreasing_by
  · exact Formula.sizeOf_lt_of_mem_operands (by simp [_h])
  · exact Formula.sizeOf_lt_of_mem_operands ‹_›

theorem walk_result {t : Traversal κ σ} {k : κ} {f g : Formula} (h : t.enter k f = .result g) :
    t.walk k f = t.finish g := by
  rw [walk, h]

theorem walk_skip {t : Traversal κ σ} {k k' : κ} {f a : Formula} (h : t.enter k f = .skip k')
    (ha : f.operands = [a]) : t.walk k f = t.walk k' a := by
  rw [walk, h]
  simp only
  split
  next b hb => simp_all
  next hn => exact absurd ha (hn a)

theorem walk_descend {t : Traversal κ σ} {k k' : κ} {f : Formula} {c : Connective}
    (h : t.enter k f = .descend c k') :
    t.walk k f = f.operands.mapM (t.walk k') >>= t.close c := by
  rw [walk, h]
  simp only
  rw [List.mapM_subtype (g := t.walk k') (by intros; rfl)]
  simp

theorem walk_refuse {t : Traversal κ σ} {k : κ} {f : Formula} {e : Fault}
    (h : t.enter k f = .refuse e) : t.walk k f = throw e := by
  rw [walk, h]

/-- The loop as an action that changes the state and may fail. -/
def work (t : Traversal κ σ) (jobs : List (Job κ)) (done : List Formula) :
    ExceptT Fault (StateM σ) Formula :=
  ExceptT.mk fun s => t.loop jobs done s

theorem work_enter (t : Traversal κ σ) (k : κ) (f : Formula) (jobs : List (Job κ))
    (done : List Formula) :
    t.work (.enter k f :: jobs) done =
      match t.enter k f with
      | .result g =>
        (t.finish g : ExceptT Fault (StateM σ) Formula) >>= fun r => t.work jobs (r :: done)
      | .skip k' => t.work (f.operands.map (.enter k') ++ jobs) done
      | .descend c k' =>
        t.work (f.operands.map (.enter k') ++ .join c f.operands.length :: jobs) done
      | .refuse e => throw e := by
  unfold work
  funext s
  simp only [ExceptT.mk, loop]
  cases t.enter k f <;> rfl

theorem work_join (t : Traversal κ σ) (c : Connective) (args : List Formula) (jobs : List (Job κ))
    (done : List Formula) :
    t.work (.join c args.length :: jobs) (args.reverse ++ done) =
      t.close c args >>= fun r => t.work jobs (r :: done) := by
  unfold work close
  funext s
  simp only [ExceptT.mk, loop, takeOperands_reverse_append, List.append_nil]
  cases t.join c args <;> rfl

theorem work_map_enter {t : Traversal κ σ} {k : κ} {fs : List Formula}
    (h : ∀ f ∈ fs, ∀ jobs done,
      t.work (.enter k f :: jobs) done = t.walk k f >>= fun r => t.work jobs (r :: done))
    (jobs : List (Job κ)) (done : List Formula) :
    t.work (fs.map (.enter k) ++ jobs) done =
      fs.mapM (t.walk k) >>= fun rs => t.work jobs (rs.reverse ++ done) := by
  induction fs generalizing done with
  | nil => simp
  | cons f fs ih =>
    have hfs := ih fun g hg => h g (by simp [hg])
    simp [h f (by simp), hfs]

theorem mapM_bind_congr {m : Type → Type} [Monad m] [LawfulMonad m] {α β γ : Type} {xs : List α}
    {f : α → m β} {g g' : List β → m γ} (h : ∀ ys, ys.length = xs.length → g ys = g' ys) :
    xs.mapM f >>= g = xs.mapM f >>= g' := by
  induction xs generalizing g g' with
  | nil => simpa using h [] rfl
  | cons x xs ih =>
    simp only [List.mapM_cons, bind_assoc, pure_bind]
    congr 1
    funext y
    exact ih fun ys hys => h (y :: ys) (by simp [hys])

theorem work_enter_eq_walk {t : Traversal κ σ} (ht : t.DropsUnary) (k : κ) (f : Formula)
    (jobs : List (Job κ)) (done : List Formula) :
    t.work (.enter k f :: jobs) done = t.walk k f >>= fun r => t.work jobs (r :: done) := by
  induction f using Formula.induction_operands generalizing k jobs done with
  | step f ih =>
    rw [work_enter]
    cases he : t.enter k f with
    | result g => rw [walk_result he]
    | skip k' =>
      obtain ⟨a, ha⟩ := List.length_eq_one_iff.1 (ht k f k' he)
      rw [walk_skip he ha, ← ih a (by simp [ha])]
      simp [ha]
    | descend c k' =>
      rw [walk_descend he]
      simp only [bind_assoc]
      rw [work_map_enter fun a ha => ih a ha k']
      apply mapM_bind_congr
      intro rs hrs
      rw [← hrs, work_join]
    | refuse e =>
      rw [walk_refuse he]
      simp

/-- The loop over one job is the recursion. -/
theorem run_eq_walk {t : Traversal κ σ} (ht : t.DropsUnary) (k : κ) (f : Formula) :
    t.run k f = t.walk k f := by
  have h := work_enter_eq_walk ht k f [] []
  calc t.run k f = t.work [.enter k f] [] := rfl
    _ = t.walk k f >>= fun r => t.work [] [r] := h
    _ = t.walk k f >>= pure := by
      congr 1
      funext r s
      rw [work, ExceptT.mk, loop]
      rfl
    _ = t.walk k f := bind_pure _

/-- What an action gives that has no state to change. -/
def outcome {α : Type} (x : ExceptT Fault (StateM Unit) α) : Except Fault α := (x.run ()).1

@[simp] theorem outcome_pure {α : Type} (a : α) :
    outcome (pure a : ExceptT Fault (StateM Unit) α) = .ok a := rfl

@[simp] theorem outcome_throw {α : Type} (e : Fault) :
    outcome (throw e : ExceptT Fault (StateM Unit) α) = .error e := rfl

@[simp] theorem outcome_bind {α β : Type} (x : ExceptT Fault (StateM Unit) α)
    (f : α → ExceptT Fault (StateM Unit) β) :
    outcome (x >>= f) = outcome x >>= fun a => outcome (f a) := by
  show (ExceptT.bindCont f (x ()).1 (x ()).2).1 = (x ()).1 >>= fun a => (f a ()).1
  rcases x () with ⟨e | a, s⟩ <;> rfl

@[simp] theorem outcome_mapM {α β : Type} (xs : List α)
    (f : α → ExceptT Fault (StateM Unit) β) :
    outcome (xs.mapM f) = xs.mapM fun x => outcome (f x) := by
  induction xs with
  | nil => rfl
  | cons x xs ih =>
    simp only [List.mapM_cons, outcome_bind, outcome_pure, ih]
    rfl

theorem outcome_close (t : Traversal κ Unit) (c : Connective) (args : List Formula) :
    outcome (t.close c args) = (t.join c args).map fun g => ((t.finish g).run ()).1 := by
  unfold close
  cases h : t.join c args <;> rfl

end Clausal.Traversal
