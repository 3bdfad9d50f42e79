/-! Actions that have a state and can fail, one after the other. -/
namespace Clausal

variable {ε σ α β : Type}

theorem mapM_congr_left {m : Type → Type} [Monad m] [LawfulMonad m] {xs : List α} {f g : α → m β}
    (h : ∀ x ∈ xs, f x = g x) : xs.mapM f = xs.mapM g := by
  induction xs with
  | nil => rfl
  | cons x xs ih =>
    rw [List.mapM_cons, List.mapM_cons, h x (by simp), ih fun y hy => h y (by simp [hy])]

theorem run_bind_ok {x : ExceptT ε (StateM σ) α} {k : α → ExceptT ε (StateM σ) β}
    {s s' : σ} {a : α} (h : x.run s = (.ok a, s')) : (x >>= k).run s = (k a).run s' := by
  show ExceptT.bindCont k (x.run s).1 (x.run s).2 = _
  rw [h]
  rfl

theorem run_bind_error {x : ExceptT ε (StateM σ) α} {k : α → ExceptT ε (StateM σ) β}
    {s s' : σ} {e : ε} (h : x.run s = (.error e, s')) :
    (x >>= k).run s = (.error e, s') := by
  show ExceptT.bindCont k (x.run s).1 (x.run s).2 = _
  rw [h]
  rfl

theorem run_liftM {x : StateM σ α} {s s' : σ} {a : α} (h : x.run s = (a, s')) :
    (liftM x : ExceptT ε (StateM σ) α).run s = (.ok a, s') := by
  show (Except.ok (x.run s).1, (x.run s).2) = _
  rw [h]

theorem run_mapM_cons (g : α → StateM σ β) (x : α) (xs : List α) (s : σ) :
    ((x :: xs).mapM g).run s =
      (((g x).run s).1 :: ((xs.mapM g).run ((g x).run s).2).1,
        ((xs.mapM g).run ((g x).run s).2).2) := by
  rw [List.mapM_cons]
  rfl

end Clausal
