import Clausal.Proofs.Recursion

/-! The height of the result stack of a traversal. Before every step each pending join will find its
operands, and one result will be left at the end, so that the loop adds no fault to those of the
traversal. -/
namespace Clausal.Traversal

variable {κ σ : Type}

/-- The number of finished results once the jobs are worked off, if every join finds its operands
among them. -/
def heightAfter : List (Job κ) → Nat → Option Nat
  | [], height => some height
  | .enter _ _ :: jobs, height => heightAfter jobs (height + 1)
  | .join _ n :: jobs, height => if n ≤ height then heightAfter jobs (height - n + 1) else none

theorem heightAfter_map_enter_append (k : κ) (fs : List Formula) (jobs : List (Job κ))
    (height : Nat) :
    heightAfter (fs.map (.enter k) ++ jobs) height = heightAfter jobs (height + fs.length) := by
  induction fs generalizing height with
  | nil => rfl
  | cons f fs ih =>
    rw [List.map_cons, List.cons_append, heightAfter, ih, List.length_cons]
    congr 1
    omega

theorem heightAfter_join_add (c : Connective) (n : Nat) (jobs : List (Job κ)) (height : Nat) :
    heightAfter (.join c n :: jobs) (height + n) = heightAfter jobs (height + 1) := by
  rw [heightAfter, if_pos (Nat.le_add_left n height), Nat.add_sub_cancel]

theorem takeOperands_eq_some {n : Nat} {done : List Formula} (h : n ≤ done.length) :
    takeOperands n done [] = some ((done.take n).reverse, done.drop n) := by
  have hlen : (done.take n).reverse.length = n := by simp [h]
  have htake := takeOperands_reverse_append (done.take n).reverse (done.drop n) []
  rw [hlen] at htake
  simpa using htake

theorem length_of_takeOperands {n : Nat} {done args rest : List Formula} (h : n ≤ done.length)
    (htake : takeOperands n done [] = some (args, rest)) :
    args.length = n ∧ rest.length = done.length - n := by
  rw [takeOperands_eq_some h] at htake
  cases htake
  simp [h]

/-- Some node is entered as the connective over so many operands. -/
def Schedules (t : Traversal κ σ) (c : Connective) (n : Nat) : Prop :=
  ∃ k f k', t.enter k f = .descend c k' ∧ f.operands.length = n

/-- The faults of the traversal itself: it refuses a formula, or cannot join as many results as the
node has operands. -/
inductive Raises (t : Traversal κ σ) : Fault → Prop
  | refuse {k : κ} {f : Formula} {e : Fault} (enter : t.enter k f = .refuse e) : Raises t e
  | join {c : Connective} {args : List Formula} {e : Fault} (schedules : t.Schedules c args.length)
      (fails : t.join c args = .error e) : Raises t e

/-- Worked off over so many finished results, the jobs leave one, and every join is that of a node
entered before. -/
structure Ready (t : Traversal κ σ) (jobs : List (Job κ)) (height : Nat) : Prop where
  heightAfter_eq : heightAfter jobs height = some 1
  schedules : ∀ c n, .join c n ∈ jobs → t.Schedules c n

namespace Ready

variable {t : Traversal κ σ} {k k' : κ} {f : Formula} {c : Connective} {jobs : List (Job κ)}
  {n height : Nat}

theorem start (t : Traversal κ σ) (k : κ) (f : Formula) : t.Ready [.enter k f] 0 :=
  ⟨rfl, by simp⟩

theorem finished (h : t.Ready [] height) : height = 1 := by
  simpa [heightAfter] using h.heightAfter_eq

theorem result (h : t.Ready (.enter k f :: jobs) height) : t.Ready jobs (height + 1) :=
  ⟨h.heightAfter_eq, fun c n hjob => h.schedules c n (List.mem_cons_of_mem _ hjob)⟩

theorem skip (hone : f.operands.length = 1) (h : t.Ready (.enter k f :: jobs) height) :
    t.Ready (f.operands.map (.enter k') ++ jobs) height := by
  refine ⟨?_, fun c n hjob => h.result.schedules c n (by simpa using hjob)⟩
  rw [heightAfter_map_enter_append, hone]
  exact h.heightAfter_eq

theorem descend (he : t.enter k f = .descend c k') (h : t.Ready (.enter k f :: jobs) height) :
    t.Ready (f.operands.map (.enter k') ++ .join c f.operands.length :: jobs) height := by
  refine ⟨?_, fun d n hjob => ?_⟩
  · rw [heightAfter_map_enter_append, heightAfter_join_add]
    exact h.heightAfter_eq
  · have hmem : (d = c ∧ n = f.operands.length) ∨ .join d n ∈ jobs := by simpa using hjob
    rcases hmem with ⟨rfl, rfl⟩ | hmem
    · exact ⟨k, f, k', he, rfl⟩
    · exact h.result.schedules d n hmem

theorem join (h : t.Ready (.join c n :: jobs) height) :
    n ≤ height ∧ t.Schedules c n ∧ t.Ready jobs (height - n + 1) := by
  have heq := h.heightAfter_eq
  rw [heightAfter] at heq
  split at heq
  next hle =>
    exact ⟨hle, h.schedules c n List.mem_cons_self,
      heq, fun d m hjob => h.schedules d m (List.mem_cons_of_mem _ hjob)⟩
  next => contradiction

end Ready

/-- A loop that is ready ends with a result or with a fault of the traversal, as every step leaves it
ready. -/
theorem loop_raises {t : Traversal κ σ} (ht : t.DropsUnary) {jobs : List (Job κ)}
    {done : List Formula} {s : σ} {e : Fault} (h : t.Ready jobs done.length)
    (he : (t.loop jobs done s).1 = .error e) : t.Raises e := by
  fun_induction loop t jobs done s with
  | case1 => contradiction
  | case2 done s hdone =>
    obtain ⟨g, rfl⟩ := List.length_eq_one_iff.1 h.finished
    exact absurd rfl (hdone g)
  | case3 k f jobs done s g henter result s' hfinish ih => exact ih h.result he
  | case4 k f jobs done s k' henter ih => exact ih (h.skip (ht k f k' henter)) he
  | case5 k f jobs done s c k' henter ih => exact ih (h.descend henter) he
  | case6 k f jobs done s e' henter =>
    cases he
    exact .refuse henter
  | case7 c n jobs done s hnone =>
    obtain ⟨hle, -, -⟩ := h.join
    rw [takeOperands_eq_some hle] at hnone
    contradiction
  | case8 c n jobs done s args rest htake e' hfails =>
    cases he
    obtain ⟨hle, hschedules, -⟩ := h.join
    obtain ⟨hargs, -⟩ := length_of_takeOperands hle htake
    exact .join (hargs ▸ hschedules) hfails
  | case9 c n jobs done s args rest htake g hjoin result s' hfinish ih =>
    obtain ⟨hle, -, hready⟩ := h.join
    obtain ⟨-, hrest⟩ := length_of_takeOperands hle htake
    exact ih (by rwa [List.length_cons, hrest]) he

/-- Every fault of a traversal is one that it raises itself, whatever the formula, the context and
the state. -/
theorem run_raises {t : Traversal κ σ} (ht : t.DropsUnary) {k : κ} {f : Formula} {s : σ} {e : Fault}
    (he : ((t.run k f).run s).1 = .error e) : t.Raises e :=
  loop_raises ht (Ready.start t k f) he

end Clausal.Traversal
