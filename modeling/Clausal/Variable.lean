/-! Propositional variables, numbered by unsigned 64-bit words. -/
namespace Clausal

structure Var where
  index : UInt64
  deriving DecidableEq, Repr

namespace Var

/-- The bare number. -/
def text (v : Var) : String := toString v.index.toNat

/-- The number after an `x`, as variables appear in messages. -/
def label (v : Var) : String := "x" ++ v.text

/-- Variables compare by number. -/
instance : Ord Var where
  compare v w := compare v.index.toNat w.index.toNat

theorem ext_toNat {v w : Var} (h : v.index.toNat = w.index.toNat) : v = w := by
  cases v
  cases w
  simpa using UInt64.toNat_inj.1 h

/-- Puts a variable in front of a list that does not already start with it. -/
def consNew (v : Var) (vs : List Var) : List Var :=
  if vs.head? = some v then vs else v :: vs

/-- The distinct variables of a list in ascending order. -/
def ascending (vs : List Var) : List Var :=
  (vs.mergeSort fun v w => decide (v.index.toNat ≤ w.index.toNat)).foldr consNew []

theorem mem_consNew {v w : Var} {vs : List Var} : w ∈ consNew v vs ↔ w = v ∨ w ∈ vs := by
  unfold consNew
  split
  next h =>
    have hv : v ∈ vs := List.mem_of_mem_head? h
    grind
  next => simp

theorem mem_foldr_consNew {w : Var} {vs : List Var} : w ∈ vs.foldr consNew [] ↔ w ∈ vs := by
  induction vs with
  | nil => simp
  | cons v vs ih => simp [mem_consNew, ih]

theorem mem_ascending {w : Var} {vs : List Var} : w ∈ ascending vs ↔ w ∈ vs := by
  simp [ascending, mem_foldr_consNew]

theorem pairwise_foldr_consNew {vs : List Var}
    (h : vs.Pairwise fun v w => v.index.toNat ≤ w.index.toNat) :
    (vs.foldr consNew []).Pairwise fun v w => v.index.toNat < w.index.toNat := by
  induction vs with
  | nil => simp
  | cons v vs ih =>
    have hvs := ih h.tail
    have hv := (List.pairwise_cons.1 h).1
    simp only [List.foldr_cons]
    generalize hacc : vs.foldr consNew [] = acc at hvs
    have hmem : ∀ w ∈ acc, v.index.toNat ≤ w.index.toNat := by
      intro w hw
      exact hv w (mem_foldr_consNew.1 (hacc ▸ hw))
    unfold consNew
    split
    next => exact hvs
    next hne =>
      refine List.pairwise_cons.2 ⟨fun w hw => ?_, hvs⟩
      cases acc with
      | nil => simp at hw
      | cons u us =>
        have hu := hmem u (by simp)
        have hlt : v.index.toNat < u.index.toNat := by
          rcases Nat.lt_or_eq_of_le hu with hlt | heq
          · exact hlt
          · exact absurd (by simp [ext_toNat heq]) hne
        rcases List.mem_cons.1 hw with rfl | hw
        · exact hlt
        · exact Nat.lt_trans hlt ((List.pairwise_cons.1 hvs).1 w hw)

theorem pairwise_ascending (vs : List Var) :
    (ascending vs).Pairwise fun v w => v.index.toNat < w.index.toNat := by
  apply pairwise_foldr_consNew
  have h : (vs.mergeSort fun v w => decide (v.index.toNat ≤ w.index.toNat)).Pairwise
      fun v w => decide (v.index.toNat ≤ w.index.toNat) = true :=
    List.pairwise_mergeSort (by intro u v w; simp; omega) (by intro v w; simp; omega) vs
  exact h.imp (by simp)

end Var

end Clausal
