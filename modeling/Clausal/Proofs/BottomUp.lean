import Clausal.Proofs.Recursion
import Clausal.Proofs.WellFormed

/-! Transformations as plain recursion from the leaves up. A formula with a short node is refused
with the fault of its first one, and every other formula is rewritten. -/
namespace Clausal

/-- A value, unless there is a fault. -/
def faultOr {α : Type} (e : Option Fault) (a : α) : Except Fault α :=
  match e with
  | some e => .error e
  | none => .ok a

theorem faultOr_eq_error_iff {α : Type} {e : Option Fault} {a : α} {e' : Fault} :
    faultOr e a = .error e' ↔ e = some e' := by
  cases e <;> simp [faultOr]

theorem bind_eq_ok_iff {ε α β : Type} {x : Except ε α} {f : α → Except ε β} {b : β} :
    x >>= f = .ok b ↔ ∃ a, x = .ok a ∧ f a = .ok b := by
  cases x <;> simp [bind, Except.bind]

theorem map_map_congr {α β γ : Type} {xs : List α} {g : α → β} {h : β → γ} {k : α → γ}
    (hx : ∀ x ∈ xs, h (g x) = k x) : (xs.map g).map h = xs.map k := by
  rw [List.map_map]
  exact List.map_congr_left hx

theorem exists_map_eq {α β : Type} {g : α → β} {P : α → Prop} {ys : List β}
    (h : ∀ y ∈ ys, ∃ x, P x ∧ g x = y) :
    ∃ xs : List α, (∀ x ∈ xs, P x) ∧ xs.map g = ys := by
  induction ys with
  | nil => exact ⟨[], by simp, rfl⟩
  | cons y ys ih =>
    obtain ⟨x, hx, rfl⟩ := h y (by simp)
    obtain ⟨xs, hxs, rfl⟩ := ih fun z hz => h z (by simp [hz])
    refine ⟨x :: xs, ?_, rfl⟩
    rw [List.forall_mem_cons]
    exact ⟨hx, hxs⟩

theorem mapM_eq_pure {m : Type → Type} [Monad m] [LawfulMonad m] {α β : Type} {xs : List α}
    {f : α → m β} {g : α → β} (h : ∀ x ∈ xs, f x = pure (g x)) : xs.mapM f = pure (xs.map g) := by
  induction xs with
  | nil => rfl
  | cons x xs ih =>
    have hxs := ih fun y hy => h y (by simp [hy])
    rw [List.mapM_cons, h x (by simp), pure_bind, hxs, pure_bind, List.map_cons]

theorem faultOr_eq_ok_iff {α : Type} {e : Option Fault} {a b : α} :
    faultOr e a = .ok b ↔ e = none ∧ a = b := by
  cases e <;> simp [faultOr]

namespace Formula

/-- The node with every operand replaced. -/
def mapOperands (φ : Formula → Formula) : Formula → Formula
  | lit l => lit l
  | not a => not (φ a)
  | implies a b => implies (φ a) (φ b)
  | iff a b => iff (φ a) (φ b)
  | and args => and (args.map φ)
  | or args => or (args.map φ)

@[simp] theorem connective?_mapOperands (φ : Formula → Formula) (f : Formula) :
    (f.mapOperands φ).connective? = f.connective? := by
  cases f <;> rfl

@[simp] theorem operands_mapOperands (φ : Formula → Formula) (f : Formula) :
    (f.mapOperands φ).operands = f.operands.map φ := by
  cases f <;> rfl

theorem isShort_mapOperands {φ : Formula → Formula} {f : Formula} :
    (f.mapOperands φ).IsShort ↔ f.IsShort := by
  cases f <;> simp [mapOperands, IsShort]

theorem mapOperands_congr {φ ψ : Formula → Formula} {f : Formula}
    (h : ∀ a ∈ f.operands, φ a = ψ a) : f.mapOperands φ = f.mapOperands ψ := by
  have hmap : f.operands.map φ = f.operands.map ψ := List.map_congr_left h
  cases f <;> simp_all [mapOperands, operands]

theorem mapOperands_mapOperands (φ ψ : Formula → Formula) (f : Formula) :
    (f.mapOperands φ).mapOperands ψ = f.mapOperands (ψ ∘ φ) := by
  cases f <;> simp [mapOperands]

theorem mapOperands_eq_self {φ : Formula → Formula} {f : Formula} (h : ∀ a ∈ f.operands, φ a = a) :
    f.mapOperands φ = f := by
  have hmap : f.operands.map φ = f.operands := by
    rw [List.map_congr_left h, List.map_id']
  cases f <;> simp_all [mapOperands, operands]

theorem ofConnective_of_ofOperands? {c : Connective} {args : List Formula} {f : Formula}
    (h : ofOperands? c args = some f) :
    ofConnective c args =
      if c.arity.Allows args.length then .ok f else .error (.arity c args.length) := by
  rw [ofConnective, h]

theorem ofOperands?_map_operands {f : Formula} {c : Connective} (h : f.connective? = some c)
    (φ : Formula → Formula) : ofOperands? c (f.operands.map φ) = some (f.mapOperands φ) := by
  rw [← operands_mapOperands]
  exact ofOperands?_operands (by rw [connective?_mapOperands, h])

theorem ofConnective_map_operands {f : Formula} {c : Connective} (h : f.connective? = some c)
    (φ : Formula → Formula) :
    ofConnective c (f.operands.map φ) =
      if f.IsShort then .error (.arity c f.operands.length) else .ok (f.mapOperands φ) := by
  rw [ofConnective_of_ofOperands? (ofOperands?_map_operands h φ), List.length_map]
  have hs := not_isShort_iff h
  by_cases hshort : f.IsShort
  · rw [if_pos hshort, if_neg fun ha => hs.2 ha hshort]
  · rw [if_neg hshort, if_pos (hs.1 hshort)]

/-- Replaces every node by what `step` makes of it once its operands are replaced. -/
def bottomUp (step : Formula → Formula) : Formula → Formula
  | lit l => step (lit l)
  | not a => step (not (bottomUp step a))
  | implies a b => step (implies (bottomUp step a) (bottomUp step b))
  | iff a b => step (iff (bottomUp step a) (bottomUp step b))
  | and args => step (and (args.map fun a => bottomUp step a))
  | or args => step (or (args.map fun a => bottomUp step a))

theorem bottomUp_eq (step : Formula → Formula) (f : Formula) :
    f.bottomUp step = step (f.mapOperands (bottomUp step)) := by
  cases f <;> rw [bottomUp] <;> rfl

theorem mapM_eq_faultOr {α β : Type} {xs : List α} {f : α → Except Fault β} {e : α → Option Fault}
    {g : α → β} (h : ∀ x ∈ xs, f x = faultOr (e x) (g x)) :
    xs.mapM f = faultOr (xs.findSome? e) (xs.map g) := by
  induction xs with
  | nil => rfl
  | cons x xs ih =>
    have hx := h x (by simp)
    have hxs := ih fun y hy => h y (by simp [hy])
    rw [List.mapM_cons, hx, hxs, List.findSome?_cons]
    cases e x with
    | some e => rfl
    | none => cases xs.findSome? e <;> rfl

theorem mapM_eq_ok {α β : Type} {xs : List α} {f : α → Except Fault β} {g : α → β}
    (h : ∀ x ∈ xs, f x = .ok (g x)) : xs.mapM f = .ok (xs.map g) :=
  mapM_eq_pure h

theorem mapM_ok_mono {α β : Type} {xs : List α} {f g : α → Except Fault β}
    (h : ∀ x ∈ xs, ∀ b, f x = .ok b → g x = .ok b) {bs : List β} (hbs : xs.mapM f = .ok bs) :
    xs.mapM g = .ok bs := by
  induction xs generalizing bs with
  | nil => exact hbs
  | cons x xs ih =>
    rw [List.mapM_cons, bind_eq_ok_iff] at hbs ⊢
    obtain ⟨b, hb, hrest⟩ := hbs
    obtain ⟨cs, hcs, hbs⟩ := bind_eq_ok_iff.1 hrest
    have hgs := ih (fun y hy => h y (by simp [hy])) hcs
    exact ⟨b, h x (by simp) b hb, bind_eq_ok_iff.2 ⟨cs, hgs, hbs⟩⟩

theorem dropsUnary_transforming {σ : Type} (step : Formula → StateM σ Formula) :
    (Traversal.transforming step).DropsUnary :=
  fun _ f k h => absurd h (Traversal.split_ne_skip f k)

theorem outcome_walk_transforming (step : Formula → Formula) (f : Formula) :
    Traversal.outcome ((Traversal.transforming fun g => pure (step g)).walk () f) =
      faultOr f.firstArityFault? (f.bottomUp step) := by
  induction f using induction_operands with
  | step f ih =>
    rw [firstArityFault?_eq, arityFault?]
    cases hc : f.connective? with
    | none =>
      obtain ⟨l, rfl⟩ := connective?_eq_none_iff.1 hc
      rw [Traversal.walk_result rfl, bottomUp_eq]
      rfl
    | some c =>
      have he : (Traversal.transforming fun g => pure (step g) : Traversal Unit Unit).enter () f =
          .descend c () := by
        simp only [Traversal.transforming, Traversal.split, hc]
      rw [Traversal.walk_descend he, Traversal.outcome_bind, Traversal.outcome_mapM,
        mapM_eq_faultOr ih]
      cases f.operands.findSome? firstArityFault? with
      | some e => rfl
      | none =>
        show Traversal.outcome (Traversal.close _ c _) = _
        rw [Traversal.outcome_close]
        simp only [Traversal.transforming, ofConnective_map_operands hc, bottomUp_eq step f]
        split <;> rfl

/-- A transformation checks every node before it rewrites it, so that the first short node in
postorder decides whether there is a result. -/
theorem transform_eq (step : Formula → Formula) (f : Formula) :
    f.transform step = faultOr f.firstArityFault? (f.bottomUp step) := by
  rw [← outcome_walk_transforming, ← Traversal.run_eq_walk (dropsUnary_transforming _)]
  rfl

theorem transform_eq_ok {step : Formula → Formula} {f : Formula} (h : f.WellFormed) :
    f.transform step = .ok (f.bottomUp step) := by
  rw [transform_eq, firstArityFault?_eq_none_iff.2 h]
  rfl

theorem bottomUp_eq_self {step : Formula → Formula} {f : Formula}
    (h : f.Everywhere fun g => step g = g) : f.bottomUp step = f := by
  induction f using induction_operands with
  | step f ih =>
    have hmap := mapOperands_eq_self fun a ha => ih a ha (h.operand ha)
    rw [bottomUp_eq, hmap, h.self]

theorem everywhere_mapOperands {P : Formula → Prop} {φ : Formula → Formula} {f : Formula}
    (hf : P (f.mapOperands φ)) (h : ∀ a ∈ f.operands, (φ a).Everywhere P) :
    (f.mapOperands φ).Everywhere P := by
  rw [everywhere_iff, operands_mapOperands]
  refine ⟨hf, fun b hb => ?_⟩
  obtain ⟨a, ha, rfl⟩ := List.mem_map.1 hb
  exact h a ha

/-- What one step establishes above operands that have it, the whole rewriting establishes. -/
theorem everywhere_bottomUp {P : Formula → Prop} {step : Formula → Formula}
    (h : ∀ g, (∀ a ∈ g.operands, a.Everywhere P) → (step g).Everywhere P) (f : Formula) :
    (f.bottomUp step).Everywhere P := by
  induction f using induction_operands with
  | step f ih =>
    rw [bottomUp_eq]
    apply h
    intro b hb
    rw [operands_mapOperands] at hb
    obtain ⟨a, ha, rfl⟩ := List.mem_map.1 hb
    exact ih a ha

/-- What one step preserves, the whole rewriting preserves, if replacing operands preserves it at
the node itself. -/
theorem Everywhere.bottomUp {P : Formula → Prop} {step : Formula → Formula}
    (hmap : ∀ g, P g → P (g.mapOperands (bottomUp step)))
    (hstep : ∀ g, g.Everywhere P → (step g).Everywhere P) {f : Formula} (hf : f.Everywhere P) :
    (f.bottomUp step).Everywhere P := by
  induction f using induction_operands with
  | step f ih =>
    rw [bottomUp_eq]
    apply hstep
    exact everywhere_mapOperands (hmap f hf.self) fun a ha => ih a ha (hf.operand ha)

theorem WellFormed.bottomUp {step : Formula → Formula}
    (hstep : ∀ g, g.WellFormed → (step g).WellFormed) {f : Formula} (hf : f.WellFormed) :
    (f.bottomUp step).WellFormed :=
  Everywhere.bottomUp (P := fun g => ¬ g.IsShort) (fun _ hg => mt isShort_mapOperands.1 hg) hstep hf

/-- A relation that can be used below every connective and in a chain. -/
structure IsCompositional (R : Formula → Formula → Prop) : Prop where
  trans : ∀ {f g h : Formula}, R f g → R g h → R f h
  mapOperands : ∀ {f : Formula} {φ ψ : Formula → Formula},
    (∀ a ∈ f.operands, R (φ a) (ψ a)) → R (f.mapOperands φ) (f.mapOperands ψ)

/-- What relates the outcome of each step to the node that it replaces relates the whole rewriting
to the formula. -/
theorem IsCompositional.bottomUp {R : Formula → Formula → Prop} (hR : IsCompositional R)
    {step : Formula → Formula} (hw : ∀ g, g.WellFormed → (step g).WellFormed)
    (hstep : ∀ g, g.WellFormed → R (step g) g) {f : Formula} (hf : f.WellFormed) :
    R (f.bottomUp step) f := by
  induction f using induction_operands with
  | step f ih =>
    have hnode : (f.mapOperands (Formula.bottomUp step)).WellFormed :=
      everywhere_mapOperands (mt isShort_mapOperands.1 hf.self)
        fun a ha => WellFormed.bottomUp hw (hf.operand ha)
    have hoperands : R (f.mapOperands (Formula.bottomUp step)) (f.mapOperands id) :=
      hR.mapOperands fun a ha => ih a ha (hf.operand ha)
    have hid : f.mapOperands id = f := mapOperands_eq_self fun _ _ => rfl
    rw [hid] at hoperands
    -- The chain passes through the node with its operands replaced, before the step is taken.
    rw [bottomUp_eq]
    exact hR.trans (hstep _ hnode) hoperands

end Formula

end Clausal
