import Clausal.Proofs.PlainRewriting
import Clausal.Proofs.VisitingOrder

/-! The order in which a rewriting applies its step. It goes through the nodes of the formula in
postorder and applies the step once at each place, to the node over what the step has made of its
operands; at the first short node it stops. -/
namespace Clausal.Formula

variable {σ : Type}

/-! ### Nodes in postorder -/

/-- A place comes before those above it and those to the right of it. -/
inductive Precedes : List Nat → List Nat → Prop
  | above {i : Nat} {place : List Nat} : Precedes (i :: place) []
  | left {i j : Nat} {place place' : List Nat} (h : i < j) : Precedes (i :: place) (j :: place')
  | inside {i : Nat} {place place' : List Nat} (h : Precedes place place') :
      Precedes (i :: place) (i :: place')

/-- A subformula together with its place. -/
structure Node where
  place : List Nat
  formula : Formula

namespace Node

/-- A node of an operand as it is seen from above, where the operand has this number. -/
def within (i : Nat) (x : Node) : Node := ⟨i :: x.place, x.formula⟩

theorem mem_map_within {i j : Nat} {place : List Nat} {g : Formula} {xs : List Node} :
    ⟨i :: place, g⟩ ∈ xs.map (within j) ↔ j = i ∧ ⟨place, g⟩ ∈ xs := by
  rw [List.mem_map]
  constructor
  · rintro ⟨x, hx, heq⟩
    cases heq
    exact ⟨rfl, hx⟩
  · rintro ⟨rfl, hx⟩
    exact ⟨_, hx, rfl⟩

end Node

/-- The nodes with their places in postorder: those of each operand in turn before the root. -/
def placed (f : Formula) : List Node :=
  (f.operands.zipIdx.attach.flatMap fun ⟨p, _⟩ => (placed p.1).map (Node.within p.2)) ++ [⟨[], f⟩]
termination_by sizeOf f
decreasing_by exact sizeOf_lt_of_mem_operands (List.fst_mem_of_mem_zipIdx ‹_›)

/-- The nodes of numbered operands, as they are seen from above. -/
def placedWithin (ps : List (Formula × Nat)) : List Node :=
  ps.flatMap fun p => p.1.placed.map (Node.within p.2)

theorem placed_eq (f : Formula) : f.placed = placedWithin f.operands.zipIdx ++ [⟨[], f⟩] := by
  rw [placed, List.flatMap_subtype (g := fun p => p.1.placed.map (Node.within p.2)) fun _ _ => rfl,
    List.unattach_attach]
  rfl

theorem exists_place_of_mem_placedWithin {ps : List (Formula × Nat)} {x : Node}
    (h : x ∈ placedWithin ps) : ∃ p ∈ ps, ∃ place, x.place = p.2 :: place := by
  obtain ⟨p, hp, hx⟩ := List.mem_flatMap.1 h
  obtain ⟨y, -, rfl⟩ := List.mem_map.1 hx
  exact ⟨p, hp, y.place, rfl⟩

theorem map_formula_placed (f : Formula) : f.placed.map Node.formula = f.postorder := by
  induction f using induction_operands with
  | step f ih =>
    have hwithin : ∀ p ∈ f.operands.zipIdx,
        (p.1.placed.map (Node.within p.2)).map Node.formula = p.1.postorder := by
      intro p hp
      rw [List.map_map]
      exact ih p.1 (List.fst_mem_of_mem_zipIdx hp)
    calc f.placed.map Node.formula
        = (f.operands.zipIdx.flatMap fun p =>
            (p.1.placed.map (Node.within p.2)).map Node.formula) ++ [f] := by
          rw [placed_eq, placedWithin, List.map_append, List.map_flatMap]
          rfl
      _ = (f.operands.zipIdx.flatMap fun p => p.1.postorder) ++ [f] := by
          rw [List.flatMap_congr hwithin]
      _ = (f.operands.zipIdx.map Prod.fst).flatMap postorder ++ [f] := by
          rw [List.flatMap_map]
      _ = f.postorder := by
          rw [List.zipIdx_map_fst, postorder_eq]

theorem mem_placed {f g : Formula} {place : List Nat} :
    ⟨place, g⟩ ∈ f.placed ↔ f.at? place = some g := by
  induction place generalizing f with
  | nil =>
    rw [placed_eq]
    simp [placedWithin, Node.within, at?, eq_comm]
  | cons i place ih =>
    have hwithin : ⟨i :: place, g⟩ ∈ f.placed ↔
        ∃ a, f.operands[i]? = some a ∧ ⟨place, g⟩ ∈ a.placed := by
      rw [placed_eq f]
      simp [placedWithin, Node.mem_map_within, List.mem_zipIdx_iff_getElem?]
    rw [hwithin, at?]
    cases f.operands[i]? <;> simp [ih]

theorem pairwise_placed (f : Formula) :
    f.placed.Pairwise fun x y => Precedes x.place y.place := by
  induction f using induction_operands with
  | step f ih =>
    rw [placed_eq, List.pairwise_append]
    refine ⟨?_, List.pairwise_singleton _ _, ?_⟩
    · rw [placedWithin, List.pairwise_flatMap]
      refine ⟨fun p hp => ?_, (pairwise_zipIdx f.operands).imp ?_⟩
      · rw [List.pairwise_map]
        exact (ih p.1 (List.fst_mem_of_mem_zipIdx hp)).imp fun h => .inside h
      · intro p q hpq x hx y hy
        obtain ⟨_, -, rfl⟩ := List.mem_map.1 hx
        obtain ⟨_, -, rfl⟩ := List.mem_map.1 hy
        exact .left hpq
    · intro x hx y hy
      obtain ⟨p, -, place, hplace⟩ := exists_place_of_mem_placedWithin hx
      rw [hplace, List.mem_singleton.1 hy]
      exact .above

/-! ### Nodes over values -/

/-- The node with its operands replaced by the values of their numbers. -/
def withOperands (value : Nat → Formula) : Formula → Formula
  | lit l => lit l
  | not _ => not (value 0)
  | implies _ _ => implies (value 0) (value 1)
  | iff _ _ => iff (value 0) (value 1)
  | and args => and (args.mapIdx fun i _ => value i)
  | or args => or (args.mapIdx fun i _ => value i)

theorem ofOperands?_withOperands {f : Formula} {c : Connective} (h : f.connective? = some c)
    (value : Nat → Formula) :
    ofOperands? c (f.operands.zipIdx.map fun p => value p.2) = some (f.withOperands value) := by
  cases f with
  | lit l => contradiction
  | not a | implies a b | iff a b =>
    cases h
    rfl
  | and args | or args =>
    cases h
    simp [ofOperands?, withOperands, operands, List.mapIdx_eq_zipIdx_map]

theorem ofConnective_withOperands {f : Formula} {c : Connective} (h : f.connective? = some c)
    (value : Nat → Formula) :
    ofConnective c (f.operands.zipIdx.map fun p => value p.2) =
      faultOr f.arityFault? (f.withOperands value) := by
  have hs := not_isShort_iff h
  rw [ofConnective_of_ofOperands? (ofOperands?_withOperands h value), List.length_map,
    List.length_zipIdx, arityFault?, h]
  by_cases hshort : f.IsShort
  · rw [if_pos hshort, if_neg fun ha => hs.2 ha hshort]
    rfl
  · rw [if_neg hshort, if_pos (hs.1 hshort)]
    rfl

theorem arityFault?_eq_some_iff {f : Formula} {e : Fault} :
    f.arityFault? = some e ↔
      f.IsShort ∧ ∃ c, f.connective? = some c ∧ .arity c f.operands.length = e := by
  rw [arityFault?]
  split
  next h => simp [h]
  next h => simp [h]

/-- The node over the values at the places of its operands. -/
def Node.over (value : List Nat → Formula) (x : Node) : Formula :=
  x.formula.withOperands fun i => value (x.place ++ [i])

/-- A value for the root above the values within the operands. -/
def withRoot (root : Formula) (values : Nat → List Nat → Formula) : List Nat → Formula
  | [] => root
  | i :: place => values i place

/-! ### Applications -/

/-- The step is applied to the nodes of a list one after the other, and gives at each place the
value there. It ends with the fault of the first short node. -/
inductive Applies (step : Formula → StateM σ Formula) (value : List Nat → Formula) :
    List Node → σ → Option Fault → σ → Prop
  | done {s : σ} : Applies step value [] s none s
  | refuse {x : Node} {rest : List Node} {s : σ} {e : Fault}
      (short : x.formula.arityFault? = some e) : Applies step value (x :: rest) s (some e) s
  | apply {x : Node} {rest : List Node} {s s' s'' : σ} {e : Option Fault}
      (long : x.formula.arityFault? = none)
      (result : (step (x.over value)).run s = (value x.place, s'))
      (later : Applies step value rest s' e s'') : Applies step value (x :: rest) s e s''

namespace Applies

variable {step : Formula → StateM σ Formula} {value value' : List Nat → Formula}
  {xs ys : List Node} {s s' s'' : σ} {e : Option Fault}

theorem append (h : Applies step value xs s none s') (h' : Applies step value ys s' e s'') :
    Applies step value (xs ++ ys) s e s'' := by
  generalize hnone : none = n at h
  induction h with
  | done => exact h'
  | refuse => cases hnone
  | apply long result _ ih => exact .apply long result (ih h' hnone)

theorem append_of_refused {e : Fault} (h : Applies step value xs s (some e) s') (ys : List Node) :
    Applies step value (xs ++ ys) s (some e) s' := by
  generalize hsome : some e = n at h
  induction h with
  | done => cases hsome
  | refuse short => exact .refuse short
  | apply long result _ ih => exact .apply long result (ih hsome)

theorem within {i : Nat} (h : Applies step (fun place => value (i :: place)) xs s e s') :
    Applies step value (xs.map (Node.within i)) s e s' := by
  induction h with
  | done => exact .done
  | refuse short => exact .refuse short
  | apply long result _ ih => exact .apply long result ih

/-- Only the values at the places of the nodes and below them matter. -/
theorem congr (h : Applies step value xs s e s')
    (hv : ∀ x ∈ xs, ∀ place, value (x.place ++ place) = value' (x.place ++ place)) :
    Applies step value' xs s e s' := by
  induction h with
  | done => exact .done
  | refuse short => exact .refuse short
  | @apply x rest s s' s'' e long result later ih =>
    have hself : value x.place = value' x.place := by simpa using hv x (by simp) []
    have hover : x.over value = x.over value' := by
      unfold Node.over
      congr 1
      funext i
      exact hv x (by simp) [i]
    refine .apply long ?_ (ih fun y hy => hv y (by simp [hy]))
    rw [← hover, ← hself, result]

/-- The nodes that the step is applied to are those before the first short one. -/
theorem exists_applied (h : Applies step value xs s e s') :
    ∃ applied : List Node,
      (applied.mapM fun x => step (x.over value)).run s = (applied.map fun x => value x.place, s') ∧
      (∀ x ∈ applied, ¬ x.formula.IsShort) ∧
      ((applied = xs ∧ e = none) ∨
        ∃ x rest, xs = applied ++ x :: rest ∧ x.formula.arityFault? = e ∧ e ≠ none) := by
  induction h with
  | done => exact ⟨[], rfl, by simp, .inl ⟨rfl, rfl⟩⟩
  | @refuse x rest s e short => exact ⟨[], rfl, by simp, .inr ⟨x, rest, rfl, short, by simp⟩⟩
  | @apply x rest s s' s'' e long result later ih =>
    obtain ⟨applied, hrun, hlong, hends⟩ := ih
    refine ⟨x :: applied, ?_, ?_, ?_⟩
    · rw [run_mapM_cons, result, hrun]
      rfl
    · rw [List.forall_mem_cons]
      exact ⟨arityFault?_eq_none_iff.1 long, hlong⟩
    · obtain ⟨rfl, rfl⟩ | ⟨y, rest', rfl, hy, he⟩ := hends
      · exact .inl ⟨rfl, rfl⟩
      · exact .inr ⟨y, rest', rfl, hy, he⟩

end Applies

/-- What holds of the rewriting of each operand holds of rewriting them in turn: the operand with
the next number is looked at only if no node before it is short. -/
theorem exists_applies_operands {step : Formula → StateM σ Formula} {fs : List Formula}
    (h : ∀ f ∈ fs, ∀ s, ∃ value e s', Applies step value f.placed s e s' ∧
      (f.rewriteM step).run s = (faultOr e (value []), s')) (n : Nat) (s : σ) :
    ∃ values e s',
      (∀ root, Applies step (withRoot root values) (placedWithin (fs.zipIdx n)) s e s') ∧
      (fs.mapM (rewriteM step)).run s =
        (faultOr e ((fs.zipIdx n).map fun p => values p.2 []), s') := by
  induction fs generalizing n s with
  | nil => exact ⟨fun _ _ => and [], none, s, fun _ => .done, rfl⟩
  | cons f fs ih =>
    obtain ⟨value, e, s', happlies, hrun⟩ := h f (by simp) s
    rw [List.zipIdx_cons, List.mapM_cons]
    cases e with
    | some e =>
      refine ⟨fun _ => value, some e, s', fun root => ?_, run_bind_error hrun⟩
      exact happlies.within.append_of_refused _
    | none =>
      obtain ⟨values, e, s'', hrest, hmap⟩ := ih (fun g hg => h g (by simp [hg])) (n + 1) s'
      -- The operands to the right have other numbers, so that their values stay.
      have hne : ∀ p ∈ fs.zipIdx (n + 1), p.2 ≠ n := by
        intro p hp
        have hle := List.le_snd_of_mem_zipIdx hp
        omega
      refine ⟨Function.update values n value, e, s'', fun root => ?_, ?_⟩
      · refine Applies.append (Applies.within ?_) ((hrest root).congr ?_)
        · simpa [withRoot] using happlies
        · intro x hx place
          obtain ⟨p, hp, place', hplace⟩ := exists_place_of_mem_placedWithin hx
          rw [hplace]
          simp [withRoot, Function.update_of_ne (hne p hp)]
      · have hvalues : ((fs.zipIdx (n + 1)).map fun p => Function.update values n value p.2 []) =
            (fs.zipIdx (n + 1)).map fun p => values p.2 [] := by
          apply List.map_congr_left
          intro p hp
          rw [Function.update_of_ne (hne p hp)]
        rw [run_bind_ok hrun, List.map_cons, hvalues, Function.update_self]
        cases e with
        | some e => exact run_bind_error hmap
        | none => exact run_bind_ok hmap

theorem exists_applies (step : Formula → StateM σ Formula) (f : Formula) (s : σ) :
    ∃ value e s', Applies step value f.placed s e s' ∧
      (f.rewriteM step).run s = (faultOr e (value []), s') := by
  induction f using induction_operands generalizing s with
  | step f ih =>
    cases hc : f.connective? with
    | none =>
      obtain ⟨l, rfl⟩ := connective?_eq_none_iff.1 hc
      rcases hstep : (step (lit l)).run s with ⟨r, s'⟩
      refine ⟨fun _ => r, none, s', ?_, run_liftM hstep⟩
      rw [placed_eq]
      exact .apply rfl hstep .done
    | some c =>
      -- The values below the root are there before the root has one, whichever it gets.
      obtain ⟨values, e, s', happlies, hrun⟩ := exists_applies_operands ih 0 s
      rw [placed_eq, rewriteM_eq step hc]
      cases e with
      | some e =>
        exact ⟨withRoot f values, some e, s', (happlies f).append_of_refused _, run_bind_error hrun⟩
      | none =>
        have hjoin := ofConnective_withOperands hc fun i => values i []
        rw [run_bind_ok hrun]
        cases hshort : f.arityFault? with
        | some e =>
          rw [hshort] at hjoin
          exact ⟨withRoot f values, some e, s', (happlies f).append (.refuse hshort),
            Traversal.run_close_error hjoin⟩
        | none =>
          rw [hshort] at hjoin
          rcases hstep : (step (f.withOperands fun i => values i [])).run s' with ⟨r, s''⟩
          exact ⟨withRoot r values, none, s'', (happlies r).append (.apply hshort hstep .done),
            Traversal.run_close_ok hjoin hstep⟩

/-! ### Notes -/

/-- The step, which also notes what it is applied to. -/
def noted (step : Formula → StateM σ Formula) (g : Formula) : StateM (σ × List Formula) Formula :=
  fun (s, notes) =>
    let (r, s') := (step g).run s
    (r, (s', notes ++ [g]))

theorem run_noted (step : Formula → StateM σ Formula) (g : Formula) (t : σ × List Formula) :
    (noted step g).run t = (((step g).run t.1).1, ((step g).run t.1).2, t.2 ++ [g]) := rfl

theorem run_mapM_noted {α : Type} (step : Formula → StateM σ Formula) (g : α → Formula)
    (xs : List α) (t : σ × List Formula) :
    (xs.mapM fun x => noted step (g x)).run t =
      (((xs.mapM fun x => step (g x)).run t.1).1, ((xs.mapM fun x => step (g x)).run t.1).2,
        t.2 ++ xs.map g) := by
  induction xs generalizing t with
  | nil =>
    rw [List.map_nil, List.append_nil]
    rfl
  | cons x xs ih =>
    rw [run_mapM_cons, run_mapM_cons, ih, run_noted, List.append_assoc]
    rfl

/-- What a rewriting notes: the nodes before the first short one, each over values of its
operands. -/
theorem exists_applied_noted (step : Formula → StateM σ Formula) (f : Formula) (s : σ) :
    ∃ (value : List Nat → Formula) (applied : List Node) (e : Option Fault) (s' : σ),
      (f.transformM (noted step)).run (s, []) =
        (faultOr e (value []), s', applied.map (Node.over value)) ∧
      (applied.mapM fun x => step (x.over value)).run s = (applied.map fun x => value x.place, s') ∧
      (∀ x ∈ applied, ¬ x.formula.IsShort) ∧
      ((applied = f.placed ∧ e = none) ∨
        ∃ x rest, f.placed = applied ++ x :: rest ∧ x.formula.arityFault? = e ∧ e ≠ none) := by
  obtain ⟨value, e, ⟨s', notes⟩, happlies, hrun⟩ := exists_applies (noted step) f (s, [])
  obtain ⟨applied, hmap, hlong, hends⟩ := happlies.exists_applied
  have hsame := hmap.symm.trans (run_mapM_noted step (Node.over value) applied (s, []))
  obtain ⟨hvalues, hrest⟩ := Prod.mk.inj hsame
  obtain ⟨hstate, rfl⟩ := Prod.mk.inj hrest
  refine ⟨value, applied, e, s', ?_, (Prod.ext hvalues hstate).symm, hlong, hends⟩
  rw [transformM_eq_rewriteM, hrun]
  rfl

/-- Rewriting with any step does what the plain recursion does. In postorder, every place of the
formula once, the step is applied to the node over what it has made of the operands, and to nothing
else; what it makes of the root is the result. With a short node, the first one gives the fault, and
the step is applied exactly to the nodes before it. -/
theorem transformM_in_postorder (step : Formula → StateM σ Formula) (f : Formula) :
    f.transformM step = f.rewriteM step ∧
    (f.placed.map Node.formula = f.postorder ∧
      f.placed.Pairwise (fun x y => Precedes x.place y.place) ∧
      ∀ place g, ⟨place, g⟩ ∈ f.placed ↔ f.at? place = some g) ∧
    ∀ s, ∃ (value : List Nat → Formula) (applied : List Node) (outcome : Except Fault Formula)
        (s' : σ),
      (f.transformM step).run s = (outcome, s') ∧
      (f.transformM (noted step)).run (s, []) = (outcome, s', applied.map (Node.over value)) ∧
      (applied.mapM fun x => step (x.over value)).run s = (applied.map fun x => value x.place, s') ∧
      (∀ x ∈ applied, ¬ x.formula.IsShort) ∧
      ((applied = f.placed ∧ outcome = .ok (value [])) ∨
        ∃ x rest c, f.placed = applied ++ x :: rest ∧ x.formula.IsShort ∧
          x.formula.connective? = some c ∧
          outcome = .error (.arity c x.formula.operands.length)) := by
  refine ⟨transformM_eq_rewriteM step f,
    ⟨map_formula_placed f, pairwise_placed f, fun _ _ => mem_placed⟩, fun s => ?_⟩
  obtain ⟨value, applied, e, s', hnoted, hmap, hlong, hends⟩ := exists_applied_noted step f s
  have hplain : (f.transformM step).run s = (faultOr e (value []), s') := by
    have hshown : (f.transformM step).run s =
        Prod.map id Prod.fst ((f.transformM (noted step)).run (s, [])) :=
      run_transformM_map (π := Prod.fst) (fun _ _ => rfl) f (s, [])
    rw [hshown, hnoted]
    rfl
  refine ⟨value, applied, faultOr e (value []), s', hplain, hnoted, hmap, hlong, ?_⟩
  obtain ⟨rfl, rfl⟩ | ⟨x, rest, hplaced, hfault, he⟩ := hends
  · exact .inl ⟨rfl, rfl⟩
  · obtain ⟨e, rfl⟩ := Option.ne_none_iff_exists'.1 he
    obtain ⟨hshort, c, hc, rfl⟩ := arityFault?_eq_some_iff.1 hfault
    exact .inr ⟨x, rest, c, hplaced, hshort, hc, rfl⟩

/-- The negations that the step itself adds are never visited. -/
example :
    let x1 := Sample.literal 1 (by decide)
    let x2 := Sample.literal 2 (by decide)
    ((or [and [x1, x2], x1]).transformM (noted fun g => pure (not g))).run ((), []) =
      (.ok (not (or [not (and [not x1, not x2]), not x1])), (),
        [x1, x2, and [not x1, not x2], x1, or [not (and [not x1, not x2]), not x1]]) := by cbv

end Clausal.Formula
