import Clausal.Proofs.AbsorbedPasses
import Clausal.Proofs.Truth

/-! What the passes do to evaluation under a partial assignment. Expanding equivalences, merging and
moving negations inward keep the value and the variable that is missed; multiplying out keeps the
values; expanding implications may lose a value, as it no longer skips a conclusion. -/
namespace Clausal.Formula

variable {m m' : Assignment} {φ ψ : Formula → Formula} {f : Formula}

theorem mapM_eval (m : Assignment) (args : List Formula) :
    args.mapM (eval m) = (args.map (eval m)).mapM id := by
  rw [List.mapM_map]
  rfl

theorem mapM_eval_congr {args : List Formula} (h : ∀ a ∈ args, (φ a).eval m = (ψ a).eval m') :
    (args.map φ).mapM (eval m) = (args.map ψ).mapM (eval m') := by
  have hmap : (args.map φ).map (eval m) = (args.map ψ).map (eval m') := by
    rw [List.map_map, List.map_map]
    exact List.map_congr_left h
  rw [mapM_eval, hmap, ← mapM_eval]

/-- Evaluation of a node depends only on how its operands evaluate. -/
theorem eval_mapOperands_congr (hlit : ∀ l, f = lit l → (lit l).eval m = (lit l).eval m')
    (h : ∀ a ∈ f.operands, (φ a).eval m = (ψ a).eval m') :
    (f.mapOperands φ).eval m = (f.mapOperands ψ).eval m' := by
  cases f with
  | lit l => exact hlit l rfl
  | not a =>
    have ha := h a (by simp [operands])
    simp only [mapOperands, eval, ha]
  | implies a b | iff a b =>
    have ha := h a (by simp [operands])
    have hb := h b (by simp [operands])
    simp only [mapOperands, eval, ha, hb]
  | and args | or args =>
    have hargs := mapM_eval_congr h
    simp only [operands] at hargs
    simp only [mapOperands, eval, hargs]

theorem isCompositional_eval (m : Assignment) :
    IsCompositional fun f g => f.eval m = g.eval m where
  trans := Eq.trans
  mapOperands h := eval_mapOperands_congr (fun _ _ => rfl) h

theorem mapM_eval_carries {args : List Formula}
    (h : ∀ a ∈ args, ∀ b, (φ a).eval m = .ok b → (ψ a).eval m' = .ok b) {bs : List Bool}
    (hbs : (args.map φ).mapM (eval m) = .ok bs) : (args.map ψ).mapM (eval m') = .ok bs := by
  rw [List.mapM_map] at hbs ⊢
  exact mapM_ok_mono h hbs

/-- Values travel upwards through every connective, also through one that skips an operand. -/
theorem eval_mapOperands_carries
    (hlit : ∀ l, f = lit l → ∀ b, (lit l).eval m = .ok b → (lit l).eval m' = .ok b)
    (h : ∀ a ∈ f.operands, ∀ b, (φ a).eval m = .ok b → (ψ a).eval m' = .ok b) {b : Bool}
    (hb : (f.mapOperands φ).eval m = .ok b) : (f.mapOperands ψ).eval m' = .ok b := by
  cases f with
  | lit l => exact hlit l rfl b hb
  | not a =>
    have ha := h a (by simp [operands])
    rw [mapOperands, eval, bind_eq_ok_iff] at hb ⊢
    obtain ⟨x, hx, hb⟩ := hb
    exact ⟨x, ha x hx, hb⟩
  | implies a c =>
    have ha := h a (by simp [operands])
    have hc := h c (by simp [operands])
    rw [mapOperands, eval, bind_eq_ok_iff] at hb ⊢
    obtain ⟨x, hx, hb⟩ := hb
    -- The premises agree, so that both sides skip the conclusion or both read it.
    refine ⟨x, ha x hx, ?_⟩
    cases x with
    | false => exact hb
    | true => exact hc b hb
  | iff a c =>
    have ha := h a (by simp [operands])
    have hc := h c (by simp [operands])
    rw [mapOperands, eval, bind_eq_ok_iff] at hb ⊢
    obtain ⟨x, hx, hb⟩ := hb
    obtain ⟨y, hy, hb⟩ := bind_eq_ok_iff.1 hb
    exact ⟨x, ha x hx, bind_eq_ok_iff.2 ⟨y, hc y hy, hb⟩⟩
  | and args | or args =>
    rw [mapOperands, eval, bind_eq_ok_iff] at hb ⊢
    obtain ⟨bs, hbs, hb⟩ := hb
    exact ⟨bs, mapM_eval_carries h hbs, hb⟩

/-- Where the first formula has a value, the second has the same one. -/
def CarriesValues (m : Assignment) (f g : Formula) : Prop :=
  ∀ b, f.eval m = .ok b → g.eval m = .ok b

theorem isCompositional_carriesValues (m : Assignment) : IsCompositional (CarriesValues m) where
  trans hfg hgh b hb := hgh b (hfg b hb)
  mapOperands h _ hb := eval_mapOperands_carries (fun _ _ _ hl => hl) h hb

theorem isCompositional_carriesValues_swap (m : Assignment) :
    IsCompositional fun f g => CarriesValues m g f where
  trans hfg hgh := (isCompositional_carriesValues m).trans hgh hfg
  mapOperands h := (isCompositional_carriesValues m).mapOperands h

/-! ### Expanding equivalences and merging -/

/-- Both implications evaluate both sides of an equivalence, unless one of the sides fails. -/
theorem eval_expandIff (m : Assignment) (f : Formula) : f.expandIff.eval m = f.eval m := by
  cases f with
  | iff a b =>
    simp only [expandIff, eval, List.mapM_cons, List.mapM_nil]
    cases a.eval m with
    | error e => rfl
    | ok x =>
      -- Below a false left side it is the second implication that reads the right side.
      cases b.eval m with
      | error e => cases x <;> rfl
      | ok y => cases x <;> cases y <;> rfl
  | _ => rfl

theorem exists_expandIffs_eval (hf : f.WellFormed) :
    ∃ g, f.expandIffs = .ok g ∧ ∀ m, g.eval m = f.eval m := by
  refine ⟨_, transform_eq_ok hf, fun m => ?_⟩
  exact (isCompositional_eval m).bottomUp (fun _ => wellFormed_expandIff)
    (fun g _ => eval_expandIff m g) hf

theorem missing?_eq_findSome? {c : Connective} (hc : c = .and ∨ c = .or)
    (hf : f.connective? = some c) : f.missing? m = f.operands.findSome? (missing? m) := by
  cases f with
  | and args => exact missing?_and m args
  | or args => exact missing?_or m args
  | _ => rcases hc with rfl | rfl <;> cases hf

theorem findSome?_parts {c : Connective} (hc : c = .and ∨ c = .or) (f : Formula) :
    (parts c f).findSome? (missing? m) = f.missing? m := by
  unfold parts
  split
  next hf => exact (missing?_eq_findSome? hc hf).symm
  next => exact List.findSome?_singleton

theorem findSome?_flatMap_parts {c : Connective} (hc : c = .and ∨ c = .or) (args : List Formula) :
    (args.flatMap (parts c)).findSome? (missing? m) = args.findSome? (missing? m) := by
  rw [findSome?_flatMap]
  exact findSome?_congr fun a _ => findSome?_parts hc a

theorem missing?_mergeNode (m : Assignment) (f : Formula) :
    f.mergeNode.missing? m = f.missing? m := by
  cases f with
  | and args => rw [mergeNode_and, missing?_and, missing?_and, findSome?_flatMap_parts (.inl rfl)]
  | or args => rw [mergeNode_or, missing?_or, missing?_or, findSome?_flatMap_parts (.inr rfl)]
  | _ => rfl

theorem all_truth_parts (σ : Var → Bool) (f : Formula) :
    (parts .and f).all (truth σ) = f.truth σ := by
  cases f with
  | and args => exact (truth_and σ args).symm
  | _ => simp [parts, connective?]

theorem any_truth_parts (σ : Var → Bool) (f : Formula) :
    (parts .or f).any (truth σ) = f.truth σ := by
  cases f with
  | or args => exact (truth_or σ args).symm
  | _ => simp [parts, connective?]

theorem truth_mergeNode (σ : Var → Bool) (f : Formula) : f.mergeNode.truth σ = f.truth σ := by
  cases f with
  | and args =>
    rw [mergeNode_and, truth_and, truth_and, List.all_flatMap]
    simp only [all_truth_parts]
  | or args =>
    rw [mergeNode_or, truth_or, truth_or, List.any_flatMap]
    simp only [any_truth_parts]
  | _ => rfl

theorem eval_mergeNode (m : Assignment) (f : Formula) : f.mergeNode.eval m = f.eval m := by
  rw [eval_eq, eval_eq, missing?_mergeNode, truth_mergeNode]

theorem exists_mergeNested_eval (hf : f.WellFormed) :
    ∃ g, f.mergeNested = .ok g ∧ ∀ m, g.eval m = f.eval m := by
  refine ⟨_, mergeNested_eq_ok hf, fun m => ?_⟩
  exact (isCompositional_eval m).bottomUp (fun _ => wellFormed_mergeNode)
    (fun g _ => eval_mergeNode m g) hf

/-! ### Moving negations inward -/

theorem missing?_conjoin (p : Polarity) (args : List Formula) :
    missing? m (p.conjoin args) = args.findSome? (missing? m) := by
  cases p with
  | positive => exact missing?_and m args
  | negative => exact missing?_or m args

theorem missing?_disjoin (p : Polarity) (args : List Formula) :
    missing? m (p.disjoin args) = args.findSome? (missing? m) := by
  cases p with
  | positive => exact missing?_or m args
  | negative => exact missing?_and m args

/-- Literals stay in their order, so that the first unassigned variable is the same. -/
theorem missing?_nnfAt (hf : f.IsExpanded) (p : Polarity) :
    missing? m (nnfAt p f) = f.missing? m := by
  induction f generalizing p with
  | lit l => rw [nnfAt, missing?, missing?, Polarity.var_onLiteral]
  | not a ih => rw [nnfAt, missing?, ih (hf.operand (by simp [operands]))]
  | implies a b => exact absurd rfl hf.self.1
  | iff a b => exact absurd rfl hf.self.2
  | and args ih =>
    rw [nnfAt, missing?_conjoin, missing?_and, List.findSome?_map]
    exact findSome?_congr fun a ha => ih a ha (hf.operand ha) p
  | or args ih =>
    rw [nnfAt, missing?_disjoin, missing?_or, List.findSome?_map]
    exact findSome?_congr fun a ha => ih a ha (hf.operand ha) p

theorem eval_nnfAt_positive (hf : f.IsExpanded) : (nnfAt .positive f).eval m = f.eval m := by
  rw [eval_eq, eval_eq, missing?_nnfAt hf, truth_nnfAt]
  rfl

theorem exists_negateInward_eval (hf : f.WellFormed) (he : f.IsExpanded) :
    ∃ g, f.negateInward = .ok g ∧ ∀ m, g.eval m = f.eval m :=
  ⟨_, negateInward_eq_ok hf he, fun _ => eval_nnfAt_positive he⟩

/-! ### Multiplying out -/

theorem findSome?_conjunctLeaves (f : Formula) :
    f.conjunctLeaves.findSome? (missing? m) = f.missing? m := by
  induction f with
  | and args ih =>
    rw [conjunctLeaves_and, findSome?_flatMap, missing?_and]
    exact findSome?_congr ih
  | _ =>
    rw [conjunctLeaves_of_not_isAnd rfl]
    exact List.findSome?_singleton

theorem all_truth_conjunctLeaves (σ : Var → Bool) (f : Formula) :
    f.conjunctLeaves.all (truth σ) = f.truth σ := by
  induction f with
  | and args ih =>
    rw [conjunctLeaves_and, List.all_flatMap, truth, ← List.map_congr_left ih, List.all_map]
    rfl
  | _ =>
    rw [conjunctLeaves_of_not_isAnd rfl]
    simp

theorem truth_multiplyNode (σ : Var → Bool) (f : Formula) :
    f.multiplyNode.truth σ = f.truth σ := by
  cases f with
  | or args =>
    rw [multiplyNode_or]
    split
    next =>
      have hchoices := all_any_choices (truth σ) (args.map conjunctLeaves)
      rw [truth_and, List.all_map, truth_or]
      simp only [Function.comp_def, truth_or, hchoices, List.any_map, all_truth_conjunctLeaves]
    next => rfl
  | _ => rfl

theorem missing?_conjunctLeaves_eq_none_iff :
    f.missing? m = none ↔ ∀ b ∈ f.conjunctLeaves, b.missing? m = none := by
  rw [← findSome?_conjunctLeaves, List.findSome?_eq_none_iff]

/-- The same variables are read, in another order: each conjunct is part of some disjunction. -/
theorem missing?_multiplyNode_eq_none_iff (hf : f.WellFormed) :
    f.multiplyNode.missing? m = none ↔ f.missing? m = none := by
  cases f with
  | or args =>
    have hargs := (wellFormed_or.1 hf).2
    rw [multiplyNode_or]
    split
    next =>
      simp only [missing?_and, missing?_or, List.findSome?_eq_none_iff, List.forall_mem_map]
      constructor
      · intro h a ha
        rw [missing?_conjunctLeaves_eq_none_iff]
        intro b hb
        obtain ⟨ys, hys, hb⟩ :=
          exists_mem_choices (conjunctLeaves_lengths_pos hargs) (List.mem_map_of_mem ha) hb
        exact h ys hys b hb
      · intro h ys hys b hb
        obtain ⟨a, ha, hb⟩ := exists_leaf_of_mem_choices hys hb
        exact missing?_conjunctLeaves_eq_none_iff.1 (h a ha) b hb
    next => exact Iff.rfl
  | _ => exact Iff.rfl

theorem eval_multiplyNode_eq_ok_iff (hf : f.WellFormed) {b : Bool} :
    f.multiplyNode.eval m = .ok b ↔ f.eval m = .ok b := by
  rw [eval_eq, eval_eq, faultOr_eq_ok_iff, faultOr_eq_ok_iff, truth_multiplyNode,
    missing?_multiplyNode_eq_none_iff hf]

/-- Values are kept in both directions, through whatever stands above a disjunction. -/
theorem exists_multiplyOut_eval (hf : f.WellFormed) :
    ∃ g, f.multiplyOut = .ok g ∧ ∀ m b, g.eval m = .ok b ↔ f.eval m = .ok b := by
  refine ⟨_, multiplyOut_eq_ok hf, fun m b => ?_⟩
  constructor
  · exact (isCompositional_carriesValues m).bottomUp (fun _ => wellFormed_multiplyNode)
      (fun g hg b => (eval_multiplyNode_eq_ok_iff hg).1) hf b
  · exact (isCompositional_carriesValues_swap m).bottomUp (fun _ => wellFormed_multiplyNode)
      (fun g hg b => (eval_multiplyNode_eq_ok_iff hg).2) hf b

/-! ### Expanding implications -/

/-- The disjunction evaluates its conclusion also where the implication skips it. -/
theorem carriesValues_expandImplies (m : Assignment) (f : Formula) :
    CarriesValues m f.expandImplies f := by
  intro b hb
  cases f with
  | implies a c =>
    rw [expandImplies, eval, List.mapM_cons, List.mapM_cons, List.mapM_nil, eval] at hb
    rw [eval]
    cases ha : a.eval m with
    | error e =>
      rw [ha] at hb
      cases hb
    | ok x =>
      cases hc : c.eval m with
      | error e =>
        rw [ha, hc] at hb
        cases hb
      | ok y =>
        rw [ha, hc] at hb
        cases hb
        cases x with
        | false => rfl
        | true => cases y <;> rfl
  | _ => exact hb

theorem literals_expandImplies (f : Formula) : f.expandImplies.literals = f.literals := by
  cases f with
  | implies a b =>
    rw [expandImplies, literals_or, literals_eq_operands (implies a b)]
    simp [literals_eq_operands (not a), operands, literal?]
  | _ => rfl

theorem vars_bottomUp_expandImplies (f : Formula) : (f.bottomUp expandImplies).vars = f.vars := by
  rw [vars, literals_bottomUp literals_expandImplies, vars]

theorem exists_expandImplications_eval (hf : f.WellFormed) :
    ∃ g, f.expandImplications = .ok g ∧ (∀ m b, g.eval m = .ok b → f.eval m = .ok b) ∧
      ∀ m : Assignment, (∀ v ∈ f.vars, (m v).isSome) →
        ∃ b, g.eval m = .ok b ∧ f.eval m = .ok b := by
  have hcarries : ∀ m, CarriesValues m (f.bottomUp expandImplies) f := fun m =>
    (isCompositional_carriesValues m).bottomUp (fun _ => wellFormed_expandImplies)
      (fun g _ => carriesValues_expandImplies m g) hf
  refine ⟨_, transform_eq_ok hf, hcarries, fun m hm => ?_⟩
  rw [← vars_bottomUp_expandImplies] at hm
  have hg := eval_eq_ok_truth hm
  exact ⟨_, hg, hcarries m _ hg⟩

/-- What each pass does to evaluation under every assignment, total or partial. Expanding
equivalences, merging, and moving negations inward where everything is expanded, keep the outcome,
be it a value or a missing variable. Multiplying out keeps the values, and may only name another
missing variable. Expanding implications brings no value that was not there, and loses none where
all variables are assigned. -/
theorem eval_of_passes {f : Formula} (hw : f.WellFormed) :
    (∃ g, f.expandIffs = .ok g ∧ ∀ m, g.eval m = f.eval m) ∧
      (∃ g, f.mergeNested = .ok g ∧ ∀ m, g.eval m = f.eval m) ∧
      (f.IsExpanded → ∃ g, f.negateInward = .ok g ∧ ∀ m, g.eval m = f.eval m) ∧
      (∃ g, f.multiplyOut = .ok g ∧ ∀ m b, g.eval m = .ok b ↔ f.eval m = .ok b) ∧
      ∃ g, f.expandImplications = .ok g ∧ (∀ m b, g.eval m = .ok b → f.eval m = .ok b) ∧
        ∀ m : Assignment, (∀ v ∈ f.vars, (m v).isSome) →
          ∃ b, g.eval m = .ok b ∧ f.eval m = .ok b :=
  ⟨exists_expandIffs_eval hw, exists_mergeNested_eval hw, exists_negateInward_eval hw,
    exists_multiplyOut_eval hw, exists_expandImplications_eval hw⟩

theorem eval_of_passes_of_unassigned :
    let x1 : Literal := .ofWord 1 (by decide)
    let x2 : Literal := .ofWord 2 (by decide)
    let x3 : Literal := .ofWord 3 (by decide)
    let f := not (or [and [lit x1, lit x2], lit x3])
    let m := Assignment.empty.set x1.var false
    f.WellFormed ∧ f.IsExpanded ∧
      (∃ g, f.negateInward = .ok g ∧ g.eval m = .error (.unassigned x2.var)) ∧
      ∃ g, f.multiplyOut = .ok g ∧ ∀ b, g.eval m ≠ .ok b := by
  intro x1 x2 x3 f m
  have hw : f.WellFormed := by simp [f]
  have he : f.IsExpanded := by
    simp [f, IsExpanded, Everywhere, preorder_eq, operands, connective?]
  have h1 : m x1.var = some false := Assignment.set_self _ _ _
  have h2 : m x2.var = none := Assignment.set_of_ne _ (by decide) _
  have hf : f.eval m = .error (.unassigned x2.var) := by
    have hmiss : f.missing? m = some (.unassigned x2.var) := by
      simp [f, missing?, missing?_or, missing?_and, h1, h2]
    rw [eval_eq, hmiss]
    rfl
  obtain ⟨-, -, hnegate, ⟨d, hd, hvalues⟩, -⟩ := eval_of_passes hw
  obtain ⟨g, hg, heval⟩ := hnegate he
  refine ⟨hw, he, ⟨g, hg, (heval m).trans hf⟩, d, hd, fun b hb => ?_⟩
  have hnone := (hvalues m b).1 hb
  rw [hf] at hnone
  cases hnone

end Clausal.Formula
