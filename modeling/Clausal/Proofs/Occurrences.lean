import Clausal.Proofs.NegationNormalForm

/-! The literals and variables that occur in a formula. -/
namespace Clausal

theorem exists_mem_map_iff {α β : Type} {g : α → β} {xs : List α} {P : β → Prop} {Q : α → Prop}
    (h : ∀ x ∈ xs, P (g x) ↔ Q x) : (∃ y ∈ xs.map g, P y) ↔ ∃ x ∈ xs, Q x := by
  constructor
  · intro hex
    obtain ⟨y, hy, hp⟩ := hex
    obtain ⟨x, hx, rfl⟩ := List.mem_map.1 hy
    exact ⟨x, hx, (h x hx).1 hp⟩
  · intro hex
    obtain ⟨x, hx, hq⟩ := hex
    exact ⟨g x, List.mem_map_of_mem hx, (h x hx).2 hq⟩

namespace Formula

theorem literals_eq (f : Formula) : f.literals = f.preorder.filterMap literal? := by
  have hfold : ∀ (fs : List Formula) (seen : List Literal),
      (fs.foldl (fun seen g => g.literal?.toList ++ seen) seen).reverse =
        seen.reverse ++ fs.filterMap literal? := by
    intro fs
    induction fs with
    | nil => simp
    | cons g fs ih =>
      intro seen
      rw [List.foldl_cons, ih]
      cases hg : g.literal? <;> simp [hg]
  rw [literals, foldNodes_eq_foldl, hfold]
  rfl

theorem literals_eq_operands (f : Formula) :
    f.literals = f.literal?.toList ++ f.operands.flatMap literals := by
  have hoperands : (f.operands.flatMap preorder).filterMap literal? =
      f.operands.flatMap literals := by
    rw [List.filterMap_flatMap]
    simp only [← literals_eq]
  rw [literals_eq, preorder_eq, List.filterMap_cons, hoperands]
  cases f.literal? <;> rfl

theorem literals_of_connective? {f : Formula} {c : Connective} (h : f.connective? = some c) :
    f.literals = f.operands.flatMap literals := by
  have hliteral : f.literal? = none := by
    cases f with
    | lit l => contradiction
    | _ => rfl
  rw [literals_eq_operands f, hliteral]
  rfl

theorem literals_lit (l : Literal) : (lit l).literals = [l] := by
  rw [literals_eq_operands]
  simp [literal?, operands]

theorem literals_not (a : Formula) : (not a).literals = a.literals := by
  rw [literals_eq_operands]
  simp [literal?, operands]

theorem literals_and (args : List Formula) : (and args).literals = args.flatMap literals := by
  rw [literals_eq_operands]
  rfl

theorem literals_or (args : List Formula) : (or args).literals = args.flatMap literals := by
  rw [literals_eq_operands]
  rfl

theorem literals_conjoin (p : Polarity) (args : List Formula) :
    (p.conjoin args).literals = args.flatMap literals := by
  cases p with
  | positive => exact literals_and args
  | negative => exact literals_or args

theorem literals_disjoin (p : Polarity) (args : List Formula) :
    (p.disjoin args).literals = args.flatMap literals := by
  cases p with
  | positive => exact literals_or args
  | negative => exact literals_and args

theorem literal?_mapOperands (φ : Formula → Formula) (f : Formula) :
    (f.mapOperands φ).literal? = f.literal? := by
  cases f <;> rfl

theorem literals_mapOperands {φ : Formula → Formula} {f : Formula}
    (h : ∀ a ∈ f.operands, (φ a).literals = a.literals) :
    (f.mapOperands φ).literals = f.literals := by
  rw [literals_eq_operands, literals_eq_operands f, literal?_mapOperands, operands_mapOperands,
    List.flatMap, List.flatMap, map_map_congr h]

/-- A rewriting whose steps keep the literals, in order and with repetitions, keeps them. -/
theorem literals_bottomUp {step : Formula → Formula} (h : ∀ g, (step g).literals = g.literals)
    (f : Formula) : (f.bottomUp step).literals = f.literals := by
  induction f using induction_operands with
  | step f ih => rw [bottomUp_eq, h, literals_mapOperands ih]

theorem mem_literals {l : Literal} {f : Formula} :
    l ∈ f.literals ↔ f = lit l ∨ ∃ a ∈ f.operands, l ∈ a.literals := by
  rw [literals_eq, preorder_eq]
  simp only [literals_eq, List.filterMap_cons, List.filterMap_flatMap]
  cases f <;> simp [literal?, operands, eq_comm]

theorem mem_vars {v : Var} {f : Formula} : v ∈ f.vars ↔ ∃ l ∈ f.literals, l.var = v := by
  rw [vars, Var.mem_ascending, List.mem_map]

theorem mem_vars_iff_operands {v : Var} {f : Formula} :
    v ∈ f.vars ↔ (∃ l, f = lit l ∧ l.var = v) ∨ ∃ a ∈ f.operands, v ∈ a.vars := by
  simp only [mem_vars]
  constructor
  · intro hex
    obtain ⟨l, hl, hv⟩ := hex
    rcases mem_literals.1 hl with hf | ⟨a, ha, hla⟩
    · exact .inl ⟨l, hf, hv⟩
    · exact .inr ⟨a, ha, l, hla, hv⟩
  · rintro (⟨l, hf, hv⟩ | ⟨a, ha, l, hla, hv⟩)
    · exact ⟨l, mem_literals.2 (.inl hf), hv⟩
    · exact ⟨l, mem_literals.2 (.inr ⟨a, ha, hla⟩), hv⟩

@[simp] theorem mem_vars_lit {v : Var} {l : Literal} : v ∈ (lit l).vars ↔ l.var = v := by
  rw [mem_vars_iff_operands]
  simp [operands]

@[simp] theorem mem_vars_not {v : Var} {a : Formula} : v ∈ (not a).vars ↔ v ∈ a.vars := by
  rw [mem_vars_iff_operands]
  simp [operands]

@[simp] theorem mem_vars_implies {v : Var} {a b : Formula} :
    v ∈ (implies a b).vars ↔ v ∈ a.vars ∨ v ∈ b.vars := by
  rw [mem_vars_iff_operands]
  simp [operands]

@[simp] theorem mem_vars_iff {v : Var} {a b : Formula} :
    v ∈ (iff a b).vars ↔ v ∈ a.vars ∨ v ∈ b.vars := by
  rw [mem_vars_iff_operands]
  simp [operands]

@[simp] theorem mem_vars_and {v : Var} {args : List Formula} :
    v ∈ (and args).vars ↔ ∃ a ∈ args, v ∈ a.vars := by
  rw [mem_vars_iff_operands]
  simp [operands]

@[simp] theorem mem_vars_or {v : Var} {args : List Formula} :
    v ∈ (or args).vars ↔ ∃ a ∈ args, v ∈ a.vars := by
  rw [mem_vars_iff_operands]
  simp [operands]

@[simp] theorem mem_vars_conjoin {v : Var} {p : Polarity} {args : List Formula} :
    v ∈ (p.conjoin args).vars ↔ ∃ a ∈ args, v ∈ a.vars := by
  cases p with
  | positive => exact mem_vars_and
  | negative => exact mem_vars_or

@[simp] theorem mem_vars_disjoin {v : Var} {p : Polarity} {args : List Formula} :
    v ∈ (p.disjoin args).vars ↔ ∃ a ∈ args, v ∈ a.vars := by
  cases p with
  | positive => exact mem_vars_or
  | negative => exact mem_vars_and

theorem mem_vars_of_mem_operands {f a : Formula} {v : Var} (ha : a ∈ f.operands)
    (hv : v ∈ a.vars) : v ∈ f.vars := by
  obtain ⟨l, hl, rfl⟩ := mem_vars.1 hv
  exact mem_vars.2 ⟨l, mem_literals.2 (.inr ⟨a, ha, hl⟩), rfl⟩

/-- Moving negations inward keeps the variables. -/
theorem mem_vars_nnfAt (p : Polarity) {f : Formula} {v : Var} :
    v ∈ (nnfAt p f).vars ↔ v ∈ f.vars := by
  induction f generalizing p with
  | lit l => simp [nnfAt]
  | not a ih => simp [nnfAt, ih]
  | implies a b iha ihb => simp [nnfAt, iha, ihb]
  | iff a b iha ihb =>
    simp only [nnfAt, mem_vars_conjoin, mem_vars_disjoin, mem_vars_iff, List.mem_cons,
      List.not_mem_nil, or_false, exists_eq_or_imp, exists_eq_left, iha, ihb]
    rw [or_comm (a := v ∈ b.vars), or_self_iff]
  | and args ih =>
    rw [nnfAt, mem_vars_conjoin, mem_vars_and]
    exact exists_mem_map_iff fun a ha => ih a ha p
  | or args ih =>
    rw [nnfAt, mem_vars_disjoin, mem_vars_or]
    exact exists_mem_map_iff fun a ha => ih a ha p

end Formula

end Clausal
