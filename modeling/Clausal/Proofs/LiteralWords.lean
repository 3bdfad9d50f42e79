import Clausal.Pass
import Clausal.Proofs.Copying
import Clausal.Proofs.Occurrences

/-! Literals as bare words. The numbers that come from outside are checked on the way in and nothing
is checked after that, yet no negation overflows: words of literals lie in a range that is closed
under negation, and the passes add no literals but negated ones. -/
namespace Clausal

/-- A way to make a literal. -/
inductive Construction where
  | validated (n : Int64)
  | promised (n : Int64)
  | promised32 (n : Int32)
  | ofVar (v : Var)
  /-- What stands behind a reference. -/
  | reference (c : Construction)
  | negated (c : Construction)

/-- Why a machine stops. -/
inductive Trap where
  | fault (e : Fault)
  /-- The least word has been negated. -/
  | overflow
  deriving DecidableEq, Repr

namespace Construction

def literal : Construction → Except Fault Literal
  | validated n => Literal.validate n
  | promised n => Literal.ofInt64 n
  | promised32 n => Literal.ofInt32 n
  | ofVar v => v.literal
  | reference c => c.literal
  | negated c => c.literal.map Neg.neg

def promisedWord (n : Int64) : Except Trap Int64 :=
  if Literal.InRange n then .ok n else .error (.fault (.broken .literalRange))

/-- The word that a machine makes. A negation takes any word there is, and stops the machine if it
overflows. -/
def word : Construction → Except Trap Int64
  | validated n =>
    if Literal.InRange n then .ok n else .error (.fault (.invalidLiteral n))
  | promised n => promisedWord n
  | promised32 n => promisedWord n.toInt64
  | ofVar v =>
    if v.index ≠ 0 ∧ v.index ≤ 0x7fffffffffffffff then promisedWord v.index.toInt64
    else .error (.fault (.broken .variableRange))
  | reference c => c.word
  | negated c => do
    let n ← c.word
    if n = Int64.minValue then .error .overflow else return -n

end Construction

/-- The word of a literal, or the trap that its fault is. -/
def trapped : Except Fault Literal → Except Trap Int64
  | .ok l => .ok l.code
  | .error e => .error (.fault e)

theorem Literal.trapped_validate (n : Int64) :
    trapped (validate n) = if InRange n then .ok n else .error (.fault (.invalidLiteral n)) := by
  unfold validate ofInt64?
  by_cases h : InRange n <;> simp [h, trapped, ofWord]

theorem Literal.trapped_ofInt64 (n : Int64) :
    trapped (ofInt64 n) = Construction.promisedWord n := by
  unfold ofInt64 ofInt64? Construction.promisedWord
  by_cases h : InRange n <;> simp [h, trapped, ofWord]

theorem Var.toInt64_index (v : Var) : Int64.ofNat v.index.toNat = v.index.toInt64 := by
  rw [← Int64.toBitVec_inj]
  simp

theorem Var.inRange_iff (v : Var) :
    (v.index ≠ 0 ∧ v.index ≤ 0x7fffffffffffffff) ↔
      0 < v.index.toNat ∧ v.index.toNat ≤ Literal.maxIndex := by
  rw [UInt64.le_iff_toNat_le, ne_eq, ← UInt64.toNat_inj]
  simp [Literal.maxIndex, Nat.pos_iff_ne_zero]

theorem Var.trapped_literal (v : Var) :
    trapped v.literal =
      if v.index ≠ 0 ∧ v.index ≤ 0x7fffffffffffffff then Construction.promisedWord v.index.toInt64
      else .error (.fault (.broken .variableRange)) := by
  rw [literal, v.toInt64_index]
  simp only [v.inRange_iff]
  split
  next => exact Literal.trapped_ofInt64 _
  next => rfl

theorem Construction.word_negated {c : Construction} {l : Literal} (h : c.word = .ok l.code) :
    (negated c).word = .ok (-l).code := by
  rw [word, h]
  show (if l.code = Int64.minValue then _ else _) = _
  rw [if_neg l.code_ne_minValue]
  rfl

/-- The bare machine makes the words of the literals and stops at their faults only. -/
theorem Construction.word_eq (c : Construction) : c.word = trapped c.literal := by
  induction c with
  | validated n => exact (Literal.trapped_validate n).symm
  | promised n => exact (Literal.trapped_ofInt64 n).symm
  | promised32 n => exact (Literal.trapped_ofInt64 n.toInt64).symm
  | ofVar v => exact (Var.trapped_literal v).symm
  | reference c ih => exact ih
  | negated c ih =>
    cases hc : c.literal with
    | error e =>
      rw [word, literal, ih, hc]
      rfl
    | ok l =>
      have hword : c.word = .ok l.code := by
        rw [ih, hc]
        rfl
      rw [word_negated hword, literal, hc]
      rfl

theorem trapped_eq_ok_iff {x : Except Fault Literal} {n : Int64} :
    trapped x = .ok n ↔ ∃ l, x = .ok l ∧ l.code = n := by
  cases x <;> simp [trapped]

/-- What a literal has that is made in one of the ways. -/
structure Literal.IsRegular (l : Literal) : Prop where
  range : -0x7fffffffffffffff ≤ l.toInt ∧ l.toInt ≤ -1 ∨
    1 ≤ l.toInt ∧ l.toInt ≤ 0x7fffffffffffffff
  /-- The machine negates without overflow. -/
  toInt_neg : (-l).toInt = -l.toInt
  neg_neg : - -l = l
  index_var : 1 ≤ l.var.index.toNat ∧ l.var.index.toNat ≤ 0x7fffffffffffffff
  /-- The variable has a literal, which is this one up to the sign. -/
  literal_var : ∃ m, l.var.literal = .ok m ∧ l = if l.isNegative then -m else m

theorem Literal.index_var_range (l : Literal) :
    0 < l.var.index.toNat ∧ l.var.index.toNat ≤ maxIndex := by
  have hne := l.toInt_ne_zero
  have hle := l.natAbs_toInt_le
  rw [toNat_index_var]
  omega

/-- The literal without its sign. -/
theorem Literal.literal_var (l : Literal) :
    l.var.literal = .ok (if l.isNegative then -l else l) := by
  have hrange := l.index_var_range
  have hcode : Int64.ofNat l.var.index.toNat = (if l.isNegative then -l else l).code := by
    have hindex : (Int64.ofNat l.var.index.toNat).toInt = l.var.index.toNat := by
      apply Int64.toInt_ofNat_of_lt
      simp only [maxIndex] at hrange
      omega
    rw [← Int64.toInt_inj, hindex, toNat_index_var]
    show _ = (if l.isNegative then -l else l).toInt
    by_cases hneg : l.toInt < 0
    · simp only [isNegative, hneg, decide_true, if_true, toInt_neg]
      omega
    · simp only [isNegative, hneg, decide_false, Bool.false_eq_true, if_false]
      omega
  rw [Var.literal, if_pos hrange, hcode, ofInt64_code]

theorem Literal.isRegular (l : Literal) : l.IsRegular := by
  have hne := l.toInt_ne_zero
  have hle := l.natAbs_toInt_le
  have hindex := l.index_var_range
  simp only [maxIndex] at hle hindex
  refine ⟨by omega, l.toInt_neg, l.neg_neg, by omega, _, l.literal_var, ?_⟩
  split <;> simp

namespace Formula

/-! ### Where literals come from -/

/-- Every literal that occurs has the property. -/
def IsOver (P : Literal → Prop) (f : Formula) : Prop := f.Everywhere fun g => ∀ l, g = lit l → P l

variable {P : Literal → Prop}

theorem isOver_iff_forall_mem {f : Formula} : f.IsOver P ↔ ∀ l ∈ f.literals, P l := by
  rw [literals_eq]
  simp only [IsOver, Everywhere, List.mem_filterMap]
  constructor
  · rintro h l ⟨g, hg, hl⟩
    refine h g hg l ?_
    cases g <;> simp_all [literal?]
  · rintro h g hg l rfl
    exact h l ⟨lit l, hg, rfl⟩

@[simp] theorem isOver_lit {l : Literal} : (lit l).IsOver P ↔ P l := by
  rw [isOver_iff_forall_mem, literals_lit]
  simp

theorem isOver_of_connective? {f : Formula} {c : Connective} (hc : f.connective? = some c) :
    f.IsOver P ↔ ∀ a ∈ f.operands, a.IsOver P := by
  simp only [isOver_iff_forall_mem, literals_of_connective? hc, List.mem_flatMap]
  grind

@[simp] theorem isOver_not {a : Formula} : (not a).IsOver P ↔ a.IsOver P := by
  simp [isOver_of_connective? (f := not a) rfl, operands]

@[simp] theorem isOver_implies {a b : Formula} :
    (implies a b).IsOver P ↔ a.IsOver P ∧ b.IsOver P := by
  simp [isOver_of_connective? (f := implies a b) rfl, operands]

@[simp] theorem isOver_iff {a b : Formula} : (iff a b).IsOver P ↔ a.IsOver P ∧ b.IsOver P := by
  simp [isOver_of_connective? (f := iff a b) rfl, operands]

@[simp] theorem isOver_and {args : List Formula} : (and args).IsOver P ↔ ∀ a ∈ args, a.IsOver P :=
  isOver_of_connective? rfl

@[simp] theorem isOver_or {args : List Formula} : (or args).IsOver P ↔ ∀ a ∈ args, a.IsOver P :=
  isOver_of_connective? rfl

/-- A rewriting whose steps bring in no other literals brings in none. -/
theorem IsOver.bottomUp {step : Formula → Formula} (hstep : ∀ g, g.IsOver P → (step g).IsOver P)
    {f : Formula} (hf : f.IsOver P) : (f.bottomUp step).IsOver P := by
  refine Everywhere.bottomUp (fun g hg l hl => hg l ?_) hstep hf
  cases g <;> simp_all [mapOperands]

theorem IsOver.expandIff {f : Formula} (h : f.IsOver P) : f.expandIff.IsOver P := by
  cases f with
  | iff a b => simpa [Formula.expandIff, and_comm] using h
  | _ => exact h

theorem IsOver.expandImplies {f : Formula} (h : f.IsOver P) : f.expandImplies.IsOver P := by
  cases f with
  | implies a b => simpa [Formula.expandImplies] using h
  | _ => exact h

theorem IsOver.mergeNode {f : Formula} (h : f.IsOver P) : f.mergeNode.IsOver P := by
  cases f with
  | and args =>
    rw [mergeNode_and, isOver_and]
    exact everywhere_parts (isOver_and.1 h)
  | or args =>
    rw [mergeNode_or, isOver_or]
    exact everywhere_parts (isOver_or.1 h)
  | _ => exact h

theorem IsOver.multiplyNode {f : Formula} (h : f.IsOver P) : f.multiplyNode.IsOver P := by
  cases f with
  | or args =>
    rw [multiplyNode_or]
    split
    next => exact everywhere_multiplied (isOver_or.1 h) nofun fun _ _ => nofun
    next => exact h
  | _ => exact h

@[simp] theorem isOver_conjoin {p : Polarity} {args : List Formula} :
    (p.conjoin args).IsOver P ↔ ∀ a ∈ args, a.IsOver P := by
  cases p with
  | positive => exact isOver_and
  | negative => exact isOver_or

@[simp] theorem isOver_disjoin {p : Polarity} {args : List Formula} :
    (p.disjoin args).IsOver P ↔ ∀ a ∈ args, a.IsOver P := by
  cases p with
  | positive => exact isOver_or
  | negative => exact isOver_and

/-- Literals are negated on their way into negation normal form. -/
theorem IsOver.nnfAt (hneg : ∀ l, P l → P (-l)) {f : Formula} (h : f.IsOver P) (p : Polarity) :
    (nnfAt p f).IsOver P := by
  induction f generalizing p with
  | lit l =>
    have hl := isOver_lit.1 h
    cases p with
    | positive => simpa [Formula.nnfAt] using hl
    | negative => simpa [Formula.nnfAt] using hneg l hl
  | not a ih =>
    rw [Formula.nnfAt]
    exact ih (isOver_not.1 h) p.flip
  | implies a b iha ihb =>
    obtain ⟨ha, hb⟩ := isOver_implies.1 h
    simp [Formula.nnfAt, iha ha, ihb hb]
  | iff a b iha ihb =>
    obtain ⟨ha, hb⟩ := isOver_iff.1 h
    simp [Formula.nnfAt, iha ha, ihb hb]
  | and args ih =>
    rw [Formula.nnfAt, isOver_conjoin, List.forall_mem_map]
    exact fun a ha => ih a ha (isOver_and.1 h a ha) p
  | or args ih =>
    rw [Formula.nnfAt, isOver_disjoin, List.forall_mem_map]
    exact fun a ha => ih a ha (isOver_or.1 h a ha) p

theorem IsOver.transform {step : Formula → Formula} (hstep : ∀ g, g.IsOver P → (step g).IsOver P)
    {f g : Formula} (hf : f.IsOver P) (hg : f.transform step = .ok g) : g.IsOver P := by
  rw [transform_eq, faultOr_eq_ok_iff] at hg
  obtain ⟨-, rfl⟩ := hg
  exact hf.bottomUp hstep

theorem IsOver.negateInward (hneg : ∀ l, P l → P (-l)) {f g : Formula} (hf : f.IsOver P)
    (hg : f.negateInward = .ok g) : g.IsOver P := by
  rw [negateInward_eq, faultOr_eq_ok_iff] at hg
  obtain ⟨-, rfl⟩ := hg
  exact hf.nnfAt hneg .positive

theorem IsOver.nnf (hneg : ∀ l, P l → P (-l)) {f g : Formula} (hf : f.IsOver P)
    (hg : f.nnf = .ok g) : g.IsOver P := by
  obtain ⟨f₁, h₁, hrest⟩ := bind_eq_ok_iff.1 hg
  obtain ⟨f₂, h₂, h₃⟩ := bind_eq_ok_iff.1 hrest
  have hf₁ : f₁.IsOver P := hf.transform (fun _ => IsOver.expandIff) h₁
  have hf₂ : f₂.IsOver P := hf₁.transform (fun _ => IsOver.expandImplies) h₂
  exact hf₂.negateInward hneg h₃

theorem Rounds.isOver {f r : Formula} {k : Nat} (h : Rounds f k r) (hf : f.IsOver P) :
    r.IsOver P := by
  induction h with
  | stop => exact hf
  | round _ merge multiply _ ih =>
    have hmerged := hf.transform (fun _ => IsOver.mergeNode) merge
    exact ih (hmerged.transform (fun _ => IsOver.multiplyNode) multiply)

theorem IsOver.clausalForm (hneg : ∀ l, P l → P (-l)) {f g : Formula} (hf : f.IsOver P)
    (hg : f.clausalForm = .ok g) : g.IsOver P := by
  obtain ⟨f₁, h₁, hrest⟩ := bind_eq_ok_iff.1 hg
  obtain ⟨⟨r, k⟩, hsettle, hr⟩ := bind_eq_ok_iff.1 hrest
  cases hr
  exact (settle_eq_ok_iff.1 hsettle).2.isOver (hf.nnf hneg h₁)

/-- What a pass leaves is over the literals of the formula and their opposites. -/
theorem IsOver.pass (hneg : ∀ l, P l → P (-l)) {p : Pass} {f g : Formula} (hf : f.IsOver P)
    (hg : p.apply f = .ok g) : g.IsOver P := by
  cases p with
  | expandIffs => exact hf.transform (fun _ => IsOver.expandIff) hg
  | expandImplications => exact hf.transform (fun _ => IsOver.expandImplies) hg
  | negateInward => exact hf.negateInward hneg hg
  | nnf => exact hf.nnf hneg hg
  | mergeNested => exact hf.transform (fun _ => IsOver.mergeNode) hg
  | multiplyOut => exact hf.transform (fun _ => IsOver.multiplyNode) hg
  | clausalForm => exact hf.clausalForm hneg hg

/-- What operators, copies and passes make of literals with the property, in any number of steps. A
node may have any number of operands. -/
inductive MadeOf (P : Literal → Prop) : Formula → Prop
  | lit {l : Literal} (has : P l) : MadeOf P (lit l)
  | node {f : Formula} {c : Connective} (node : f.connective? = some c)
      (operands : ∀ a ∈ f.operands, MadeOf P a) : MadeOf P f
  | copy {f g : Formula} (made : MadeOf P f) (copied : f.copy = .ok g) : MadeOf P g
  | pass {p : Pass} {f g : Formula} (made : MadeOf P f) (applied : p.apply f = .ok g) : MadeOf P g

theorem MadeOf.isOver {f : Formula} (h : f.MadeOf P) : f.IsOver fun l => P l ∨ P (-l) := by
  induction h with
  | lit has => exact isOver_lit.2 (.inl has)
  | node node _ ih => exact (isOver_of_connective? node).2 ih
  | copy _ copied ih =>
    rw [copy_eq_ok] at copied
    cases copied
    exact ih
  | pass _ applied ih =>
    refine ih.pass (fun l hl => ?_) applied
    rw [Literal.neg_neg]
    exact hl.symm

end Formula

open Formula

namespace Construction

/-- No way to make a literal negates the least word. Every word that is made is the word of a
literal, so that it lies in the range that is closed under negation, and its variable has a literal.
A formula that operators, copies and passes make of literals has no literals but these and their
opposites; so the words in it are again words that can be made. -/
theorem literal_of_word :
    (∀ c : Construction, c.word ≠ .error .overflow) ∧
    (∀ (c : Construction) (n : Int64), c.word = .ok n →
      ∃ l, c.literal = .ok l ∧ l.code = n ∧ l.IsRegular) ∧
    (∀ (P : Literal → Prop) (f : Formula), f.MadeOf P → ∀ l ∈ f.literals, P l ∨ P (-l)) ∧
    ∀ f : Formula, f.MadeOf (fun l => ∃ c : Construction, c.word = .ok l.code) →
      ∀ l ∈ f.literals, (∃ c : Construction, c.word = .ok l.code) ∧ l.IsRegular := by
  refine ⟨fun c => ?_, fun c n h => ?_, fun P f h => isOver_iff_forall_mem.1 h.isOver,
    fun f h l hl => ?_⟩
  · rw [word_eq]
    cases c.literal <;> simp [trapped]
  · rw [word_eq, trapped_eq_ok_iff] at h
    obtain ⟨l, hl, hcode⟩ := h
    exact ⟨l, hl, hcode, l.isRegular⟩
  · refine ⟨?_, l.isRegular⟩
    rcases isOver_iff_forall_mem.1 h.isOver l hl with ⟨c, hc⟩ | ⟨c, hc⟩
    · exact ⟨c, hc⟩
    · refine ⟨negated c, ?_⟩
      rw [word_negated hc, Literal.neg_neg]

/-- The greatest variable has a literal of either sign, and a pass may turn it once more. -/
theorem literal_of_word_of_greatest_variable :
    let c := negated (.ofVar ⟨0x7fffffffffffffff⟩)
    let n : Int64 := -0x7fffffffffffffff
    let l : Literal := .ofWord n (by decide)
    let f : Formula := .not (.and [.lit l, .lit (-l)])
    let g : Formula := .or [.lit (-l), .lit l]
    c.word = .ok n ∧ (∃ m, c.literal = .ok m ∧ m.code = n ∧ m.IsRegular) ∧
      Pass.negateInward.apply f = .ok g ∧
      g.MadeOf (fun m => ∃ d : Construction, d.word = .ok m.code) ∧
      ∀ m ∈ g.literals, (∃ d : Construction, d.word = .ok m.code) ∧ m.IsRegular := by
  intro c n l f g
  obtain ⟨-, hword, -, hmade⟩ := literal_of_word
  have hc : c.word = .ok n := rfl
  have hg : Pass.negateInward.apply f = .ok g := by
    rw [Pass.apply, negateInward_eq]
    simp [f, g, negationFault?_and, negationFault?, nnfAt, joinFault?, faultOr, Polarity.conjoin]
  have hf : f.MadeOf fun m => ∃ d : Construction, d.word = .ok m.code := by
    have hl : (Formula.lit l).MadeOf fun m => ∃ d : Construction, d.word = .ok m.code :=
      .lit ⟨c, hc⟩
    have hn : (Formula.lit (-l)).MadeOf fun m => ∃ d : Construction, d.word = .ok m.code :=
      .lit ⟨negated c, word_negated hc⟩
    refine .node (c := .not) rfl (List.forall_mem_singleton.2 (.node (c := .and) rfl ?_))
    simpa [operands] using And.intro hl hn
  exact ⟨hc, hword c n hc, hg, hf.pass hg, hmade g (hf.pass hg)⟩

end Construction

end Clausal
