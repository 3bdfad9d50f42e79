import Clausal.NegationNormal
import Clausal.Proofs.BottomUp

/-! Negation normal form as one recursion that carries the polarity down, and what moving negations
inward refuses. -/
namespace Clausal

namespace Polarity

/-- A conjunction as it reads under negations of the polarity. -/
def conjoin : Polarity → List Formula → Formula
  | positive => .and
  | negative => .or

def disjoin : Polarity → List Formula → Formula
  | positive => .or
  | negative => .and

theorem ofConnective_and (p : Polarity) (args : List Formula) :
    Formula.ofConnective (p.onConnective .and) args =
      if 2 ≤ args.length then .ok (p.conjoin args)
      else .error (.arity (p.onConnective .and) args.length) := by
  have h : Formula.ofOperands? (p.onConnective .and) args = some (p.conjoin args) := by
    cases p <;> rfl
  rw [Formula.ofConnective_of_ofOperands? h, arity_onConnective]
  rfl

theorem ofConnective_or (p : Polarity) (args : List Formula) :
    Formula.ofConnective (p.onConnective .or) args =
      if 2 ≤ args.length then .ok (p.disjoin args)
      else .error (.arity (p.onConnective .or) args.length) := by
  have h : Formula.ofOperands? (p.onConnective .or) args = some (p.disjoin args) := by
    cases p <;> rfl
  rw [Formula.ofConnective_of_ofOperands? h, arity_onConnective]
  rfl

end Polarity

namespace Formula

/-- The formula, or its negation if the polarity is negative, in literals, conjunctions and
disjunctions alone. -/
def nnfAt : Polarity → Formula → Formula
  | p, lit l => lit (p.onLiteral l)
  | p, not a => nnfAt p.flip a
  | p, implies a b => p.disjoin [nnfAt p.flip a, nnfAt p b]
  | p, iff a b =>
    p.conjoin [p.disjoin [nnfAt p.flip a, nnfAt p b], p.disjoin [nnfAt p.flip b, nnfAt p a]]
  | p, and args => p.conjoin (args.map fun a => nnfAt p a)
  | p, or args => p.disjoin (args.map fun a => nnfAt p a)

/-- The fault of a node that stands for the connective and has the number of operands. -/
def joinFault? (c : Connective) (n : Nat) : Option Fault :=
  if 2 ≤ n then none else some (.arity c n)

/-- The first fault in moving negations inward: an unexpanded connective counts on entering it, a
short node on leaving it. -/
def negationFault? : Polarity → Formula → Option Fault
  | _, lit _ => none
  | p, not a => negationFault? p.flip a
  | _, implies _ _ => some (.unexpanded .implies)
  | _, iff _ _ => some (.unexpanded .iff)
  | p, and args => (args.attach.findSome? fun ⟨a, _⟩ => negationFault? p a).or
      (joinFault? (p.onConnective .and) args.length)
  | p, or args => (args.attach.findSome? fun ⟨a, _⟩ => negationFault? p a).or
      (joinFault? (p.onConnective .or) args.length)

theorem negationFault?_and (p : Polarity) (args : List Formula) :
    negationFault? p (and args) =
      (args.findSome? (negationFault? p)).or (joinFault? (p.onConnective .and) args.length) := by
  rw [negationFault?, List.findSome?_subtype (g := negationFault? p) fun _ _ => rfl,
    List.unattach_attach]

theorem negationFault?_or (p : Polarity) (args : List Formula) :
    negationFault? p (or args) =
      (args.findSome? (negationFault? p)).or (joinFault? (p.onConnective .or) args.length) := by
  rw [negationFault?, List.findSome?_subtype (g := negationFault? p) fun _ _ => rfl,
    List.unattach_attach]

theorem dropsUnary_negating : negating.DropsUnary := by
  intro p f p' h
  cases f with
  | not a => rfl
  | _ => cases h

theorem outcome_walk_negating_descend {p : Polarity} {c : Connective} {f : Formula}
    {g : List Formula → Formula} (he : enterNegated p f = .descend c p)
    (hj : ∀ args, ofConnective c args =
      if 2 ≤ args.length then .ok (g args) else .error (.arity c args.length))
    (ih : ∀ a ∈ f.operands,
      Traversal.outcome (negating.walk p a) = faultOr (negationFault? p a) (nnfAt p a)) :
    Traversal.outcome (negating.walk p f) =
      faultOr ((f.operands.findSome? (negationFault? p)).or (joinFault? c f.operands.length))
        (g (f.operands.map (nnfAt p))) := by
  rw [Traversal.walk_descend he, Traversal.outcome_bind, Traversal.outcome_mapM,
    mapM_eq_faultOr ih]
  cases f.operands.findSome? (negationFault? p) with
  | some e => rfl
  | none =>
    show Traversal.outcome (negating.close c _) = _
    rw [Traversal.outcome_close]
    simp only [negating, hj, List.length_map, Option.none_or, joinFault?]
    split <;> rfl

theorem outcome_walk_negating (p : Polarity) (f : Formula) :
    Traversal.outcome (negating.walk p f) = faultOr (negationFault? p f) (nnfAt p f) := by
  induction f generalizing p with
  | lit l =>
    rw [Traversal.walk_result rfl, negationFault?, nnfAt]
    rfl
  | not a ih =>
    have he : negating.enter p (not a) = .skip p.flip := rfl
    rw [Traversal.walk_skip he rfl, ih, negationFault?, nnfAt]
  | implies a b _ _ =>
    rw [Traversal.walk_refuse rfl, negationFault?]
    rfl
  | iff a b _ _ =>
    rw [Traversal.walk_refuse rfl, negationFault?]
    rfl
  | and args ih =>
    rw [outcome_walk_negating_descend (f := and args) rfl p.ofConnective_and fun a ha => ih a ha p,
      negationFault?_and, nnfAt]
    rfl
  | or args ih =>
    rw [outcome_walk_negating_descend (f := or args) rfl p.ofConnective_or fun a ha => ih a ha p,
      negationFault?_or, nnfAt]
    rfl

/-- Moving negations inward is the recursion, up to the first fault. -/
theorem negateInward_eq (f : Formula) :
    f.negateInward = faultOr (negationFault? .positive f) (nnfAt .positive f) := by
  rw [← outcome_walk_negating, ← Traversal.run_eq_walk dropsUnary_negating]
  rfl

theorem wellFormed_expandIff {f : Formula} (h : f.WellFormed) : f.expandIff.WellFormed := by
  cases f with
  | iff a b => simpa [expandIff, and_comm] using h
  | _ => exact h

theorem wellFormed_expandImplies {f : Formula} (h : f.WellFormed) :
    f.expandImplies.WellFormed := by
  cases f with
  | implies a b => simpa [expandImplies] using h
  | _ => exact h

theorem joinFault?_eq_none_iff {c : Connective} {n : Nat} : joinFault? c n = none ↔ 2 ≤ n := by
  unfold joinFault?
  split
  next h => exact ⟨fun _ => h, fun _ => rfl⟩
  next h => exact ⟨nofun, fun hn => absurd hn h⟩

/-- Negations meet no obstacle once equivalences and then implications are expanded. -/
theorem negationFault?_expanded {f : Formula} (h : f.WellFormed) (p : Polarity) :
    negationFault? p ((f.bottomUp expandIff).bottomUp expandImplies) = none := by
  induction f generalizing p with
  | lit l => simp [bottomUp, expandIff, expandImplies, negationFault?]
  | not a ih =>
    simp [bottomUp, expandIff, expandImplies, negationFault?, ih (by simpa using h)]
  | implies a b iha ihb =>
    have hab := wellFormed_implies.1 h
    simp [bottomUp, expandIff, expandImplies, negationFault?_or, negationFault?, iha hab.1,
      ihb hab.2, joinFault?]
  | iff a b iha ihb =>
    have hab := wellFormed_iff.1 h
    simp [bottomUp, expandIff, expandImplies, negationFault?_or, negationFault?_and,
      negationFault?, iha hab.1, ihb hab.2, joinFault?]
  | and args ih =>
    obtain ⟨hlen, hargs⟩ := wellFormed_and.1 h
    simp only [bottomUp, expandIff, expandImplies, negationFault?_and, List.map_map,
      Option.or_eq_none_iff, List.findSome?_eq_none_iff, List.mem_map]
    refine ⟨?_, joinFault?_eq_none_iff.2 (by simpa using hlen)⟩
    rintro g ⟨a, ha, rfl⟩
    exact ih a ha (hargs a ha) p
  | or args ih =>
    obtain ⟨hlen, hargs⟩ := wellFormed_or.1 h
    simp only [bottomUp, expandIff, expandImplies, negationFault?_or, List.map_map,
      Option.or_eq_none_iff, List.findSome?_eq_none_iff, List.mem_map]
    refine ⟨?_, joinFault?_eq_none_iff.2 (by simpa using hlen)⟩
    rintro g ⟨a, ha, rfl⟩
    exact ih a ha (hargs a ha) p

theorem nnfAt_mapOperands {φ : Formula → Formula} {f : Formula}
    (h : ∀ a ∈ f.operands, ∀ p, nnfAt p (φ a) = nnfAt p a) (p : Polarity) :
    nnfAt p (f.mapOperands φ) = nnfAt p f := by
  cases f with
  | lit l => rfl
  | not a =>
    have ha := h a (by simp [operands])
    simp only [mapOperands, nnfAt, ha]
  | implies a b =>
    have ha := h a (by simp [operands])
    have hb := h b (by simp [operands])
    simp only [mapOperands, nnfAt, ha, hb]
  | iff a b =>
    have ha := h a (by simp [operands])
    have hb := h b (by simp [operands])
    simp only [mapOperands, nnfAt, ha, hb]
  | and args =>
    have hargs : (args.map φ).map (nnfAt p) = args.map (nnfAt p) :=
      map_map_congr fun a ha => h a ha p
    simp only [mapOperands, nnfAt, hargs]
  | or args =>
    have hargs : (args.map φ).map (nnfAt p) = args.map (nnfAt p) :=
      map_map_congr fun a ha => h a ha p
    simp only [mapOperands, nnfAt, hargs]

theorem nnfAt_bottomUp {step : Formula → Formula} (h : ∀ p g, nnfAt p (step g) = nnfAt p g)
    (p : Polarity) (f : Formula) : nnfAt p (f.bottomUp step) = nnfAt p f := by
  induction f using induction_operands generalizing p with
  | step f ih => rw [bottomUp_eq, h, nnfAt_mapOperands fun a ha p => ih a ha p]

theorem nnfAt_expandIff (p : Polarity) (f : Formula) : nnfAt p f.expandIff = nnfAt p f := by
  cases f with
  | iff a b => simp [expandIff, nnfAt]
  | _ => rfl

theorem nnfAt_expandImplies (p : Polarity) (f : Formula) :
    nnfAt p f.expandImplies = nnfAt p f := by
  cases f with
  | implies a b => simp [expandImplies, nnfAt]
  | _ => rfl

/-- The three passes make one recursion. -/
theorem nnf_eq_ok {f : Formula} (h : f.WellFormed) : f.nnf = .ok (nnfAt .positive f) := by
  have hf : (f.bottomUp expandIff).WellFormed := h.bottomUp fun _ => wellFormed_expandIff
  have hn : ((f.bottomUp expandIff).bottomUp expandImplies).negateInward =
      .ok (nnfAt .positive f) := by
    rw [negateInward_eq, negationFault?_expanded h, nnfAt_bottomUp nnfAt_expandImplies,
      nnfAt_bottomUp nnfAt_expandIff]
    rfl
  rw [nnf, bind_eq_ok_iff]
  exact ⟨_, transform_eq_ok h, bind_eq_ok_iff.2 ⟨_, transform_eq_ok hf, hn⟩⟩

/-- Literals, conjunctions and disjunctions alone. -/
def IsNnf (f : Formula) : Prop :=
  f.Everywhere fun g => ∀ c, g.connective? = some c → c = .and ∨ c = .or

@[simp] theorem isNnf_lit (l : Literal) : (lit l).IsNnf := by
  rw [IsNnf, everywhere_iff]
  simp [connective?, operands]

@[simp] theorem isNnf_and {args : List Formula} : (and args).IsNnf ↔ ∀ a ∈ args, a.IsNnf := by
  rw [IsNnf, everywhere_iff]
  simp [connective?, operands, IsNnf]

@[simp] theorem isNnf_or {args : List Formula} : (or args).IsNnf ↔ ∀ a ∈ args, a.IsNnf := by
  rw [IsNnf, everywhere_iff]
  simp [connective?, operands, IsNnf]

theorem isNnf_mapOperands {φ : Formula → Formula} {f : Formula} (hf : f.IsNnf)
    (h : ∀ a ∈ f.operands, (φ a).IsNnf) : (f.mapOperands φ).IsNnf := by
  refine everywhere_mapOperands (fun c hc => hf.self c ?_) h
  rwa [connective?_mapOperands] at hc

theorem IsNnf.bottomUp {step : Formula → Formula} (hstep : ∀ g, g.IsNnf → (step g).IsNnf)
    {f : Formula} (hf : f.IsNnf) : (f.bottomUp step).IsNnf := by
  refine Everywhere.bottomUp (fun g hg c hc => hg c ?_) hstep hf
  rwa [connective?_mapOperands] at hc

@[simp] theorem isNnf_conjoin {p : Polarity} {args : List Formula} :
    (p.conjoin args).IsNnf ↔ ∀ a ∈ args, a.IsNnf := by
  cases p <;> simp [Polarity.conjoin]

@[simp] theorem isNnf_disjoin {p : Polarity} {args : List Formula} :
    (p.disjoin args).IsNnf ↔ ∀ a ∈ args, a.IsNnf := by
  cases p <;> simp [Polarity.disjoin]

theorem isNnf_nnfAt (p : Polarity) (f : Formula) : (nnfAt p f).IsNnf := by
  induction f generalizing p with
  | lit l => simp [nnfAt]
  | not a ih => simpa [nnfAt] using ih p.flip
  | implies a b iha ihb => simp [nnfAt, iha, ihb]
  | iff a b iha ihb => simp [nnfAt, iha, ihb]
  | and args ih =>
    rw [nnfAt, isNnf_conjoin, List.forall_mem_map]
    exact fun a ha => ih a ha p
  | or args ih =>
    rw [nnfAt, isNnf_disjoin, List.forall_mem_map]
    exact fun a ha => ih a ha p

@[simp] theorem wellFormed_conjoin {p : Polarity} {args : List Formula} :
    (p.conjoin args).WellFormed ↔ 2 ≤ args.length ∧ ∀ a ∈ args, a.WellFormed := by
  cases p <;> simp [Polarity.conjoin]

@[simp] theorem wellFormed_disjoin {p : Polarity} {args : List Formula} :
    (p.disjoin args).WellFormed ↔ 2 ≤ args.length ∧ ∀ a ∈ args, a.WellFormed := by
  cases p <;> simp [Polarity.disjoin]

theorem wellFormed_nnfAt {f : Formula} (h : f.WellFormed) (p : Polarity) :
    (nnfAt p f).WellFormed := by
  induction f generalizing p with
  | lit l => simp [nnfAt]
  | not a ih => simpa [nnfAt] using ih (wellFormed_not.1 h) p.flip
  | implies a b iha ihb =>
    have hab := wellFormed_implies.1 h
    simp [nnfAt, iha hab.1, ihb hab.2]
  | iff a b iha ihb =>
    have hab := wellFormed_iff.1 h
    simp [nnfAt, iha hab.1, ihb hab.2]
  | and args ih =>
    obtain ⟨hlen, hargs⟩ := wellFormed_and.1 h
    rw [nnfAt, wellFormed_conjoin, List.length_map, List.forall_mem_map]
    exact ⟨hlen, fun a ha => ih a ha (hargs a ha) p⟩
  | or args ih =>
    obtain ⟨hlen, hargs⟩ := wellFormed_or.1 h
    rw [nnfAt, wellFormed_disjoin, List.length_map, List.forall_mem_map]
    exact ⟨hlen, fun a ha => ih a ha (hargs a ha) p⟩

/-- Expanding equivalences, expanding implications and moving negations inward never fail one after
the other, and are one recursion that carries the polarity down; literals, conjunctions and
disjunctions are all that is left. -/
theorem nnf_eq_nnfAt {f : Formula} (h : f.WellFormed) :
    f.nnf = .ok (nnfAt .positive f) ∧ (nnfAt .positive f).IsNnf :=
  ⟨nnf_eq_ok h, isNnf_nnfAt .positive f⟩

/-- The copies of the inner equivalence stand at opposite polarities. -/
theorem nnf_of_nested_equivalences :
    let x1 : Literal := .ofWord 1 (by decide)
    let x2 : Literal := .ofWord 2 (by decide)
    let x3 : Literal := .ofWord 3 (by decide)
    let f := not (iff (lit x1) (iff (lit x2) (lit x3)))
    f.WellFormed ∧ f.nnf = .ok (or
      [and [lit x1, or [and [lit x2, lit (-x3)], and [lit x3, lit (-x2)]]],
        and [and [or [lit (-x2), lit x3], or [lit (-x3), lit x2]], lit (-x1)]]) := by
  intro x1 x2 x3 f
  have hf : f.WellFormed := by simp [f]
  have hnnf := (nnf_eq_nnfAt hf).1
  refine ⟨hf, ?_⟩
  simpa [f, nnfAt, Polarity.conjoin, Polarity.disjoin] using hnnf

end Formula

end Clausal
