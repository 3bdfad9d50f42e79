import Clausal.Extraction
import Clausal.Proofs.ConversionRounds

/-! The clauses of a formula by recursion on it and a polarity. Every pass of the conversion keeps
this list, in order and with every literal, and it is what extraction reads off the result. -/
namespace Clausal

/-- All ways to join one clause of each list, in the order of the choices. -/
def crossClauses (css : List (List (List Literal))) : List (List Literal) :=
  (choices css).map List.flatten

theorem crossClauses_cons (cs : List (List Literal)) (css : List (List (List Literal))) :
    crossClauses (cs :: css) = cs.flatMap fun c => (crossClauses css).map (c ++ ·) := by
  simp only [crossClauses, choices_cons, List.map_flatMap, List.map_map]
  rfl

theorem crossClauses_singleton (cs : List (List Literal)) : crossClauses [cs] = cs := by
  rw [crossClauses_cons]
  simp [crossClauses]

theorem crossClauses_append (css dss : List (List (List Literal))) :
    crossClauses (css ++ dss) =
      (crossClauses css).flatMap fun c => (crossClauses dss).map (c ++ ·) := by
  induction css with
  | nil => simp [crossClauses]
  | cons cs css ih =>
    rw [List.cons_append, crossClauses_cons, ih, crossClauses_cons]
    simp only [List.map_flatMap, List.map_map, List.flatMap_assoc, List.flatMap_map]
    simp [Function.comp_def]

/-- A disjunction of disjunctions has the clauses of one disjunction. -/
theorem crossClauses_flatMap {α : Type} (g : α → List (List (List Literal))) (xs : List α) :
    crossClauses (xs.flatMap g) = crossClauses (xs.map fun x => crossClauses (g x)) := by
  induction xs with
  | nil => rfl
  | cons x xs ih =>
    rw [List.flatMap_cons, crossClauses_append, ih, List.map_cons, crossClauses_cons]

/-- A disjunction of single clauses has a single clause. -/
theorem crossClauses_map_singleton {α : Type} (g : α → List Literal) (xs : List α) :
    crossClauses (xs.map fun x => [g x]) = [xs.flatMap g] := by
  have h := choices_singletons (xs.map g)
  rw [List.map_map] at h
  rw [crossClauses, show (fun x => [g x]) = (fun c => [c]) ∘ g from rfl, h]
  simp [List.flatMap]

/-- Choosing and joining do not look at the literals. -/
theorem crossClauses_map {β : Type} (g : Literal → β) (css : List (List (List Literal))) :
    (choices (css.map (List.map (List.map g)))).map List.flatten =
      (crossClauses css).map (List.map g) := by
  rw [crossClauses, choices_map, List.map_map, List.map_map]
  refine List.map_congr_left fun cs _ => ?_
  rw [Function.comp_apply, Function.comp_apply, List.map_flatten]

namespace Polarity

/-- The clauses of a conjunction as it reads under negations of the polarity. -/
def conjoinClauses : Polarity → List (List (List Literal)) → List (List Literal)
  | positive => List.flatten
  | negative => crossClauses

def disjoinClauses : Polarity → List (List (List Literal)) → List (List Literal)
  | positive => crossClauses
  | negative => List.flatten

theorem disjoinClauses_eq_flip (p : Polarity) (css : List (List (List Literal))) :
    p.disjoinClauses css = p.flip.conjoinClauses css := by
  cases p <;> rfl

theorem conjoinClauses_singleton (p : Polarity) (cs : List (List Literal)) :
    p.conjoinClauses [cs] = cs := by
  cases p with
  | positive => exact List.flatten_singleton
  | negative => exact crossClauses_singleton cs

/-- A conjunction of conjunctions has the clauses of one conjunction. -/
theorem conjoinClauses_flatMap {α : Type} (p : Polarity) (g : α → List (List (List Literal)))
    (xs : List α) :
    p.conjoinClauses (xs.flatMap g) =
      p.conjoinClauses (xs.map fun x => p.conjoinClauses (g x)) := by
  cases p with
  | positive =>
    show (xs.map g).flatten.flatten = (xs.map fun x => (g x).flatten).flatten
    rw [List.flatten_flatten, List.map_map]
    rfl
  | negative => exact crossClauses_flatMap g xs

end Polarity

namespace Formula

/-- The clauses of the formula, or of its negation if the polarity is negative. -/
def clausesAt : Polarity → Formula → List (List Literal)
  | p, lit l => [[p.onLiteral l]]
  | p, not a => clausesAt p.flip a
  | p, implies a b => p.disjoinClauses [clausesAt p.flip a, clausesAt p b]
  | p, iff a b =>
    p.conjoinClauses [p.disjoinClauses [clausesAt p.flip a, clausesAt p b],
      p.disjoinClauses [clausesAt p.flip b, clausesAt p a]]
  | p, and args => p.conjoinClauses (args.map fun a => clausesAt p a)
  | p, or args => p.disjoinClauses (args.map fun a => clausesAt p a)

theorem clausesAt_and (args : List Formula) :
    clausesAt .positive (and args) = args.flatMap (clausesAt .positive) := by
  rw [clausesAt]
  rfl

theorem clausesAt_or (args : List Formula) :
    clausesAt .positive (or args) = crossClauses (args.map (clausesAt .positive)) := by
  rw [clausesAt]
  rfl

theorem clausesAt_conjoin (p : Polarity) (args : List Formula) :
    clausesAt .positive (p.conjoin args) = p.conjoinClauses (args.map (clausesAt .positive)) := by
  cases p with
  | positive => exact clausesAt_and args
  | negative => exact clausesAt_or args

theorem clausesAt_disjoin (p : Polarity) (args : List Formula) :
    clausesAt .positive (p.disjoin args) = p.disjoinClauses (args.map (clausesAt .positive)) := by
  cases p with
  | positive => exact clausesAt_or args
  | negative => exact clausesAt_and args

theorem clausesAt_nnfAt (p : Polarity) (f : Formula) :
    clausesAt .positive (nnfAt p f) = clausesAt p f := by
  induction f generalizing p with
  | lit l => simp [nnfAt, clausesAt]
  | not a ih => rw [nnfAt, ih, clausesAt]
  | implies a b iha ihb => simp [nnfAt, clausesAt, clausesAt_disjoin, iha, ihb]
  | iff a b iha ihb => simp [nnfAt, clausesAt, clausesAt_conjoin, clausesAt_disjoin, iha, ihb]
  | and args ih =>
    rw [nnfAt, clausesAt_conjoin, clausesAt, map_map_congr fun a ha => ih a ha p]
  | or args ih =>
    rw [nnfAt, clausesAt_disjoin, clausesAt, map_map_congr fun a ha => ih a ha p]

theorem clausesAt_mapOperands {φ : Formula → Formula} {f : Formula}
    (h : ∀ a ∈ f.operands, ∀ p, clausesAt p (φ a) = clausesAt p a) (p : Polarity) :
    clausesAt p (f.mapOperands φ) = clausesAt p f := by
  cases f with
  | lit l => rfl
  | not a =>
    have ha := h a (by simp [operands])
    simp only [mapOperands, clausesAt, ha]
  | implies a b =>
    have ha := h a (by simp [operands])
    have hb := h b (by simp [operands])
    simp only [mapOperands, clausesAt, ha, hb]
  | iff a b =>
    have ha := h a (by simp [operands])
    have hb := h b (by simp [operands])
    simp only [mapOperands, clausesAt, ha, hb]
  | and args =>
    have hargs : (args.map φ).map (clausesAt p) = args.map (clausesAt p) :=
      map_map_congr fun a ha => h a ha p
    simp only [mapOperands, clausesAt, hargs]
  | or args =>
    have hargs : (args.map φ).map (clausesAt p) = args.map (clausesAt p) :=
      map_map_congr fun a ha => h a ha p
    simp only [mapOperands, clausesAt, hargs]

/-- What keeps the clauses of every node at both polarities keeps those of the whole formula. -/
theorem clausesAt_bottomUp {step : Formula → Formula}
    (h : ∀ p g, clausesAt p (step g) = clausesAt p g) (p : Polarity) (f : Formula) :
    clausesAt p (f.bottomUp step) = clausesAt p f := by
  induction f using induction_operands generalizing p with
  | step f ih => rw [bottomUp_eq, h, clausesAt_mapOperands fun a ha p => ih a ha p]

/-- In negation normal form only the clauses of the operands themselves count. -/
theorem IsNnf.clausesAt_mapOperands {φ : Formula → Formula} {f : Formula} (hn : f.IsNnf)
    (h : ∀ a ∈ f.operands, clausesAt .positive (φ a) = clausesAt .positive a) :
    clausesAt .positive (f.mapOperands φ) = clausesAt .positive f := by
  have hmap : (f.operands.map φ).map (clausesAt .positive) =
      f.operands.map (clausesAt .positive) :=
    map_map_congr h
  cases f with
  | lit l => rfl
  | and args =>
    rw [mapOperands, clausesAt_and, clausesAt_and]
    exact congrArg List.flatten hmap
  | or args =>
    rw [mapOperands, clausesAt_or, clausesAt_or]
    exact congrArg crossClauses hmap
  | _ => simpa [connective?] using hn.self

theorem clausesAt_parts_and (p : Polarity) (f : Formula) :
    p.conjoinClauses ((parts .and f).map (clausesAt p)) = clausesAt p f := by
  cases f with
  | and args => simp only [parts, connective?, operands, if_true, clausesAt]
  | _ => simp [parts, connective?, p.conjoinClauses_singleton]

theorem clausesAt_parts_or (p : Polarity) (f : Formula) :
    p.disjoinClauses ((parts .or f).map (clausesAt p)) = clausesAt p f := by
  cases f with
  | or args => simp only [parts, connective?, operands, if_true, clausesAt]
  | _ =>
    simp [parts, connective?, p.disjoinClauses_eq_flip, p.flip.conjoinClauses_singleton]

/-- Merging keeps the clauses even below a negation. -/
theorem clausesAt_mergeNode (p : Polarity) (f : Formula) :
    clausesAt p f.mergeNode = clausesAt p f := by
  cases f with
  | and args =>
    rw [mergeNode_and, clausesAt, clausesAt, List.map_flatMap, p.conjoinClauses_flatMap]
    simp only [clausesAt_parts_and]
  | or args =>
    rw [mergeNode_or, clausesAt, clausesAt, List.map_flatMap, p.disjoinClauses_eq_flip,
      p.flip.conjoinClauses_flatMap]
    simp only [← p.disjoinClauses_eq_flip, clausesAt_parts_or]
  | _ => rfl

theorem clausesAt_bottomUp_mergeNode (p : Polarity) (f : Formula) :
    clausesAt p (f.bottomUp mergeNode) = clausesAt p f :=
  clausesAt_bottomUp clausesAt_mergeNode p f

/-- All literals in the clauses of the formula: its one clause, if it is a disjunction with no
conjunction in it. -/
def joinedClause (f : Formula) : List Literal := (clausesAt .positive f).flatten

theorem clausesAt_or_of_joinedClause {args : List Formula}
    (h : ∀ a ∈ args, clausesAt .positive a = [joinedClause a]) :
    clausesAt .positive (or args) = [args.flatMap joinedClause] := by
  rw [clausesAt_or, List.map_congr_left h, crossClauses_map_singleton]

/-- A multiplied out formula has one clause for each conjunct. -/
theorem clausesAt_eq_map_joinedClause {f : Formula} (hn : f.IsNnf) (hm : f.IsMultipliedOut) :
    clausesAt .positive f = f.conjunctLeaves.map joinedClause := by
  induction f with
  | lit l => simp [conjunctLeaves, joinedClause, clausesAt]
  | and args ih =>
    rw [clausesAt_and, conjunctLeaves_and, List.map_flatMap]
    have hargs : args.map (clausesAt .positive) =
        args.map fun a => a.conjunctLeaves.map joinedClause :=
      List.map_congr_left fun a ha => ih a ha (hn.operand ha) (hm.operand ha)
    exact congrArg List.flatten hargs
  | or args ih =>
    have hone : clausesAt .positive (or args) = [args.flatMap joinedClause] := by
      refine clausesAt_or_of_joinedClause fun a ha => ?_
      rw [ih a ha (hn.operand ha) (hm.operand ha),
        conjunctLeaves_of_not_isAnd (hm.self args rfl a ha)]
      rfl
    rw [conjunctLeaves_of_not_isAnd rfl, List.map_singleton, joinedClause, hone]
    simp
  | _ => simpa [connective?] using hn.self

theorem clausesAt_or_of_mem_choices {args ys : List Formula} (hn : ∀ a ∈ args, a.IsNnf)
    (hm : ∀ a ∈ args, a.IsMultipliedOut) (hys : ys ∈ choices (args.map conjunctLeaves)) :
    clausesAt .positive (or ys) = [ys.flatMap joinedClause] := by
  refine clausesAt_or_of_joinedClause fun y hy => ?_
  obtain ⟨a, ha, hya⟩ := exists_leaf_of_mem_choices hys hy
  have hyn := (hn a ha).conjunctLeaves y hya
  have hym := (hm a ha).conjunctLeaves y hya
  rw [clausesAt_eq_map_joinedClause hyn hym,
    conjunctLeaves_of_not_isAnd (isAnd_of_mem_conjunctLeaves y hya)]
  rfl

theorem clausesAt_multiplyNode {f : Formula} (hn : f.IsNnf)
    (hm : ∀ a ∈ f.operands, a.IsMultipliedOut) :
    clausesAt .positive f.multiplyNode = clausesAt .positive f := by
  cases f with
  | or args =>
    rw [multiplyNode_or]
    split
    next =>
      have hargs : args.map (clausesAt .positive) =
          (args.map conjunctLeaves).map (List.map joinedClause) :=
        (map_map_congr fun a ha =>
          (clausesAt_eq_map_joinedClause (isNnf_or.1 hn a ha) (hm a ha)).symm).symm
      have hchoices : ((choices (args.map conjunctLeaves)).map or).map (clausesAt .positive) =
          (choices (args.map conjunctLeaves)).map fun ys => [ys.flatMap joinedClause] :=
        map_map_congr fun ys hys => clausesAt_or_of_mem_choices (isNnf_or.1 hn) hm hys
      rw [clausesAt_and, List.flatMap, hchoices, clausesAt_or, hargs, crossClauses, choices_map,
        List.map_map, ← List.flatMap, ← List.map_eq_flatMap]
      rfl
    next => rfl
  | _ => rfl

theorem clausesAt_bottomUp_multiplyNode {f : Formula} (hn : f.IsNnf) :
    clausesAt .positive (f.bottomUp multiplyNode) = clausesAt .positive f := by
  induction f using induction_operands with
  | step f ih =>
    have hnn : (f.mapOperands (bottomUp multiplyNode)).IsNnf :=
      isNnf_mapOperands hn fun a ha =>
        IsNnf.bottomUp (fun _ => isNnf_multiplyNode) (hn.operand ha)
    have hmm : ∀ a ∈ (f.mapOperands (bottomUp multiplyNode)).operands, a.IsMultipliedOut := by
      rw [operands_mapOperands, List.forall_mem_map]
      exact fun a _ => isMultipliedOut_bottomUp a
    rw [bottomUp_eq, clausesAt_multiplyNode hnn hmm]
    exact hn.clausesAt_mapOperands fun a ha => ih a ha (hn.operand ha)

/-- Neither part of a round touches the clauses. -/
theorem Rounds.clausesAt_eq {f r : Formula} {k : Nat} (h : Rounds f k r) (hw : f.WellFormed)
    (hn : f.IsNnf) : clausesAt .positive r = clausesAt .positive f := by
  induction h with
  | stop => rfl
  | @round f g d r k _ merge multiply _ ih =>
    rw [mergeNested_eq_ok hw] at merge
    cases merge
    have hgw := hw.bottomUp fun _ => wellFormed_mergeNode
    have hgn := hn.bottomUp fun _ => isNnf_mergeNode
    rw [multiplyOut_eq_ok hgw] at multiply
    cases multiply
    rw [ih (hgw.bottomUp fun _ => wellFormed_multiplyNode)
      (hgn.bottomUp fun _ => isNnf_multiplyNode), clausesAt_bottomUp_multiplyNode hgn,
      clausesAt_bottomUp_mergeNode]

/-- The clausal form of a formula has the clauses of the formula. -/
theorem exists_clausalForm_clausesAt {f : Formula} (h : f.WellFormed) :
    ∃ r, f.clausalForm = .ok r ∧ r.IsClausal ∧
      clausesAt .positive r = clausesAt .positive f := by
  obtain ⟨k, r, -, hr, hf⟩ := exists_clausalForm_eq_ok h
  have hclauses := hr.clausesAt_eq (wellFormed_nnfAt h .positive) (isNnf_nnfAt .positive f)
  exact ⟨r, hf, hr.isClausal, hclauses.trans (clausesAt_nnfAt .positive f)⟩

theorem exists_eq_map_lit {args : List Formula} (h : ∀ a ∈ args, a.IsLiteral) :
    ∃ ls : List Literal, args = ls.map lit := by
  have hlits : ∀ a ∈ args, ∃ l, True ∧ lit l = a := by
    intro a ha
    obtain ⟨l, rfl⟩ := isLiteral_iff.1 (h a ha)
    exact ⟨l, trivial, rfl⟩
  obtain ⟨ls, -, rfl⟩ := exists_map_eq hlits
  exact ⟨ls, rfl⟩

theorem clausesAt_or_map_lit (ls : List Literal) :
    clausesAt .positive (or (ls.map lit)) = [ls] := by
  have hlits : (ls.map lit).map (clausesAt .positive) = ls.map fun l => [[l]] :=
    map_map_congr fun l _ => by simp [clausesAt]
  rw [clausesAt_or, hlits, crossClauses_map_singleton, List.flatMap_singleton']

theorem clauseOfFormula_or_map_lit {ls : List Literal} (h : ls ≠ []) :
    Clause.ofFormula (or (ls.map lit)) = .ok ⟨ls⟩ := by
  rw [Clause.ofFormula, List.mapM_map]
  show (ls.mapM fun l => (Except.ok l : Except Fault Literal)) >>= Clause.ofLiterals = _
  have hread : (ls.mapM fun l => (Except.ok l : Except Fault Literal)) = .ok ls := by
    rw [mapM_eq_ok fun l _ => rfl, List.map_id']
  rw [hread]
  show Clause.ofLiterals ls = _
  rw [Clause.ofLiterals, if_neg h]

theorem clauseOfFormula_eq_ok {f : Formula} (h : f.IsClause) :
    Clause.ofFormula f = .ok ⟨joinedClause f⟩ ∧ clausesAt .positive f = [joinedClause f] := by
  cases f with
  | lit l => simp [Clause.ofFormula, Clause.ofLiterals, joinedClause, clausesAt]
  | or args =>
    obtain ⟨hlen, hlits⟩ := h
    obtain ⟨ls, rfl⟩ := exists_eq_map_lit hlits
    have hls : ls ≠ [] := by
      rintro rfl
      simp [Connective.arity] at hlen
    rw [clauseOfFormula_or_map_lit hls, joinedClause, clausesAt_or_map_lit]
    simp
  | _ => exact h.elim

theorem clauseListOfFormula_of_isClause {f : Formula} (h : f.IsClause) :
    ClauseList.ofFormula f = .ok ⟨[⟨joinedClause f⟩]⟩ := by
  obtain ⟨hread, -⟩ := clauseOfFormula_eq_ok h
  unfold ClauseList.ofFormula
  rw [if_pos h.isClausal]
  split
  next => exact h.elim
  next =>
    rw [hread]
    rfl

/-- Extraction reads the clauses off a formula in clausal form. -/
theorem clauseListOfFormula_eq_ok {f : Formula} (h : f.IsClausal) :
    ClauseList.ofFormula f = .ok ⟨(clausesAt .positive f).map Clause.mk⟩ := by
  by_cases hc : f.IsClause
  · rw [clauseListOfFormula_of_isClause hc, (clauseOfFormula_eq_ok hc).2]
    rfl
  obtain ⟨args, rfl⟩ : ∃ args, f = and args := by
    cases f with
    | and args => exact ⟨args, rfl⟩
    | _ => exact absurd h hc
  have hread : args.mapM Clause.ofFormula = .ok (args.map fun a => Clause.mk (joinedClause a)) :=
    mapM_eq_ok fun a ha => (clauseOfFormula_eq_ok (h.2 a ha)).1
  have hargs : args.map (clausesAt .positive) = args.map fun a => [joinedClause a] :=
    List.map_congr_left fun a ha => (clauseOfFormula_eq_ok (h.2 a ha)).2
  rw [ClauseList.ofFormula, if_pos h, clausesAt_and, List.flatMap, hargs, ← List.flatMap,
    ← List.map_eq_flatMap, List.map_map]
  simp only [hread]
  rfl

theorem exists_extraction {f : Formula} (h : f.WellFormed) :
    ∃ r, f.clausalForm = .ok r ∧
      ClauseList.ofFormula r = .ok ⟨(clausesAt .positive f).map Clause.mk⟩ := by
  obtain ⟨r, hf, hr, hclauses⟩ := exists_clausalForm_clausesAt h
  exact ⟨r, hf, hclauses ▸ clauseListOfFormula_eq_ok hr⟩

theorem clauseList_eq_ok {f : Formula} (h : f.WellFormed) :
    f.clauseList = .ok ⟨(clausesAt .positive f).map Clause.mk⟩ := by
  obtain ⟨r, hf, hread⟩ := exists_extraction h
  rw [clauseList, bind_eq_ok_iff]
  exact ⟨r, hf, hread⟩

theorem toLists_map_mk (cs : List (List Literal)) :
    ClauseList.toLists ⟨cs.map Clause.mk⟩ = cs.map (List.map Literal.code) := by
  rw [ClauseList.toLists, List.map_map]
  rfl

/-- Conversion and extraction together give the clauses of the formula, in order and with every
literal. -/
theorem lists_of_clausalForm {f : Formula} (h : f.WellFormed) :
    (do
      let cs ← f.clauseList
      return cs.toLists) =
      .ok ((clausesAt .positive f).map (List.map Literal.code)) := by
  rw [bind_eq_ok_iff]
  exact ⟨_, clauseList_eq_ok h, congrArg Except.ok (toLists_map_mk (clausesAt .positive f))⟩

theorem lists_of_implication :
    let x1 := Sample.literal 1 (by decide)
    let x2 := Sample.literal 2 (by decide)
    let x3 := Sample.literal 3 (by decide)
    let x4 := Sample.literal 4 (by decide)
    let f := implies (or [x1, x2]) (and [x3, x4])
    f.WellFormed ∧
      (do
        let cs ← f.clauseList
        return cs.toLists) = .ok [[-1, 3], [-1, 4], [-2, 3], [-2, 4]] := by
  intro x1 x2 x3 x4 f
  have hf : f.WellFormed := by simp [f, x1, x2, x3, x4, Sample.literal]
  refine ⟨hf, (lists_of_clausalForm hf).trans ?_⟩
  simp [f, x1, x2, x3, x4, Sample.literal, Literal.ofWord, clausesAt, Polarity.flip,
    Polarity.disjoinClauses, Polarity.conjoinClauses, crossClauses, choices]

end Formula

end Clausal
