import Clausal.Proofs.Contexts
import Clausal.Proofs.Rebuilding
import Mathlib.Algebra.Ring.Parity

/-! Subformulas converted where they stand. Below an even number of negations and no equivalence a
subformula enters the clauses of the whole through its own clauses alone, so that its clausal form
can take its place before the whole is converted. -/
namespace Clausal

open Formula

/-- Below a node that is no equivalence only the clauses at one polarity count. -/
theorem Frame.clausesAt_plug {fr : Frame} (hfr : fr.connective ≠ .iff) {p : Polarity}
    {a b : Formula}
    (h : clausesAt (fr.polarityBelow p) a = clausesAt (fr.polarityBelow p) b) :
    clausesAt p (fr.plug a) = clausesAt p (fr.plug b) := by
  cases fr with
  | not =>
    have hbelow : clausesAt p.flip a = clausesAt p.flip b := h
    simp only [plug, clausesAt, hbelow]
  | premise c =>
    have hpremise : clausesAt p.flip a = clausesAt p.flip b := h
    simp only [plug, clausesAt, hpremise]
  | conclusion c =>
    have hconclusion : clausesAt p a = clausesAt p b := h
    simp only [plug, clausesAt, hconclusion]
  | iffLeft c => exact absurd rfl hfr
  | iffRight c => exact absurd rfl hfr
  | and before after =>
    have hoperand : clausesAt p a = clausesAt p b := h
    simp only [plug, clausesAt, List.map_append, List.map_cons, hoperand]
  | or before after =>
    have hoperand : clausesAt p a = clausesAt p b := h
    simp only [plug, clausesAt, List.map_append, List.map_cons, hoperand]

namespace Context

/-- The polarity is turned once for each negation and each premise on the path. -/
theorem clausesAt_fill {K : Context} (hK : ¬ K.CrossesIff) {p : Polarity} {f g : Formula}
    (h : clausesAt (Polarity.flip^[K.turns] p) f = clausesAt (Polarity.flip^[K.turns] p) g) :
    clausesAt p (K.fill f) = clausesAt p (K.fill g) := by
  induction K generalizing p with
  | nil => exact h
  | cons fr K ih =>
    have hfr : fr.connective ≠ .iff := fun hiff => hK ⟨fr, by simp, hiff⟩
    have hrest : ¬ CrossesIff K := fun ⟨fr', hmem, hiff⟩ => hK ⟨fr', by simp [hmem], hiff⟩
    have hturns : Polarity.flip^[turns K] (fr.polarityBelow p) =
        Polarity.flip^[turns (fr :: K)] p := by
      rw [turns, turns, List.countP_cons, Frame.polarityBelow]
      split
      next => rw [Function.iterate_succ_apply]
      next => rw [Nat.add_zero]
    apply Frame.clausesAt_plug hfr
    apply ih hrest
    rw [hturns]
    exact h

theorem clausesAt_fill_of_even {K : Context} (hK : ¬ K.CrossesIff) (heven : Even K.turns)
    {f g : Formula} (h : clausesAt .positive f = clausesAt .positive g) :
    clausesAt .positive (K.fill f) = clausesAt .positive (K.fill g) := by
  have hflip : Function.Involutive Polarity.flip := Polarity.flip_flip
  have hpositive : Polarity.flip^[K.turns] .positive = .positive := by
    rw [hflip.iterate_even heven, id]
  apply clausesAt_fill hK
  rw [hpositive]
  exact h

end Context

namespace Formula

/-- The operands converted one by one, with words in the place of literals. -/
theorem exists_mapM_clauseList {args : List Formula} (h : ∀ a ∈ args, a.WellFormed) :
    ∃ css, args.mapM clauseList = .ok css ∧
      css.map ClauseList.toLists =
        (args.map (clausesAt .positive)).map (List.map (List.map Literal.code)) := by
  refine ⟨_, mapM_eq_ok fun a ha => clauseList_eq_ok (h a ha), ?_⟩
  rw [List.map_map, List.map_map]
  exact List.map_congr_left fun a _ => toLists_map_mk (clausesAt .positive a)

/-- A subformula below an even number of negations and premises, and below no equivalence, can be
converted before the whole formula is, which then has the same clausal form. So the clauses of a
conjunction are those of its operands one after the other, and the clauses of a disjunction are all
choices of one clause of each operand, the choice in the first operand being the most
significant. -/
theorem clausalForm_fill_clausalForm :
    (∀ (K : Context) (f : Formula), (K.fill f).WellFormed → ¬ K.CrossesIff → Even K.turns →
      ∃ r s, f.clausalForm = .ok r ∧ (K.fill f).clausalForm = .ok s ∧
        (K.fill r).clausalForm = .ok s) ∧
    ∀ args : List Formula, 2 ≤ args.length → (∀ a ∈ args, a.WellFormed) →
      ∃ css cs ds, args.mapM clauseList = .ok css ∧
        (and args).clauseList = .ok cs ∧ cs.toLists = (css.map ClauseList.toLists).flatten ∧
        (or args).clauseList = .ok ds ∧
          ds.toLists = (choices (css.map ClauseList.toLists)).map List.flatten := by
  constructor
  · intro K f h hK heven
    obtain ⟨hf, hfill⟩ := Context.wellFormed_fill h
    obtain ⟨r, hfr, hr, hclauses⟩ := exists_clausalForm_clausesAt hf
    have hKr : (K.fill r).WellFormed := hfill r hr.wellFormed_isNnf.1
    have hsame : clausesAt .positive (K.fill r) = clausesAt .positive (K.fill f) :=
      Context.clausesAt_fill_of_even hK heven hclauses
    obtain ⟨s, hs, hs'⟩ := exists_clausalForm_of_clausesAt_eq h hKr hsame
    exact ⟨r, s, hfr, hs, hs'⟩
  · intro args hlen hargs
    have hand : (and args).WellFormed := wellFormed_and.2 ⟨hlen, hargs⟩
    have hor : (or args).WellFormed := wellFormed_or.2 ⟨hlen, hargs⟩
    obtain ⟨css, hcss, hlists⟩ := exists_mapM_clauseList hargs
    refine ⟨css, _, _, hcss, clauseList_eq_ok hand, ?_, clauseList_eq_ok hor, ?_⟩
    · rw [toLists_map_mk, hlists, clausesAt_and, List.flatMap, List.map_flatten]
    · rw [toLists_map_mk, hlists, clausesAt_or, crossClauses_map]

/-- The path leads through two negations and a conjunction; the subformula below is converted to a
conjunction of two clauses. -/
theorem clausalForm_fill_of_two_negations :
    let x1 : Literal := .ofWord 1 (by decide)
    let x2 : Literal := .ofWord 2 (by decide)
    let x3 : Literal := .ofWord 3 (by decide)
    let K : Context := [.or [lit x1] [], .not, .and [] [lit x3], .not]
    let f := iff (lit x2) (lit x3)
    ((K.fill f).WellFormed ∧ ¬ K.CrossesIff ∧ Even K.turns ∧
      ∃ r s, f.clausalForm = .ok r ∧ (K.fill f).clausalForm = .ok s ∧
        (K.fill r).clausalForm = .ok s) ∧
    ∃ css ds, [not (and [lit x1, lit x2]), f].mapM clauseList = .ok css ∧
      (or [not (and [lit x1, lit x2]), f]).clauseList = .ok ds ∧
        ds.toLists = (choices (css.map ClauseList.toLists)).map List.flatten := by
  intro x1 x2 x3 K f
  have hw : (K.fill f).WellFormed := by simp [K, f, Context.fill, Frame.plug]
  have hK : ¬ K.CrossesIff := by simp [K, Context.CrossesIff, Frame.connective]
  have heven : Even K.turns := by decide
  have hargs : ∀ a ∈ [not (and [lit x1, lit x2]), f], a.WellFormed := by simp [f]
  obtain ⟨hfill, hoperands⟩ := clausalForm_fill_clausalForm
  obtain ⟨css, _, ds, hcss, -, -, hds, hlists⟩ := hoperands _ (by decide) hargs
  exact ⟨⟨hw, hK, heven, hfill K f hw hK heven⟩, css, ds, hcss, hds, hlists⟩

end Formula

end Clausal
