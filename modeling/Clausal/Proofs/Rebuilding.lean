import Clausal.Dimacs
import Clausal.Proofs.Occurrences
import Clausal.Proofs.ReferenceClauses

/-! Formulas rebuilt from their clause lists. The formulas in clausal form are exactly what can be
rebuilt, and extraction takes a rebuilt formula back to its clause list. -/
namespace Clausal

/-- A literal alone stands for itself, several are a disjunction. -/
def Clause.toFormula (c : Clause) : Formula :=
  match c.literals with
  | [l] => .lit l
  | ls => .or (ls.map .lit)

/-- A clause alone stands for itself, several are a conjunction. -/
def ClauseList.toFormula (cs : ClauseList) : Formula :=
  match cs.clauses with
  | [c] => c.toFormula
  | cs => .and (cs.map Clause.toFormula)

/-- There is a clause, and every clause has a literal. -/
structure ClauseList.IsProper (cs : ClauseList) : Prop where
  clauses_ne_nil : cs.clauses ≠ []
  literals_ne_nil : ∀ c ∈ cs.clauses, c.literals ≠ []

namespace Clause

open Formula

theorem toFormula_mk_of_two_le {ls : List Literal} (h : 2 ≤ ls.length) :
    toFormula ⟨ls⟩ = or (ls.map lit) := by
  match ls, h with
  | _ :: _ :: _, _ => rfl

theorem isClause_toFormula {c : Clause} (h : c.literals ≠ []) : c.toFormula.IsClause := by
  match c, h with
  | ⟨[l]⟩, _ => trivial
  | ⟨l :: m :: ls⟩, _ =>
    have hlen : 2 ≤ ((l :: m :: ls).map lit).length := by simp
    refine ⟨hlen, ?_⟩
    rw [List.forall_mem_map]
    exact fun _ _ => trivial

theorem clausesAt_toFormula {c : Clause} (h : c.literals ≠ []) :
    clausesAt .positive c.toFormula = [c.literals] := by
  match c, h with
  | ⟨[l]⟩, _ => simp [toFormula, clausesAt]
  | ⟨l :: m :: ls⟩, _ => exact clausesAt_or_map_lit (l :: m :: ls)

theorem exists_toFormula_eq {f : Formula} (h : f.IsClause) :
    ∃ c : Clause, c.literals ≠ [] ∧ c.toFormula = f := by
  cases f with
  | lit l => exact ⟨⟨[l]⟩, List.cons_ne_nil l [], rfl⟩
  | or args =>
    obtain ⟨hlen, hlits⟩ := h
    obtain ⟨ls, rfl⟩ := exists_eq_map_lit hlits
    have hls : 2 ≤ ls.length := by rwa [List.length_map] at hlen
    refine ⟨⟨ls⟩, ?_, toFormula_mk_of_two_le hls⟩
    exact List.ne_nil_of_length_pos (Nat.lt_of_lt_of_le Nat.zero_lt_two hls)
  | _ => exact h.elim

theorem literals_toFormula (c : Clause) : c.toFormula.literals = c.literals := by
  have hor : ∀ ls : List Literal, (or (ls.map lit)).literals = ls := by
    intro ls
    rw [literals_or, List.flatMap_map]
    simp only [literals_lit, List.flatMap_singleton']
  match c with
  | ⟨[]⟩ => exact hor []
  | ⟨[l]⟩ => exact literals_lit l
  | ⟨l :: m :: ls⟩ => exact hor (l :: m :: ls)

end Clause

namespace ClauseList

open Formula

theorem toFormula_mk_of_two_le {cs : List Clause} (h : 2 ≤ cs.length) :
    toFormula ⟨cs⟩ = and (cs.map Clause.toFormula) := by
  match cs, h with
  | _ :: _ :: _, _ => rfl

theorem isClausal_toFormula {cs : ClauseList} (h : cs.IsProper) : cs.toFormula.IsClausal := by
  match cs, h with
  | ⟨[]⟩, h => exact absurd rfl h.clauses_ne_nil
  | ⟨[c]⟩, h => exact (Clause.isClause_toFormula (h.literals_ne_nil c (by simp))).isClausal
  | ⟨c :: d :: cs⟩, h =>
    have hlen : 2 ≤ ((c :: d :: cs).map Clause.toFormula).length := by simp
    refine ⟨hlen, ?_⟩
    rw [List.forall_mem_map]
    exact fun e he => Clause.isClause_toFormula (h.literals_ne_nil e he)

theorem clausesAt_toFormula {cs : ClauseList} (h : cs.IsProper) :
    clausesAt .positive cs.toFormula = cs.clauses.map Clause.literals := by
  match cs, h with
  | ⟨[]⟩, h => exact absurd rfl h.clauses_ne_nil
  | ⟨[c]⟩, h => exact Clause.clausesAt_toFormula (h.literals_ne_nil c (by simp))
  | ⟨c :: d :: cs⟩, h =>
    have hclauses : ((c :: d :: cs).map Clause.toFormula).map (clausesAt .positive) =
        (c :: d :: cs).map fun e => [e.literals] :=
      map_map_congr fun e he => Clause.clausesAt_toFormula (h.literals_ne_nil e he)
    rw [toFormula_mk_of_two_le (by simp), clausesAt_and, List.flatMap, hclauses, ← List.flatMap,
      ← List.map_eq_flatMap]

/-- Extraction undoes rebuilding. -/
theorem ofFormula_toFormula {cs : ClauseList} (h : cs.IsProper) :
    ofFormula cs.toFormula = .ok cs := by
  rw [clauseListOfFormula_eq_ok (isClausal_toFormula h), clausesAt_toFormula h, List.map_map]
  show Except.ok (mk (cs.clauses.map id)) = Except.ok cs
  rw [List.map_id]

theorem exists_toFormula_eq {f : Formula} (h : f.IsClausal) :
    ∃ cs : ClauseList, cs.IsProper ∧ cs.toFormula = f := by
  by_cases hc : f.IsClause
  · obtain ⟨c, hne, hf⟩ := Clause.exists_toFormula_eq hc
    exact ⟨⟨[c]⟩, ⟨List.cons_ne_nil c [], by simpa using hne⟩, hf⟩
  cases f with
  | and args =>
    obtain ⟨hlen, hargs⟩ := h
    obtain ⟨cs, hne, rfl⟩ := exists_map_eq fun a ha => Clause.exists_toFormula_eq (hargs a ha)
    have hcs : 2 ≤ cs.length := by rwa [List.length_map] at hlen
    refine ⟨⟨cs⟩, ⟨?_, hne⟩, toFormula_mk_of_two_le hcs⟩
    exact List.ne_nil_of_length_pos (Nat.lt_of_lt_of_le Nat.zero_lt_two hcs)
  | _ => exact absurd h hc

theorem literals_toFormula (cs : ClauseList) :
    cs.toFormula.literals = cs.clauses.flatMap Clause.literals := by
  have hand : ∀ ds : List Clause,
      (and (ds.map Clause.toFormula)).literals = ds.flatMap Clause.literals := by
    intro ds
    rw [literals_and, List.flatMap_map]
    simp only [Clause.literals_toFormula]
  match cs with
  | ⟨[]⟩ => exact hand []
  | ⟨[c]⟩ =>
    rw [List.flatMap_singleton]
    exact Clause.literals_toFormula c
  | ⟨c :: d :: cs⟩ => exact hand (c :: d :: cs)

/-- Rebuilding keeps the variables. -/
theorem vars_toFormula (cs : ClauseList) : cs.toFormula.vars = cs.vars := by
  rw [Formula.vars, literals_toFormula, vars, List.map_flatMap]

theorem ofFormula_of_not_isClausal {f : Formula} (h : ¬ f.IsClausal) :
    ofFormula f = .error .notClausal := by
  unfold ofFormula
  exact if_neg h

theorem ofFormula_eq_ok_iff {f : Formula} {cs : ClauseList} :
    ofFormula f = .ok cs ↔ cs.IsProper ∧ cs.toFormula = f := by
  constructor
  · intro h
    have hf : f.IsClausal := by
      by_contra hn
      rw [ofFormula_of_not_isClausal hn] at h
      contradiction
    obtain ⟨ds, hds, rfl⟩ := exists_toFormula_eq hf
    rw [ofFormula_toFormula hds] at h
    cases h
    exact ⟨hds, rfl⟩
  · rintro ⟨hcs, rfl⟩
    exact ofFormula_toFormula hcs

/-- Extraction is a bijection from the formulas in clausal form to the lists of clauses in which
there is a clause and every clause has a literal, and rebuilding is its inverse. It refuses every
other formula, always for the same cause, and keeps the variables, so that the header counts those
of the formula. -/
theorem ofFormula_bijective :
    (∀ f, (∃ cs, ofFormula f = .ok cs) ↔ f.IsClausal) ∧
    (∀ f, ¬ f.IsClausal → ofFormula f = .error .notClausal) ∧
    (∀ f cs, ofFormula f = .ok cs →
      cs.IsProper ∧ cs.toFormula = f ∧ cs.vars = f.vars ∧
        cs.dimacsHeader = s!"p cnf {f.vars.length} {cs.size}\n") ∧
    ∀ cs, cs.IsProper → ofFormula cs.toFormula = .ok cs := by
  refine ⟨fun f => ⟨fun hex => ?_, fun hf => ?_⟩, fun f => ofFormula_of_not_isClausal,
    fun f cs h => ?_, fun cs => ofFormula_toFormula⟩
  · obtain ⟨cs, h⟩ := hex
    obtain ⟨hcs, rfl⟩ := ofFormula_eq_ok_iff.1 h
    exact isClausal_toFormula hcs
  · obtain ⟨cs, hcs⟩ := exists_toFormula_eq hf
    exact ⟨cs, ofFormula_eq_ok_iff.2 hcs⟩
  · obtain ⟨hcs, rfl⟩ := ofFormula_eq_ok_iff.1 h
    refine ⟨hcs, rfl, (vars_toFormula cs).symm, ?_⟩
    rw [dimacsHeader, vars_toFormula]

theorem ofFormula_of_two_clauses :
    let x1 : Literal := .ofWord 1 (by decide)
    let x2 : Literal := .ofWord (-2) (by decide)
    let x3 : Literal := .ofWord 3 (by decide)
    let cs : ClauseList := ⟨[⟨[x1, x2]⟩, ⟨[x3]⟩]⟩
    let short := or [lit x3]
    cs.IsProper ∧ ofFormula (and [or [lit x1, lit x2], lit x3]) = .ok cs ∧
      ¬ short.IsClausal ∧ ofFormula short = .error .notClausal := by
  intro x1 x2 x3 cs short
  have hcs : cs.IsProper := ⟨by simp [cs], by simp [cs]⟩
  have hshort : ¬ short.IsClausal := by decide
  obtain ⟨-, hrefused, -, hrebuilt⟩ := ofFormula_bijective
  exact ⟨hcs, hrebuilt cs hcs, hshort, hrefused short hshort⟩

end ClauseList

/-- Formulas in clausal form with the same clauses are the same formula. -/
theorem Formula.IsClausal.eq_of_clausesAt_eq {f g : Formula} (hf : f.IsClausal) (hg : g.IsClausal)
    (h : clausesAt .positive f = clausesAt .positive g) : f = g := by
  have hread := clauseListOfFormula_eq_ok hf
  rw [h] at hread
  obtain ⟨-, hf⟩ := ClauseList.ofFormula_eq_ok_iff.1 hread
  obtain ⟨-, hg⟩ := ClauseList.ofFormula_eq_ok_iff.1 (clauseListOfFormula_eq_ok hg)
  exact hf.symm.trans hg

/-- The clauses of a formula decide what the conversion makes of it. -/
theorem Formula.exists_clausalForm_of_clausesAt_eq {f g : Formula} (hf : f.WellFormed)
    (hg : g.WellFormed) (h : clausesAt .positive g = clausesAt .positive f) :
    ∃ r, f.clausalForm = .ok r ∧ g.clausalForm = .ok r := by
  obtain ⟨r, hfr, hr, hclauses⟩ := exists_clausalForm_clausesAt hf
  obtain ⟨s, hgs, hs, hclauses'⟩ := exists_clausalForm_clausesAt hg
  have heq : s = r := by
    apply hs.eq_of_clausesAt_eq hr
    rw [hclauses', hclauses, h]
  exact ⟨r, hfr, heq ▸ hgs⟩

end Clausal
