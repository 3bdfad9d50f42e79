import Clausal.ClauseEditor
import Clausal.Proofs.ListReading
import Clausal.Proofs.LiteralWords

/-! Lists of integers as clauses. What is read is what was written, and nothing is read where a list
is empty or has an integer that is no literal. A list that is refused leaves the clauses as they
are, so clauses that are added one at a time are those of the accepted lists. -/
namespace Clausal

theorem bind_eq_error_iff {ε α β : Type} {x : Except ε α} {f : α → Except ε β} {e : ε} :
    x >>= f = .error e ↔ x = .error e ∨ ∃ a, x = .ok a ∧ f a = .error e := by
  cases x <;> simp [bind, Except.bind]

theorem map_eq_ok_iff {ε α β : Type} {x : Except ε α} {g : α → β} {b : β} :
    x.map g = .ok b ↔ ∃ a, x = .ok a ∧ g a = b := by
  cases x <;> simp [Except.map]

namespace Literal

theorem mapM_ofInt64_eq_ok_iff {ns : List Int64} {ls : List Literal} :
    ns.mapM ofInt64 = .ok ls ↔ ls.map code = ns := by
  induction ns generalizing ls with
  | nil => cases ls <;> simp [pure, Except.pure]
  | cons n ns ih =>
    rw [List.mapM_cons, bind_eq_ok_iff]
    simp only [ofInt64_eq_ok_iff, bind_eq_ok_iff, ih, pure, Except.pure, Except.ok.injEq,
      List.map_eq_cons_iff]
    grind

theorem mapM_ofInt64_eq_error_iff {ns : List Int64} {e : Fault} :
    ns.mapM ofInt64 = .error e ↔ (∃ n ∈ ns, ¬ InRange n) ∧ e = .broken .literalRange := by
  induction ns with
  | nil => simp [pure, Except.pure]
  | cons n ns ih =>
    rw [List.mapM_cons, bind_eq_error_iff]
    simp only [ofInt64_eq_error_iff, bind_eq_error_iff, ih, pure, Except.pure, reduceCtorEq,
      and_false, exists_false, or_false]
    by_cases hn : InRange n
    · have hread : ∃ l, ofInt64 n = .ok l := ⟨ofWord n hn, ofInt64_eq_ok_iff.2 rfl⟩
      grind
    · grind

end Literal

/-- Where a variable has a literal, its number is the word of that literal. -/
theorem Var.ofInt64_index {v : Var} {l : Literal} (h : v.literal = .ok l) :
    Literal.ofInt64 v.index.toInt64 = .ok l := by
  rw [Var.literal, v.toInt64_index] at h
  split at h
  next => exact h
  next => contradiction

namespace Clause

/-- A list of integers that is empty or has one that is no literal. -/
def IsRefused (ns : List Int64) : Prop := ns = [] ∨ 0 ∈ ns ∨ Int64.minValue ∈ ns

/-- Why integers are refused: that one is no literal is seen before that there is none. -/
def fault? (ns : List Int64) : Option Fault :=
  if 0 ∈ ns ∨ Int64.minValue ∈ ns then some (.broken .literalRange)
  else if ns = [] then some (.broken .nonemptyClause)
  else none

theorem fault?_eq_none_iff {ns : List Int64} : fault? ns = none ↔ ¬ IsRefused ns := by
  unfold fault? IsRefused
  split
  next h => simp [h]
  next h => simp [h]

theorem fault?_eq_some_iff {ns : List Int64} {e : Fault} :
    fault? ns = some e ↔
      (0 ∈ ns ∨ Int64.minValue ∈ ns) ∧ e = .broken .literalRange ∨
        ns = [] ∧ e = .broken .nonemptyClause := by
  unfold fault?
  split
  next h =>
    have hne : ns ≠ [] := by
      rintro rfl
      simp at h
    simp [h, hne, eq_comm]
  next h => simp [h, eq_comm]

theorem exists_not_inRange_iff {ns : List Int64} :
    (∃ n ∈ ns, ¬ Literal.InRange n) ↔ 0 ∈ ns ∨ Int64.minValue ∈ ns := by
  simp only [Literal.InRange]
  grind

/-- Reading undoes writing. -/
theorem ofInts_eq_ok_iff {ns : List Int64} {c : Clause} :
    ofInts ns = .ok c ↔ ns ≠ [] ∧ c.toInts = ns := by
  rw [ofInts, bind_eq_ok_iff]
  simp only [Literal.mapM_ofInt64_eq_ok_iff, ofLiterals, toInts]
  constructor
  · rintro ⟨ls, rfl, h⟩
    split at h
    next => contradiction
    next hne =>
      cases h
      exact ⟨by simpa using hne, rfl⟩
  · rintro ⟨hne, rfl⟩
    exact ⟨c.literals, rfl, if_neg (by simpa using hne)⟩

theorem ofInts_eq_error_iff {ns : List Int64} {e : Fault} :
    ofInts ns = .error e ↔ fault? ns = some e := by
  rw [ofInts, bind_eq_error_iff, fault?_eq_some_iff]
  simp only [Literal.mapM_ofInt64_eq_ok_iff, Literal.mapM_ofInt64_eq_error_iff,
    exists_not_inRange_iff, ofLiterals]
  refine or_congr_right ⟨?_, ?_⟩
  · rintro ⟨ls, rfl, h⟩
    split at h
    next hnil =>
      cases h
      exact ⟨by simpa using hnil, rfl⟩
    next => contradiction
  · rintro ⟨rfl, rfl⟩
    exact ⟨[], rfl, rfl⟩

theorem exists_ofInts_eq_ok_iff {ns : List Int64} :
    (∃ c, ofInts ns = .ok c) ↔ ¬ IsRefused ns := by
  rw [← fault?_eq_none_iff]
  cases h : ofInts ns with
  | ok c =>
    have hfault : ∀ e, fault? ns ≠ some e := by
      intro e he
      rw [← ofInts_eq_error_iff, h] at he
      contradiction
    simp [Option.eq_none_iff_forall_ne_some.2 hfault]
  | error e => simp [ofInts_eq_error_iff.1 h]

theorem ofInts32_eq (ns : List Int32) : ofInts32 ns = ofInts (ns.map Int32.toInt64) := by
  rw [ofInts32, ofInts, List.mapM_map]
  rfl

end Clause

namespace ClauseList

/-- Clauses are added in the order of their lists, and no list is empty. -/
theorem foldlM_add_eq_ok_iff {nss : List (List Int64)} {cs ds : ClauseList} :
    nss.foldlM add cs = .ok ds ↔
      (∀ ns ∈ nss, ns ≠ []) ∧
        ∃ added : List Clause, added.map Clause.toInts = nss ∧ ds = ⟨cs.clauses ++ added⟩ := by
  induction nss generalizing cs with
  | nil => simp [pure, Except.pure, eq_comm]
  | cons ns nss ih =>
    rw [List.foldlM_cons, bind_eq_ok_iff]
    simp only [add, map_eq_ok_iff, Clause.ofInts_eq_ok_iff, ih, List.forall_mem_cons,
      List.map_eq_cons_iff]
    constructor
    · rintro ⟨-, ⟨c, ⟨hne, rfl⟩, rfl⟩, hnes, added, rfl, rfl⟩
      exact ⟨⟨hne, hnes⟩, c :: added, ⟨c, added, rfl, rfl, rfl⟩, by simp⟩
    · rintro ⟨⟨hne, hnes⟩, -, ⟨c, added, rfl, rfl, rfl⟩, rfl⟩
      exact ⟨cs.push c, ⟨c, ⟨hne, rfl⟩, rfl⟩, hnes, added, rfl, by simp⟩

/-- The first list that is refused decides the fault. -/
theorem foldlM_add_eq_error_iff {nss : List (List Int64)} {cs : ClauseList} {e : Fault} :
    nss.foldlM add cs = .error e ↔ nss.findSome? Clause.fault? = some e := by
  induction nss generalizing cs with
  | nil => simp [pure, Except.pure]
  | cons ns nss ih =>
    rw [List.foldlM_cons, List.findSome?_cons, add]
    cases hns : Clause.fault? ns with
    | some e' =>
      rw [Clause.ofInts_eq_error_iff.2 hns]
      simp [Except.map, bind, Except.bind]
    | none =>
      obtain ⟨c, hc⟩ := Clause.exists_ofInts_eq_ok_iff.2 (Clause.fault?_eq_none_iff.1 hns)
      rw [hc]
      exact ih

example : ofLists [[1, -2], [3, 0], []] = .error (.broken .literalRange) := by decide

theorem exists_ofLists_eq_error_iff {nss : List (List Int64)} :
    (∃ e, ofLists nss = .error e) ↔ ∃ ns ∈ nss, Clause.IsRefused ns := by
  simp only [ofLists, foldlM_add_eq_error_iff, ← Option.ne_none_iff_exists', ne_eq,
    List.findSome?_eq_none_iff, Clause.fault?_eq_none_iff, not_forall, not_not, exists_prop]

/-- Reading undoes writing where no list is empty. -/
theorem ofLists_eq_ok_iff {nss : List (List Int64)} {cs : ClauseList} :
    ofLists nss = .ok cs ↔ (∀ ns ∈ nss, ns ≠ []) ∧ cs.toLists = nss := by
  rw [ofLists, foldlM_add_eq_ok_iff, toLists]
  refine and_congr_right fun _ => ⟨?_, ?_⟩
  · rintro ⟨added, rfl, rfl⟩
    rfl
  · rintro rfl
    exact ⟨cs.clauses, rfl, rfl⟩

theorem exists_ofLists_eq_ok_iff {nss : List (List Int64)} :
    (∃ cs, ofLists nss = .ok cs ∧ cs.toLists = nss) ↔ ∀ ns ∈ nss, ¬ Clause.IsRefused ns := by
  have hfails : (¬ ∃ e, ofLists nss = .error e) ↔ ¬ ∃ ns ∈ nss, Clause.IsRefused ns :=
    exists_ofLists_eq_error_iff.not
  simp only [not_exists, not_and] at hfails
  rw [← hfails]
  cases h : ofLists nss with
  | ok cs => simp [(ofLists_eq_ok_iff.1 h).2]
  | error e => simp

end ClauseList

/-! ### Adding one clause at a time -/

namespace ClauseEditor

/-- A call that adds a clause, by the numbers it is given. -/
inductive Addition where
  | ints (ns : List Int64)
  | ints32 (ns : List Int32)
  | vars (vs : List Var)

namespace Addition

def step : Addition → Step
  | ints ns => .add ns
  | ints32 ns => .add32 ns
  | vars vs => .addVars vs

/-- The numbers as 64-bit words. -/
def words : Addition → List Int64
  | ints ns => ns
  | ints32 ns => ns.map Int32.toInt64
  | vars vs => vs.map fun v => v.index.toInt64

/-- The clause that is to be added. -/
def clause : Addition → Except Fault Clause
  | ints ns => Clause.ofInts ns
  | ints32 ns => Clause.ofInts32 ns
  | vars vs => Clause.ofVars vs

/-- Whether the call succeeds. -/
def accepted (a : Addition) : Bool := (ClauseEditor.step .empty a.step).1.isOk

/-- The clauses after some calls. -/
def run (cs : ClauseList) (as : List Addition) : ClauseList :=
  as.foldl (fun ds a => (ClauseEditor.step ds a.step).2) cs

theorem step_eq (cs : ClauseList) (a : Addition) :
    ClauseEditor.step cs a.step = update cs (a.clause.map cs.push) := by
  cases a <;> rfl

theorem clause_eq_ok {a : Addition} {c : Clause} (h : a.clause = .ok c) :
    Clause.ofInts a.words = .ok c := by
  cases a with
  | ints ns => exact h
  | ints32 ns => rwa [clause, Clause.ofInts32_eq] at h
  | vars vs =>
    obtain ⟨ls, hls, hc⟩ := bind_eq_ok_iff.1 h
    refine bind_eq_ok_iff.2 ⟨ls, ?_, hc⟩
    rw [words, List.mapM_map]
    exact Formula.mapM_ok_mono (fun v _ l hl => Var.ofInt64_index hl) hls

/-- A call adds its clause to every list, or it fails at every list and leaves it as it is. -/
theorem step_cases (a : Addition) :
    (a.accepted = true ∧ ∃ c, Clause.ofInts a.words = .ok c ∧
      ∀ cs, ClauseEditor.step cs a.step = (.ok .none, cs.push c)) ∨
    (a.accepted = false ∧ ∃ e, ∀ cs, ClauseEditor.step cs a.step = (.error e, cs)) := by
  simp only [accepted, step_eq]
  cases h : a.clause with
  | ok c => exact .inl ⟨rfl, c, clause_eq_ok h, fun cs => rfl⟩
  | error e => exact .inr ⟨rfl, e, fun cs => rfl⟩

theorem accepted_iff {a : Addition} : a.accepted = true ↔ ∃ c, a.clause = .ok c := by
  rw [accepted, step_eq]
  cases a.clause with
  | ok c => exact ⟨fun _ => ⟨c, rfl⟩, fun _ => rfl⟩
  | error e => exact ⟨nofun, nofun⟩

/-- The calls that fail leave no trace. -/
theorem foldlM_add_words (cs : ClauseList) (as : List Addition) :
    ((as.filter accepted).map words).foldlM ClauseList.add cs = .ok (run cs as) := by
  induction as generalizing cs with
  | nil => rfl
  | cons a as ih =>
    rcases a.step_cases with ⟨haccepted, c, hc, hstep⟩ | ⟨hrejected, e, hstep⟩
    · have hadd : cs.add a.words = .ok (cs.push c) := by
        rw [ClauseList.add, hc]
        rfl
      rw [List.filter_cons_of_pos haccepted, List.map_cons, List.foldlM_cons, hadd, run,
        List.foldl_cons, hstep]
      exact ih (cs.push c)
    · rw [List.filter_cons_of_neg (by simp [hrejected]), run, List.foldl_cons, hstep]
      exact ih cs

end Addition

end ClauseEditor

namespace ClauseList

open ClauseEditor

/-- Loading fails exactly if a list is empty or has an integer that is no literal, with the message
of the first such list. Otherwise the lists are those of the clauses, and the lists of clauses load
as these clauses where none is empty. Clauses that are added one by one, while some calls fail,
are the accepted ones. The text determines the clauses. -/
theorem views_of_clauses_agree (nss : List (List Int64)) (cs : ClauseList) (as : List Addition) :
    ((∃ e, ofLists nss = .error e) ↔ ∃ ns ∈ nss, Clause.IsRefused ns) ∧
    (∀ e, ofLists nss = .error e ↔
      ∃ before ns after, nss = before ++ ns :: after ∧ (∀ ms ∈ before, ¬ Clause.IsRefused ms) ∧
        ((0 ∈ ns ∨ Int64.minValue ∈ ns) ∧ e = .broken .literalRange ∨
          ns = [] ∧ e = .broken .nonemptyClause)) ∧
    (Fault.broken .literalRange).text = "literal must be non-zero and negatable" ∧
    (Fault.broken .nonemptyClause).text = "Clause must be non-empty" ∧
    ((∃ ds, ofLists nss = .ok ds ∧ ds.toLists = nss) ↔ ∀ ns ∈ nss, ¬ Clause.IsRefused ns) ∧
    (ofLists cs.toLists = .ok cs ↔ ∀ c ∈ cs.clauses, c.literals ≠ []) ∧
    (∀ a : Addition,
      (a.accepted = true ∧ ∃ c, Clause.ofInts a.words = .ok c ∧
        ∀ ds, step ds a.step = (.ok .none, ds.push c)) ∨
      (a.accepted = false ∧ ∃ e, ∀ ds, step ds a.step = (.error e, ds))) ∧
    (∀ ns, (Addition.ints ns).accepted = true ↔ ¬ Clause.IsRefused ns) ∧
    ofLists ((as.filter Addition.accepted).map Addition.words) = .ok (Addition.run .empty as) ∧
    ofText? cs.text = some cs ∧ ∀ ds : ClauseList, ds.text = cs.text ↔ ds = cs := by
  refine ⟨exists_ofLists_eq_error_iff, fun e => ?_, rfl, rfl, exists_ofLists_eq_ok_iff, ?_,
    Addition.step_cases, fun ns => ?_, Addition.foldlM_add_words .empty as, cs.ofText?_text,
    fun ds => text_injective.eq_iff⟩
  · rw [ofLists, foldlM_add_eq_error_iff, List.findSome?_eq_some_iff]
    simp only [Clause.fault?_eq_some_iff, Clause.fault?_eq_none_iff, and_comm]
  · rw [ofLists_eq_ok_iff]
    simp [toLists, Clause.toInts]
  · rw [Addition.accepted_iff]
    exact Clause.exists_ofInts_eq_ok_iff

end ClauseList

end Clausal
