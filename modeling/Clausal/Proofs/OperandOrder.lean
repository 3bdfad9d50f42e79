import Clausal.Proofs.Contexts
import Clausal.Proofs.ReferenceClauses
import Mathlib.Data.Multiset.Sections
import Mathlib.Logic.Relation

/-! The order of operands. Conjunctions, disjunctions and equivalences with their operands in a
different order have the same clauses in a different order, and so do the literals of a clause. -/
namespace Clausal

section ClauseBag

variable {α β : Type}

/-- The clauses without their order, and each without the order of its literals. -/
def clauseBag (cs : List (List α)) : Multiset (Multiset α) :=
  Multiset.ofList (cs.map Multiset.ofList)

theorem clauseBag_append (cs ds : List (List α)) :
    clauseBag (cs ++ ds) = clauseBag cs + clauseBag ds := by
  rw [clauseBag, List.map_append, ← Multiset.coe_add]
  rfl

theorem clauseBag_map (g : α → β) (cs : List (List α)) :
    clauseBag (cs.map (List.map g)) = (clauseBag cs).map (Multiset.map g) := by
  rw [clauseBag, clauseBag, Multiset.map_coe, List.map_map, List.map_map]
  rfl

theorem clauseBag_flatten (css : List (List (List α))) :
    clauseBag css.flatten = Multiset.join (Multiset.ofList (css.map clauseBag)) := by
  induction css with
  | nil => rfl
  | cons cs css ih =>
    rw [List.flatten_cons, clauseBag_append, ih, List.map_cons, ← Multiset.cons_coe,
      Multiset.join_cons]

theorem clauseBag_flatMap_append (cs ds : List (List α)) :
    clauseBag (cs.flatMap fun c => ds.map (c ++ ·)) =
      (clauseBag cs).bind fun c => (clauseBag ds).map (c + ·) := by
  have hcons : ∀ c : List α,
      clauseBag (ds.map (c ++ ·)) = (clauseBag ds).map (Multiset.ofList c + ·) := by
    intro c
    rw [clauseBag, clauseBag, Multiset.map_coe, List.map_map, List.map_map]
    rfl
  induction cs with
  | nil => rfl
  | cons c cs ih =>
    rw [List.flatMap_cons, clauseBag_append, ih, hcons]
    show _ = Multiset.bind (Multiset.ofList c ::ₘ clauseBag cs) _
    rw [Multiset.cons_bind]

end ClauseBag

/-- To join one clause of each list is to join a section of the clauses without order. -/
theorem clauseBag_crossClauses (css : List (List (List Literal))) :
    clauseBag (crossClauses css) =
      (Multiset.Sections (Multiset.ofList (css.map clauseBag))).map Multiset.join := by
  induction css with
  | nil => rfl
  | cons cs css ih =>
    rw [crossClauses_cons, clauseBag_flatMap_append, ih, List.map_cons, ← Multiset.cons_coe,
      Multiset.sections_cons, Multiset.map_bind]
    refine Multiset.bind_congr fun c _ => ?_
    rw [Multiset.map_map, Multiset.map_map]
    exact Multiset.map_congr rfl fun s _ => (Multiset.join_cons c s).symm

namespace Polarity

/-- What a conjunction makes of the clauses of its operands, none of them in any order. -/
def conjoinBags : Polarity → Multiset (Multiset (Multiset Literal)) → Multiset (Multiset Literal)
  | positive, bags => bags.join
  | negative, bags => bags.Sections.map Multiset.join

theorem clauseBag_conjoinClauses (p : Polarity) (css : List (List (List Literal))) :
    clauseBag (p.conjoinClauses css) = p.conjoinBags (Multiset.ofList (css.map clauseBag)) := by
  cases p with
  | positive => exact clauseBag_flatten css
  | negative => exact clauseBag_crossClauses css

theorem clauseBag_disjoinClauses (p : Polarity) (css : List (List (List Literal))) :
    clauseBag (p.disjoinClauses css) =
      p.flip.conjoinBags (Multiset.ofList (css.map clauseBag)) := by
  rw [p.disjoinClauses_eq_flip, clauseBag_conjoinClauses]

end Polarity

namespace Formula

/-- The clauses at a polarity without any order. -/
def bagAt (p : Polarity) (f : Formula) : Multiset (Multiset Literal) := clauseBag (clausesAt p f)

theorem bagAt_and (p : Polarity) (args : List Formula) :
    bagAt p (and args) = p.conjoinBags (Multiset.ofList (args.map (bagAt p))) := by
  rw [bagAt, clausesAt, p.clauseBag_conjoinClauses, List.map_map]
  rfl

theorem bagAt_or (p : Polarity) (args : List Formula) :
    bagAt p (or args) = p.flip.conjoinBags (Multiset.ofList (args.map (bagAt p))) := by
  rw [bagAt, clausesAt, p.clauseBag_disjoinClauses, List.map_map]
  rfl

theorem bagAt_not (p : Polarity) (a : Formula) : bagAt p (not a) = bagAt p.flip a := by
  rw [bagAt, clausesAt]
  rfl

theorem bagAt_implies (p : Polarity) (a b : Formula) :
    bagAt p (implies a b) =
      p.flip.conjoinBags (Multiset.ofList [bagAt p.flip a, bagAt p b]) := by
  rw [bagAt, clausesAt, p.clauseBag_disjoinClauses]
  rfl

theorem bagAt_iff (p : Polarity) (a b : Formula) :
    bagAt p (iff a b) =
      p.conjoinBags (Multiset.ofList [bagAt p (implies a b), bagAt p (implies b a)]) := by
  rw [bagAt, clausesAt, p.clauseBag_conjoinClauses, bagAt, bagAt, clausesAt, clausesAt]
  rfl

/-- The operands of one node take another order. -/
inductive Reorders : Formula → Formula → Prop
  | and {args args' : List Formula} (perm : args.Perm args') : Reorders (and args) (and args')
  | or {args args' : List Formula} (perm : args.Perm args') : Reorders (or args) (or args')
  | iff (a b : Formula) : Reorders (iff a b) (iff b a)

/-- Some nodes of the formula, at any depth, have their operands in another order. -/
def Reordered : Formula → Formula → Prop := Relation.ReflTransGen (Context.Anywhere Reorders)

theorem Reorders.wellFormed {f g : Formula} (h : Reorders f g) (hf : f.WellFormed) :
    g.WellFormed := by
  cases h with
  | and perm =>
    obtain ⟨hlen, hargs⟩ := wellFormed_and.1 hf
    rw [wellFormed_and, ← perm.length_eq]
    exact ⟨hlen, fun a ha => hargs a (perm.mem_iff.2 ha)⟩
  | or perm =>
    obtain ⟨hlen, hargs⟩ := wellFormed_or.1 hf
    rw [wellFormed_or, ← perm.length_eq]
    exact ⟨hlen, fun a ha => hargs a (perm.mem_iff.2 ha)⟩
  | iff a b => exact wellFormed_iff.2 (wellFormed_iff.1 hf).symm

theorem Reorders.bagAt_eq {f g : Formula} (h : Reorders f g) (p : Polarity) :
    bagAt p f = bagAt p g := by
  cases h with
  | and perm => rw [bagAt_and, bagAt_and, Multiset.coe_eq_coe.2 (perm.map (bagAt p))]
  | or perm => rw [bagAt_or, bagAt_or, Multiset.coe_eq_coe.2 (perm.map (bagAt p))]
  | iff a b => rw [bagAt_iff, bagAt_iff, Multiset.coe_eq_coe.2 (List.Perm.swap _ _ _)]

end Formula

open Formula

/-- What a node makes of its operands depends on their clauses without order. -/
theorem Frame.bagAt_plug {fr : Frame} {a b : Formula} (h : ∀ p, bagAt p a = bagAt p b)
    (p : Polarity) : bagAt p (fr.plug a) = bagAt p (fr.plug b) := by
  cases fr with
  | not => simp only [plug, bagAt_not, h]
  | premise c => simp only [plug, bagAt_implies, h]
  | conclusion c => simp only [plug, bagAt_implies, h]
  | iffLeft c => simp only [plug, bagAt_iff, bagAt_implies, h]
  | iffRight c => simp only [plug, bagAt_iff, bagAt_implies, h]
  | and before after => simp only [plug, bagAt_and, List.map_append, List.map_cons, h]
  | or before after => simp only [plug, bagAt_or, List.map_append, List.map_cons, h]

theorem Context.bagAt_fill {K : Context} {f g : Formula} (h : ∀ p, bagAt p f = bagAt p g)
    (p : Polarity) : bagAt p (K.fill f) = bagAt p (K.fill g) := by
  induction K generalizing p with
  | nil => exact h p
  | cons fr K ih => exact Frame.bagAt_plug ih p

namespace Formula

/-- One node in another order keeps the formula well-formed, and the clauses up to order. -/
theorem wellFormed_bagAt_of_anywhere {f g : Formula} (h : Context.Anywhere Reorders f g)
    (hf : f.WellFormed) : g.WellFormed ∧ ∀ p, bagAt p f = bagAt p g := by
  obtain ⟨K, a, b, hab, rfl, rfl⟩ := h
  obtain ⟨ha, hfill⟩ := Context.wellFormed_fill hf
  exact ⟨hfill b (hab.wellFormed ha), Context.bagAt_fill hab.bagAt_eq⟩

theorem Reordered.wellFormed_bagAt {f g : Formula} (h : f.Reordered g) (hf : f.WellFormed) :
    g.WellFormed ∧ ∀ p, bagAt p f = bagAt p g := by
  induction h with
  | refl => exact ⟨hf, fun _ => rfl⟩
  | tail _ hstep ih =>
    obtain ⟨hmid, hbags⟩ := ih
    obtain ⟨hg, hbags'⟩ := wellFormed_bagAt_of_anywhere hstep hmid
    exact ⟨hg, fun p => (hbags p).trans (hbags' p)⟩

/-- Formulas that differ in the order of operands alone are handed over as the same clauses in
another order, each with its literals in another order: none is lost, none is new, and none occurs
more or less often. -/
theorem clauseBag_of_reordered {f g : Formula} (hf : f.WellFormed) (h : f.Reordered g) :
    g.WellFormed ∧ ∃ cs ds, f.clauseList = .ok cs ∧ g.clauseList = .ok ds ∧
      clauseBag cs.toLists = clauseBag ds.toLists := by
  obtain ⟨hg, hbags⟩ := h.wellFormed_bagAt hf
  have hlists : clauseBag (clausesAt .positive f) = clauseBag (clausesAt .positive g) :=
    hbags .positive
  refine ⟨hg, _, _, clauseList_eq_ok hf, clauseList_eq_ok hg, ?_⟩
  rw [toLists_map_mk, toLists_map_mk, clauseBag_map, clauseBag_map, hlists]

/-- The disjunction, the negated conjunction below it and the equivalence below it are turned
round, one after the other. -/
theorem clauseBag_of_three_turns :
    let x1 : Literal := .ofWord 1 (by decide)
    let x2 : Literal := .ofWord 2 (by decide)
    let x3 : Literal := .ofWord 3 (by decide)
    let f := or [not (and [lit x1, lit x2]), iff (lit x2) (lit x3)]
    let g := or [iff (lit x3) (lit x2), not (and [lit x2, lit x1])]
    f.WellFormed ∧ f.Reordered g ∧ f ≠ g ∧
      ∃ cs ds, f.clauseList = .ok cs ∧ g.clauseList = .ok ds ∧
        clauseBag cs.toLists = clauseBag ds.toLists := by
  intro x1 x2 x3 f g
  have hf : f.WellFormed := by simp [f]
  let outer := or [iff (lit x2) (lit x3), not (and [lit x1, lit x2])]
  let middle := or [iff (lit x2) (lit x3), not (and [lit x2, lit x1])]
  have hfirst : Context.Anywhere Reorders f outer :=
    ⟨[], f, outer, .or (.swap _ _ []), rfl, rfl⟩
  have hsecond : Context.Anywhere Reorders outer middle :=
    ⟨[.or [iff (lit x2) (lit x3)] [], .not], _, _, .and (.swap (lit x2) (lit x1) []), rfl, rfl⟩
  have hthird : Context.Anywhere Reorders middle g :=
    ⟨[.or [] [not (and [lit x2, lit x1])]], _, _, .iff (lit x2) (lit x3), rfl, rfl⟩
  have hfg : f.Reordered g := ((Relation.ReflTransGen.single hfirst).tail hsecond).tail hthird
  have hne : f ≠ g := by decide
  obtain ⟨-, hlists⟩ := clauseBag_of_reordered hf hfg
  exact ⟨hf, hfg, hne, hlists⟩

end Formula

end Clausal
