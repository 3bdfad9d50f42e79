import Clausal.Proofs.ConstructorReading
import Clausal.Proofs.PassEvaluation

/-! Infix notation reads back up to the signs of literals. The minus sign of a negative literal
looks like a negation, so a text gives the formula in which every negative literal is the negation
of its variable. -/
namespace Clausal

open Text

namespace Connective

/-- The connective of a mark that stands between operands. -/
def ofSymbol? (s : List Char) : Option Connective :=
  [and, or, implies, iff].find? fun c => c.symbol.toList = s

theorem ofSymbol?_symbol {c : Connective} (h : c ≠ .not) : ofSymbol? c.symbol.toList = some c := by
  cases c with
  | not => contradiction
  | _ => decide

end Connective

namespace Text.Item

/-- The item with a character put in front of its word or head. -/
def prepend (c : Char) : Item → Item
  | word w => .word (c :: w)
  | group head items => .group (c :: head) items

/-- The items in parentheses, with the mark of the connective between them. -/
def joined (c : Connective) (items : List Item) : Item :=
  .group [] (items.intersperse (.word c.symbol.toList))

variable {sep : Separator}

theorem text_prepend (c : Char) (t : Item) : (t.prepend c).text sep = c :: t.text sep := by
  cases t with
  | word w => rw [prepend, text, text]
  | group head items =>
    rw [prepend, text, text]
    rfl

theorem Legible.prepend {c : Char} (hc : IsPlain sep [c]) {t : Item} (h : t.Legible sep) :
    (t.prepend c).Legible sep := by
  have hplain := (isPlain_cons.1 hc).1
  cases h with
  | word nonempty plain => exact .word (List.cons_ne_nil _ _) (isPlain_cons.2 ⟨hplain, plain⟩)
  | group plain legible => exact .group (isPlain_cons.2 ⟨hplain, plain⟩) legible

end Text.Item

namespace Formula

/-! ### Signs of literals -/

/-- A negative literal becomes the negation of its variable. -/
def splitSign : Formula → Formula
  | lit l => if l.isNegative then not (lit (-l)) else lit l
  | f => f

/-- A negated literal becomes the opposite literal. -/
def joinSign : Formula → Formula
  | not (lit l) => lit (-l)
  | f => f

/-- The formula with every negative literal replaced by the negation of its variable. -/
def splitSigns (f : Formula) : Formula := f.bottomUp splitSign

theorem splitSigns_of_connective? {f : Formula} {c : Connective} (h : f.connective? = some c) :
    f.splitSigns = f.mapOperands splitSigns := by
  rw [splitSigns, bottomUp_eq]
  cases f with
  | lit l => contradiction
  | _ => rfl

theorem wellFormed_splitSign {f : Formula} (h : f.WellFormed) : f.splitSign.WellFormed := by
  cases f with
  | lit l =>
    rw [splitSign]
    split <;> simp
  | _ => exact h

theorem eval_splitSign (m : Assignment) (f : Formula) : f.splitSign.eval m = f.eval m := by
  cases f with
  | lit l =>
    rw [splitSign]
    split
    next hneg =>
      rw [eval, eval, eval, Literal.var_neg, Literal.isNegative_neg, hneg]
      cases m l.var with
      | none => rfl
      | some b => cases b <;> rfl
    next => rfl
  | _ => rfl

theorem eval_splitSigns {f : Formula} (hf : f.WellFormed) (m : Assignment) :
    f.splitSigns.eval m = f.eval m :=
  (isCompositional_eval m).bottomUp (fun _ => wellFormed_splitSign) (fun g _ => eval_splitSign m g)
    hf

/-- No negation stands anywhere; literals may be negative. -/
def IsNegationFree (f : Formula) : Prop := f.Everywhere fun g => g.connective? ≠ some .not

theorem IsNnf.isNegationFree {f : Formula} (h : f.IsNnf) : f.IsNegationFree := by
  intro g hg hcon
  rcases h g hg _ hcon with h | h <;> contradiction

/-- Without negations the signs can be put back. -/
theorem IsNegationFree.bottomUp_joinSign {f : Formula} (hf : f.IsNegationFree) :
    f.splitSigns.bottomUp joinSign = f := by
  induction f using induction_operands with
  | step f ih =>
    cases hc : f.connective? with
    | none =>
      obtain ⟨l, rfl⟩ := connective?_eq_none_iff.1 hc
      rw [splitSigns, bottomUp, splitSign]
      split
      next => simp [bottomUp, joinSign]
      next =>
        rw [bottomUp]
        rfl
    | some c =>
      have hoperands : f.mapOperands (bottomUp joinSign ∘ splitSigns) = f :=
        mapOperands_eq_self fun a ha => ih a ha (hf.operand ha)
      rw [splitSigns_of_connective? hc, bottomUp_eq, mapOperands_mapOperands, hoperands]
      cases f with
      | not a => exact absurd rfl hf.self
      | _ => rfl

/-! ### Items -/

/-- The formula as an item, operators between their operands. -/
def mathItem : Formula → Item
  | lit l => .word (numeral l.toInt)
  | not a => a.mathItem.prepend '-'
  | implies a b => .joined .implies [a.mathItem, b.mathItem]
  | iff a b => .joined .iff [a.mathItem, b.mathItem]
  | and args => .joined .and (args.map fun a => a.mathItem)
  | or args => .joined .or (args.map fun a => a.mathItem)

/-- Negates once for every minus sign. -/
def negated? : List Char → Formula → Option Formula
  | [], f => some f
  | c :: signs, f => if c = '-' then (negated? signs f).map not else none

/-- Reads a variable after any number of minus signs. -/
def ofSigned? : List Char → Option Formula
  | '-' :: w => (ofSigned? w).map not
  | w => do
    let n ← natural? w
    let l ← Literal.ofInt? n
    return lit l

/-- The connective whose mark follows the first item. -/
def mark? : List Item → Option Connective
  | _ :: .word s :: _ => Connective.ofSymbol? s
  | _ => none

mutual

/-- Reads an item in infix notation. -/
def ofMathItem? : Item → Option Formula
  | .word w => ofSigned? w
  | .group signs items => do
    let c ← mark? items
    let args ← ofJoined? c items
    let f ← ofOperands? c args
    negated? signs f

/-- Reads operands that have the mark of the connective between them. -/
def ofJoined? (c : Connective) : List Item → Option (List Formula)
  | [t] => do
    let f ← ofMathItem? t
    return [f]
  | t :: .word s :: items =>
    if s = c.symbol.toList then do
      let f ← ofMathItem? t
      let fs ← ofJoined? c items
      return f :: fs
    else none
  | _ => none

end

def ofMath? (s : String) : Option Formula := do
  let t ← Item.read? .blank s.toList
  ofMathItem? t

/-! ### Reading what was written -/

/-- Induction that tells negations from operands with marks between them. -/
@[elab_as_elim]
theorem induction_joined {motive : Formula → Prop} (lit : ∀ l, motive (lit l))
    (not : ∀ a, motive a → motive (not a))
    (joined : ∀ f c, f.connective? = some c → c ≠ .not → (∀ a ∈ f.operands, motive a) → motive f)
    (f : Formula) : motive f := by
  induction f using induction_operands with
  | step f ih =>
    cases f with
    | lit l => exact lit l
    | not a => exact not a (ih a (by simp [operands]))
    | _ => exact joined _ _ rfl (by decide) ih

theorem mathItem_eq {f : Formula} {c : Connective} (h : f.connective? = some c) (hc : c ≠ .not) :
    f.mathItem = .joined c (f.operands.map mathItem) := by
  cases f with
  | lit l => contradiction
  | not a => simp_all [connective?]
  | _ =>
    cases h
    rw [mathItem]
    rfl

theorem ofSigned?_of_isDigit {w : List Char} (h : ∀ c ∈ w, c.isDigit = true) :
    ofSigned? w = (natural? w).bind fun n => (Literal.ofInt? n).map lit := by
  unfold ofSigned?
  split
  next w =>
    have hminus := h '-' (by simp)
    contradiction
  next =>
    cases natural? w with
    | none => rfl
    | some n =>
      simp only [Option.bind_eq_bind, Option.bind_some]
      cases Literal.ofInt? n <;> rfl

theorem ofSigned?_numeral_of_nonneg {l : Literal} (h : 0 ≤ l.toInt) :
    ofSigned? (numeral l.toInt) = some (lit l) := by
  obtain ⟨n, hn⟩ := Int.eq_ofNat_of_zero_le h
  have hlit := Literal.ofInt?_toInt l
  rw [hn] at hlit ⊢
  rw [numeral_natCast, ofSigned?_of_isDigit fun _ => isDigit_of_mem_toDigits, natural?_toDigits,
    Option.bind_some, hlit, Option.map_some]

theorem ofSigned?_numeral (l : Literal) :
    ofSigned? (numeral l.toInt) = some (splitSign (lit l)) := by
  rw [splitSign]
  split
  next hneg =>
    have hlt : l.toInt < 0 := by simpa [Literal.isNegative] using hneg
    have hopposite : 0 ≤ (-l).toInt := by
      rw [Literal.toInt_neg]
      omega
    rw [numeral_of_neg hlt, ofSigned?, ← Literal.toInt_neg, ofSigned?_numeral_of_nonneg hopposite,
      Option.map_some]
  next hneg => exact ofSigned?_numeral_of_nonneg (by simpa [Literal.isNegative] using hneg)

theorem ofMathItem?_prepend (t : Item) :
    ofMathItem? (t.prepend '-') = (ofMathItem? t).map not := by
  cases t with
  | word w => rw [Item.prepend, ofMathItem?, ofMathItem?, ofSigned?]
  | group signs items =>
    rw [Item.prepend, ofMathItem?, ofMathItem?]
    cases mark? items with
    | none => rfl
    | some c =>
      simp only [Option.bind_eq_bind, Option.bind_some]
      cases ofJoined? c items with
      | none => rfl
      | some args =>
        simp only [Option.bind_some]
        cases ofOperands? c args <;> rfl

theorem mark?_intersperse {c : Connective} (hc : c ≠ .not) {items : List Item}
    (h : 2 ≤ items.length) : mark? (items.intersperse (.word c.symbol.toList)) = some c := by
  match items, h with
  | t :: u :: items, _ =>
    rw [List.intersperse_cons_cons, mark?, Connective.ofSymbol?_symbol hc]

theorem ofJoined?_intersperse (c : Connective) {args : List Formula} (hne : args ≠ [])
    (h : ∀ a ∈ args, ofMathItem? a.mathItem = some a.splitSigns) :
    ofJoined? c ((args.map mathItem).intersperse (.word c.symbol.toList)) =
      some (args.map splitSigns) := by
  induction args with
  | nil => contradiction
  | cons a args ih =>
    have ha := h a (by simp)
    cases args with
    | nil => simp [ofJoined?, ha]
    | cons b args =>
      have hrest := ih (by simp) fun x hx => h x (List.mem_cons_of_mem _ hx)
      rw [List.map_cons, List.map_cons, List.intersperse_cons_cons, ofJoined?, if_pos rfl,
        ← List.map_cons, hrest, ha]
      rfl

/-- An item in infix notation is read as the formula with the signs of its literals split off. -/
theorem ofMathItem?_mathItem {f : Formula} (hf : f.WellFormed) :
    ofMathItem? f.mathItem = some f.splitSigns := by
  induction f using induction_joined with
  | lit l =>
    rw [mathItem, ofMathItem?, ofSigned?_numeral, splitSigns, bottomUp]
  | not a ih =>
    rw [mathItem, ofMathItem?_prepend, ih (wellFormed_not.1 hf),
      splitSigns_of_connective? (f := not a) rfl]
    rfl
  | joined f c h hc ih =>
    have hlen := two_le_length_operands hf h hc
    have hne : f.operands ≠ [] :=
      List.ne_nil_of_length_pos (Nat.lt_of_lt_of_le Nat.zero_lt_two hlen)
    rw [mathItem_eq h hc, Item.joined, ofMathItem?, mark?_intersperse hc (by simpa using hlen)]
    simp only [Option.bind_eq_bind, Option.bind_some, negated?,
      ofJoined?_intersperse c hne fun a ha => ih a ha (hf.operand ha), ofOperands?_map_operands h,
      splitSigns_of_connective? h]

/-! ### Texts of items -/

/-- A mark between two items stands between blanks. -/
theorem intercalate_intersperse (s : List Char) (items : List Item) :
    [' '].intercalate ((items.intersperse (.word s)).map fun t => t.text .blank) =
      (' ' :: (s ++ [' '])).intercalate (items.map fun t => t.text .blank) := by
  induction items with
  | nil => rfl
  | cons t items ih =>
    cases items with
    | nil => simp
    | cons u items =>
      have hne : (((u :: items).intersperse (.word s)).map fun t => t.text .blank) ≠ [] := by
        cases items <;> simp
      rw [List.intersperse_cons_cons, List.map_cons, List.map_cons, List.intercalate_cons_cons,
        List.intercalate_cons_of_ne_nil hne, ih, Item.text]
      simp [List.intercalate_cons_cons]

theorem toList_joined (c : Connective) (texts : List String) :
    (mathText.joined c texts).toList =
      '(' ::
        ((' ' :: (c.symbol.toList ++ [' '])).intercalate (texts.map String.toList) ++ [')']) := by
  simp [mathText.joined]

theorem mathText_eq {f : Formula} {c : Connective} (h : f.connective? = some c) (hc : c ≠ .not) :
    f.mathText = mathText.joined c (f.operands.map mathText) := by
  cases f with
  | lit l => contradiction
  | not a => simp_all [connective?]
  | _ =>
    cases h
    rw [mathText]
    rfl

theorem toList_mathText (f : Formula) : f.mathText.toList = f.mathItem.text .blank := by
  induction f using induction_joined with
  | lit l => rw [mathText, mathItem, Item.text, Literal.toList_text]
  | not a ih =>
    rw [mathText, mathItem, Item.text_prepend, ← ih, String.toList_append]
    rfl
  | joined f c h hc ih =>
    rw [mathText_eq h hc, toList_joined, map_map_congr ih, mathItem_eq h hc, Item.joined, Item.text,
      Separator.char, intercalate_intersperse, List.map_map]
    rfl

theorem legible_symbol (c : Connective) : (Item.word c.symbol.toList).Legible .blank := by
  refine .word ?_ ?_ <;> cases c <;> simp [Connective.symbol, Separator.char]

theorem forall_mem_intersperse {α : Type} {P : α → Prop} {x : α} {xs : List α} (hx : P x)
    (h : ∀ y ∈ xs, P y) : ∀ y ∈ xs.intersperse x, P y := by
  induction xs with
  | nil => simp
  | cons y ys ih =>
    have hys := ih fun z hz => h z (List.mem_cons_of_mem _ hz)
    cases ys with
    | nil => simpa using h
    | cons z zs =>
      rw [List.intersperse_cons_cons, List.forall_mem_cons, List.forall_mem_cons]
      exact ⟨h y (by simp), hx, hys⟩

theorem legible_mathItem (f : Formula) : f.mathItem.Legible .blank := by
  induction f using induction_joined with
  | lit l =>
    rw [mathItem]
    exact .word (numeral_ne_nil _) (isPlain_numeral _ _)
  | not a ih =>
    rw [mathItem]
    exact ih.prepend (by simp [Separator.char])
  | joined f c h hc ih =>
    rw [mathItem_eq h hc]
    refine .group (isPlain_nil _) (forall_mem_intersperse (legible_symbol c) ?_)
    rw [List.forall_mem_map]
    exact ih

/-- Splitting off signs cannot be seen in a text. -/
theorem mathItem_splitSigns (f : Formula) : f.splitSigns.mathItem = f.mathItem := by
  induction f using induction_joined with
  | lit l =>
    rw [splitSigns, bottomUp, splitSign]
    split
    next hneg =>
      have hlt : l.toInt < 0 := by simpa [Literal.isNegative] using hneg
      rw [mathItem, mathItem, mathItem, numeral_of_neg hlt, Literal.toInt_neg, Item.prepend]
    next => rfl
  | not a ih =>
    rw [splitSigns_of_connective? (f := not a) rfl, mapOperands, mathItem, ih, mathItem]
  | joined f c h hc ih =>
    have hf : (f.mapOperands splitSigns).connective? = some c := by
      rw [connective?_mapOperands, h]
    rw [splitSigns_of_connective? h, mathItem_eq hf hc, operands_mapOperands, map_map_congr ih,
      mathItem_eq h hc]

theorem mathText_splitSigns (f : Formula) : f.splitSigns.mathText = f.mathText := by
  rw [← String.toList_inj, toList_mathText, toList_mathText, mathItem_splitSigns]

theorem ofMath?_mathText {f : Formula} (hf : f.WellFormed) :
    ofMath? f.mathText = some f.splitSigns := by
  rw [ofMath?, toList_mathText, Item.read?_text (legible_mathItem f)]
  exact ofMathItem?_mathItem hf

/-- Two texts in infix notation are equal exactly if the formulas are equal once negative literals
are written as negations. Formulas with one text have one value under every assignment, and where
there is no negation, as in clausal forms, the text determines the formula. -/
theorem mathText_eq_iff {f g : Formula} (hf : f.WellFormed) (hg : g.WellFormed) :
    (f.mathText = g.mathText ↔ f.splitSigns = g.splitSigns) ∧
    (f.mathText = g.mathText → ∀ m, f.eval m = g.eval m) ∧
    (f.IsNegationFree → g.IsNegationFree → (f.mathText = g.mathText ↔ f = g)) ∧
    (f.IsClausal → g.IsClausal → (f.mathText = g.mathText ↔ f = g)) := by
  have hsigns : f.mathText = g.mathText ↔ f.splitSigns = g.splitSigns := by
    constructor
    · intro h
      have hread := ofMath?_mathText hf
      rw [h, ofMath?_mathText hg] at hread
      exact (Option.some.inj hread).symm
    · intro h
      rw [← mathText_splitSigns f, h, mathText_splitSigns g]
  have hfree : f.IsNegationFree → g.IsNegationFree → (f.mathText = g.mathText ↔ f = g) := by
    intro hff hgf
    refine ⟨fun h => ?_, fun h => congrArg mathText h⟩
    rw [← hff.bottomUp_joinSign, hsigns.1 h, hgf.bottomUp_joinSign]
  refine ⟨hsigns, fun h m => ?_, hfree, fun hfc hgc => ?_⟩
  · rw [← eval_splitSigns hf, hsigns.1 h, eval_splitSigns hg]
  · exact hfree hfc.wellFormed_isNnf.2.isNegationFree hgc.wellFormed_isNnf.2.isNegationFree

/-- A negative literal and a negated variable look the same, a negated negative literal and a double
negation too. A mark or the sign of a literal makes a difference where there are no negations. -/
theorem mathText_eq_of_two_negations :
    let x1 : Literal := .ofWord 1 (by decide)
    let x2 : Literal := .ofWord 2 (by decide)
    let f := implies (lit (-x1)) (or [lit x2, not (lit (-x1))])
    let g := implies (not (lit x1)) (or [lit x2, not (not (lit x1))])
    f ≠ g ∧ f.mathText = g.mathText ∧ (∀ m, f.eval m = g.eval m) ∧
      (implies (lit x1) (lit (-x2))).mathText ≠ (iff (lit x1) (lit (-x2))).mathText ∧
      (or [lit x1, lit (-x2)]).mathText ≠ (or [lit x1, lit x2]).mathText := by
  intro x1 x2 f g
  have hne : f ≠ g := by decide
  have hneg : (-x1).isNegative = true := by decide
  have hpos1 : x1.isNegative = false := by decide
  have hpos2 : x2.isNegative = false := by decide
  have hsigns : f.splitSigns = g.splitSigns := by
    simp [f, g, splitSigns, bottomUp, splitSign, hneg, hpos1, hpos2]
  obtain ⟨htext, hvalue, -, -⟩ :=
    mathText_eq_iff (f := f) (g := g) (by simp [f]) (by simp [g])
  obtain ⟨-, -, hfree, -⟩ :=
    mathText_eq_iff (f := implies (lit x1) (lit (-x2))) (g := iff (lit x1) (lit (-x2)))
      (by simp) (by simp)
  obtain ⟨-, -, -, hclausal⟩ :=
    mathText_eq_iff (f := or [lit x1, lit (-x2)]) (g := or [lit x1, lit x2]) (by simp) (by simp)
  have hfg := htext.2 hsigns
  refine ⟨hne, hfg, hvalue hfg, fun hmark => ?_, fun hsign => ?_⟩
  · have hleft : (implies (lit x1) (lit (-x2))).IsNegationFree := by
      simp [IsNegationFree, Everywhere, preorder_eq, operands, connective?]
    have hright : (iff (lit x1) (lit (-x2))).IsNegationFree := by
      simp [IsNegationFree, Everywhere, preorder_eq, operands, connective?]
    have hformulas := (hfree hleft hright).1 hmark
    contradiction
  · have hformulas := (hclausal (by decide) (by decide)).1 hsign
    exact absurd hformulas (by decide)

example : ofMath? "(-1 -> (2 \\/ --1))" = some
    (implies (not (lit (.ofWord 1 (by decide))))
      (or [lit (.ofWord 2 (by decide)), not (not (lit (.ofWord 1 (by decide))))])) := by cbv

end Formula

end Clausal
