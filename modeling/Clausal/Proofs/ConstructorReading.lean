import Clausal.FormulaText
import Clausal.Proofs.BottomUp
import Clausal.Proofs.BracketedItems

/-! Constructor notation reads back. A formula is written as an item whose heads name the
connectives, so that the text gives the item and the item the formula, whatever the numbers of
operands. -/
namespace Clausal

open Text

namespace Literal

/-- Reads an integer that may be no literal. -/
def ofInt? (a : Int) : Option Literal :=
  if (Int64.ofInt a).toInt = a then ofInt64? (Int64.ofInt a) else none

@[simp] theorem ofInt?_toInt (l : Literal) : ofInt? l.toInt = some l := by
  simp [ofInt?, toInt]

theorem toList_text (l : Literal) : l.text.toList = numeral l.toInt := rfl

end Literal

namespace Connective

def ofName? (name : List Char) : Option Connective :=
  [and, or, not, implies, iff].find? fun c => c.name.toList = name

@[simp] theorem ofName?_name (c : Connective) : ofName? c.name.toList = some c := by
  cases c <;> decide

end Connective

namespace Formula

/-- The formula as an item, a connective as the head of its operands. -/
def codeItem : Formula → Item
  | lit l => .word (numeral l.toInt)
  | not a => applied .not [a.codeItem]
  | implies a b => applied .implies [a.codeItem, b.codeItem]
  | iff a b => applied .iff [a.codeItem, b.codeItem]
  | and args => applied .and (args.map fun a => a.codeItem)
  | or args => applied .or (args.map fun a => a.codeItem)
where
  applied (c : Connective) (items : List Item) : Item := .group c.name.toList items

theorem codeItem_eq {f : Formula} {c : Connective} (h : f.connective? = some c) :
    f.codeItem = .group c.name.toList (f.operands.map codeItem) := by
  cases f with
  | lit l => contradiction
  | _ =>
    cases h
    rw [codeItem]
    rfl

/-- Reads an item in constructor notation. -/
def ofCodeItem? : Item → Option Formula
  | .word w => do
    let a ← integer? w
    let l ← Literal.ofInt? a
    return lit l
  | .group name items => do
    let c ← Connective.ofName? name
    let args ← items.mapM fun t => ofCodeItem? t
    ofOperands? c args

/-- Reads a text in constructor notation. -/
def ofCode? (s : String) : Option Formula := do
  let t ← Item.read? .comma s.toList
  ofCodeItem? t

theorem ofCodeItem?_codeItem (f : Formula) : ofCodeItem? f.codeItem = some f := by
  induction f using induction_operands with
  | step f ih =>
    cases hc : f.connective? with
    | none =>
      obtain ⟨l, rfl⟩ := connective?_eq_none_iff.1 hc
      rw [codeItem, ofCodeItem?]
      simp
    | some c =>
      have hargs : (f.operands.map codeItem).mapM ofCodeItem? = some (f.operands.map id) := by
        rw [List.mapM_map]
        exact mapM_eq_pure ih
      rw [codeItem_eq hc, ofCodeItem?, Connective.ofName?_name]
      simp only [Option.bind_eq_bind, Option.bind_some, hargs, List.map_id, ofOperands?_operands hc]

theorem codeText_eq {f : Formula} {c : Connective} (h : f.connective? = some c) :
    f.codeText = codeText.applied c (f.operands.map codeText) := by
  cases f with
  | lit l => contradiction
  | _ =>
    cases h
    rw [codeText]
    rfl

theorem toList_applied (c : Connective) (texts : List String) :
    (codeText.applied c texts).toList =
      c.name.toList ++ '(' :: ([','].intercalate (texts.map String.toList) ++ [')']) := by
  simp [codeText.applied]

theorem toList_codeText (f : Formula) : f.codeText.toList = f.codeItem.text .comma := by
  induction f using induction_operands with
  | step f ih =>
    cases hc : f.connective? with
    | none =>
      obtain ⟨l, rfl⟩ := connective?_eq_none_iff.1 hc
      rw [codeText, codeItem, Item.text, Literal.toList_text]
    | some c =>
      rw [codeText_eq hc, toList_applied, map_map_congr ih, codeItem_eq hc, Item.text, List.map_map]
      rfl

theorem isPlain_name (c : Connective) : IsPlain .comma c.name.toList := by
  cases c <;> simp [Connective.name, Separator.char]

theorem legible_codeItem (f : Formula) : f.codeItem.Legible .comma := by
  induction f using induction_operands with
  | step f ih =>
    cases hc : f.connective? with
    | none =>
      obtain ⟨l, rfl⟩ := connective?_eq_none_iff.1 hc
      rw [codeItem]
      exact .word (numeral_ne_nil _) (isPlain_numeral _ _)
    | some c =>
      rw [codeItem_eq hc]
      refine .group (isPlain_name c) ?_
      rw [List.forall_mem_map]
      exact ih

/-- The text of a formula in constructor notation is read as that formula, also where conjunctions
or disjunctions have one operand or none. Hence it determines the formula. -/
theorem ofCode?_codeText (f : Formula) :
    ofCode? f.codeText = some f ∧ ∀ g : Formula, g.codeText = f.codeText ↔ g = f := by
  have hread : ∀ g : Formula, ofCode? g.codeText = some g := by
    intro g
    rw [ofCode?, toList_codeText, Item.read?_text (legible_codeItem g)]
    exact ofCodeItem?_codeItem g
  refine ⟨hread f, fun g => ⟨fun h => ?_, fun h => congrArg codeText h⟩⟩
  have hsome := hread g
  rw [h, hread f] at hsome
  exact (Option.some.inj hsome).symm

example : ofCode? "And(1,Or(),Not(Implies(4,-5)))" =
    some (and [lit (.ofWord 1 (by decide)), or [],
      not (implies (lit (.ofWord 4 (by decide))) (lit (.ofWord (-5) (by decide))))]) := by cbv

end Formula

end Clausal
