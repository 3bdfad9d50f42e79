import Clausal.Proofs.ConstructorReading
import Clausal.Proofs.DimacsReading

/-! Clause lists read back from lists of integers and from their text in square brackets. With round
brackets in place of the square ones and without its blanks, the text is that of an item whose
groups are the list and the clauses. -/
namespace Clausal

open Text

/-- Where every member is read back, the list is. -/
theorem mapM_map_eq_some {α β : Type} {write : α → β} {read? : β → Option α} {xs : List α}
    (h : ∀ x ∈ xs, read? (write x) = some x) : (xs.map write).mapM read? = some xs := by
  have hread : xs.mapM (read? ∘ write) = some (xs.map id) := mapM_eq_pure h
  rw [List.mapM_map, hread, List.map_id]

/-- The value of an item that is a numeral. -/
def Text.Item.integer? : Item → Option Int
  | .word w => Text.integer? w
  | .group _ _ => none

namespace Clause

/-- Reads integers that may be no literals. -/
def ofIntList? (ns : List Int) : Option Clause := do
  let ls ← ns.mapM Literal.ofInt?
  return ⟨ls⟩

@[simp] theorem ofIntList?_clauseInts (c : Clause) :
    ofIntList? (Dimacs.clauseInts c) = some c := by
  have hliterals : (Dimacs.clauseInts c).mapM Literal.ofInt? = some c.literals :=
    mapM_map_eq_some fun l _ => l.ofInt?_toInt
  rw [ofIntList?, hliterals]
  rfl

/-- The clause as an item, every literal a word. -/
def item (c : Clause) : Item := .group [] (c.literals.map fun l => .word (numeral l.toInt))

theorem legible_item (c : Clause) : c.item.Legible .comma := by
  refine .group (isPlain_nil _) ?_
  rw [List.forall_mem_map]
  exact fun l _ => .word (numeral_ne_nil _) (isPlain_numeral _ _)

/-- Reads a clause from an item. -/
def ofItem? : Item → Option Clause
  | .group [] items => do
    let ns ← items.mapM Item.integer?
    ofIntList? ns
  | _ => none

theorem ofItem?_item (c : Clause) : ofItem? c.item = some c := by
  have hints : (c.literals.map fun l => Item.word (numeral l.toInt)).mapM Item.integer? =
      some (Dimacs.clauseInts c) := by
    rw [List.mapM_map]
    exact mapM_eq_pure fun l _ => integer?_numeral l.toInt
  rw [item, ofItem?, hints]
  exact c.ofIntList?_clauseInts

end Clause

namespace ClauseList

/-- Reads the clauses from their integers. -/
def ofIntLists? (nss : List (List Int)) : Option ClauseList := do
  let cs ← nss.mapM Clause.ofIntList?
  return ⟨cs⟩

@[simp] theorem ofIntLists?_clauseInts (cs : ClauseList) :
    ofIntLists? (cs.clauses.map Dimacs.clauseInts) = some cs := by
  rw [ofIntLists?, mapM_map_eq_some fun c _ => c.ofIntList?_clauseInts]
  rfl

/-- The clause list as an item, every clause one of its groups. -/
def item (cs : ClauseList) : Item := .group [] (cs.clauses.map Clause.item)

def ofItem? : Item → Option ClauseList
  | .group [] items => do
    let cs ← items.mapM Clause.ofItem?
    return ⟨cs⟩
  | _ => none

theorem legible_item (cs : ClauseList) : cs.item.Legible .comma := by
  refine .group (isPlain_nil _) ?_
  rw [List.forall_mem_map]
  exact fun c _ => c.legible_item

end ClauseList

namespace Text

/-- A square bracket as a round one, a blank as nothing, and any other character as itself. -/
def rounded? (c : Char) : Option Char :=
  if c = '[' then some '(' else if c = ']' then some ')' else if c = ' ' then none else some c

theorem filterMap_rounded?_numeral (a : Int) : (numeral a).filterMap rounded? = numeral a := by
  have hkept : ∀ c ∈ numeral a, rounded? c = some c := by
    intro c hc
    have hne : c ≠ '[' ∧ c ≠ ']' ∧ c ≠ ' ' := by
      rcases mem_numeral hc with rfl | hdigit
      · decide
      · refine ⟨?_, ?_, ?_⟩ <;> rintro rfl <;> contradiction
    simp [rounded?, hne]
  rw [List.filterMap_congr hkept, List.filterMap_some]

/-- Characters may be dropped or replaced before the pieces are joined. -/
theorem filterMap_intercalate {α β : Type} (g : α → Option β) (sep : List α) (xss : List (List α)) :
    (sep.intercalate xss).filterMap g =
      (sep.filterMap g).intercalate (xss.map (List.filterMap g)) := by
  induction xss with
  | nil => rfl
  | cons xs xss ih =>
    cases xss with
    | nil => simp
    | cons ys xss =>
      rw [List.intercalate_cons_cons, List.map_cons, List.map_cons, List.intercalate_cons_cons,
        List.filterMap_append, List.filterMap_append, ih, List.map_cons]

/-- What stands between square brackets, with commas and blanks between the pieces. -/
theorem filterMap_rounded?_bracketed (pieces : List String) :
    ("[" ++ ", ".intercalate pieces ++ "]").toList.filterMap rounded? =
      '(' :: ([','].intercalate (pieces.map fun s => s.toList.filterMap rounded?) ++ [')']) := by
  have hseparator : ", ".toList.filterMap rounded? = [','] := by decide
  rw [String.toList_append, String.toList_append, String.toList_intercalate, List.filterMap_append,
    List.filterMap_append, filterMap_intercalate, hseparator, List.map_map]
  rfl

end Text

theorem Clause.filterMap_rounded?_text (c : Clause) :
    c.text.toList.filterMap rounded? = c.item.text .comma := by
  have hpieces : ∀ l : Literal, l.text.toList.filterMap rounded? = numeral l.toInt := fun l => by
    rw [Literal.toList_text, filterMap_rounded?_numeral]
  rw [Clause.text, filterMap_rounded?_bracketed, List.map_map, item, Item.text, List.map_map]
  simp only [Function.comp_def, hpieces, Item.text, Separator.char, List.nil_append]

namespace ClauseList

theorem filterMap_rounded?_text (cs : ClauseList) :
    cs.text.toList.filterMap rounded? = cs.item.text .comma := by
  rw [ClauseList.text, Text.filterMap_rounded?_bracketed, List.map_map, item, Item.text,
    List.map_map]
  simp only [Function.comp_def, Clause.filterMap_rounded?_text, Separator.char, List.nil_append]

theorem ofItem?_item (cs : ClauseList) : ofItem? cs.item = some cs := by
  rw [item, ofItem?, mapM_map_eq_some fun c _ => c.ofItem?_item]
  rfl

/-- Reads a text in square brackets. -/
def ofText? (s : String) : Option ClauseList := do
  let t ← Item.read? .comma (s.toList.filterMap rounded?)
  ofItem? t

/-- Clauses that are empty, and the list without clauses, are read back as well. -/
theorem ofText?_text (cs : ClauseList) : ofText? cs.text = some cs := by
  rw [ofText?, filterMap_rounded?_text, Item.read?_text cs.legible_item]
  exact cs.ofItem?_item

theorem text_injective : Function.Injective text := by
  intro cs ds h
  have hread := cs.ofText?_text
  rw [h, ds.ofText?_text] at hread
  exact (Option.some.inj hread).symm

example : ofText? "[[1, -2], [], [7]]" = some
    ⟨[⟨[.ofWord 1 (by decide), .ofWord (-2) (by decide)]⟩, ⟨[]⟩,
      ⟨[.ofWord 7 (by decide)]⟩]⟩ := by cbv

end ClauseList

end Clausal
