import Clausal.Proofs.WordsAndLines

/-! Texts of items in parentheses. An item is a word, or a head with further items in parentheses
after it, and a separator stands between the items of one group. Reading goes through the characters
once, with a stack of the groups that are still open, and gives back every item whose words are
plain. -/
namespace Clausal.Text

inductive Separator where
  | comma
  | blank
  deriving DecidableEq, Repr

namespace Separator

def char : Separator → Char
  | comma => ','
  | blank => ' '

@[simp] theorem char_ne_opening (sep : Separator) : sep.char ≠ '(' := by
  cases sep <;> decide

@[simp] theorem char_ne_closing (sep : Separator) : sep.char ≠ ')' := by
  cases sep <;> decide

theorem isDigit_char (sep : Separator) : sep.char.isDigit = false := by
  cases sep <;> rfl

theorem char_ne_minus (sep : Separator) : sep.char ≠ '-' := by
  cases sep <;> decide

end Separator

variable {sep : Separator}

/-- The characters that do not shape a text. -/
def IsPlain (sep : Separator) (w : List Char) : Prop := ∀ c ∈ w, c ≠ '(' ∧ c ≠ ')' ∧ c ≠ sep.char

@[simp] theorem isPlain_nil (sep : Separator) : IsPlain sep [] := by simp [IsPlain]

@[simp] theorem isPlain_cons {c : Char} {w : List Char} :
    IsPlain sep (c :: w) ↔ (c ≠ '(' ∧ c ≠ ')' ∧ c ≠ sep.char) ∧ IsPlain sep w := by
  simp [IsPlain]

theorem isPlain_numeral (sep : Separator) (a : Int) : IsPlain sep (numeral a) := by
  intro c hc
  rcases mem_numeral hc with rfl | hdigit
  · exact ⟨by decide, by decide, sep.char_ne_minus.symm⟩
  · refine ⟨?_, ?_, ?_⟩ <;> rintro rfl
    · contradiction
    · contradiction
    · rw [sep.isDigit_char] at hdigit
      contradiction

inductive Item where
  | word (w : List Char)
  | group (head : List Char) (items : List Item)
  deriving Repr

namespace Item

/-- The characters of an item. -/
def text (sep : Separator) : Item → List Char
  | word w => w
  | group head items =>
    head ++ '(' :: ([sep.char].intercalate (items.map fun t => t.text sep) ++ [')'])

/-- Every word has a character, and neither words nor heads have one that shapes the text. -/
inductive Legible (sep : Separator) : Item → Prop
  | word {w : List Char} (nonempty : w ≠ []) (plain : IsPlain sep w) : Legible sep (word w)
  | group {head : List Char} {items : List Item} (plain : IsPlain sep head)
      (legible : ∀ t ∈ items, Legible sep t) : Legible sep (group head items)

theorem Legible.ne_word_nil {t : Item} (h : t.Legible sep) : t ≠ .word [] := by
  rintro rfl
  cases h with
  | word nonempty plain => exact nonempty rfl

/-- What has been read of a text. -/
structure Reading where
  /-- The open groups, the innermost first: their heads, and their items with the latest first. -/
  groups : List (List Char × List Item)
  /-- The item that is being read. -/
  item : Item

namespace Reading

/-- A word becomes the head of a new group. -/
def openGroup : Reading → Option Reading
  | ⟨groups, word w⟩ => some ⟨(w, []) :: groups, word []⟩
  | ⟨_, group _ _⟩ => none

/-- The item joins its group, which needs another one. -/
def endItem : Reading → Option Reading
  | ⟨_, word []⟩ => none
  | ⟨(head, items) :: groups, t⟩ => some ⟨(head, t :: items) :: groups, word []⟩
  | ⟨[], _⟩ => none

/-- The innermost group, with its last item or without any, becomes the item. -/
def closeGroup : Reading → Option Reading
  | ⟨(head, []) :: groups, word []⟩ => some ⟨groups, group head []⟩
  | ⟨_, word []⟩ => none
  | ⟨(head, items) :: groups, t⟩ => some ⟨groups, group head (t :: items).reverse⟩
  | ⟨[], _⟩ => none

def lengthen (c : Char) : Reading → Option Reading
  | ⟨groups, word w⟩ => some ⟨groups, word (w ++ [c])⟩
  | ⟨_, group _ _⟩ => none

def step (sep : Separator) (r : Reading) (c : Char) : Option Reading :=
  if c = '(' then r.openGroup
  else if c = ')' then r.closeGroup
  else if c = sep.char then r.endItem
  else r.lengthen c

def run (sep : Separator) (r : Reading) (s : List Char) : Option Reading := s.foldlM (step sep) r

@[simp] theorem run_nil (r : Reading) : run sep r [] = some r := rfl

theorem run_cons (r : Reading) (c : Char) (s : List Char) :
    run sep r (c :: s) = (step sep r c).bind fun r => run sep r s := rfl

theorem run_append (r : Reading) (s u : List Char) :
    run sep r (s ++ u) = (run sep r s).bind fun r => run sep r u :=
  List.foldlM_append

variable {groups : List (List Char × List Item)} {head : List Char} {items : List Item} {t : Item}

theorem step_opening (groups : List (List Char × List Item)) (w : List Char) :
    step sep ⟨groups, word w⟩ '(' = some ⟨(w, []) :: groups, word []⟩ := rfl

theorem step_separator (ht : t ≠ word []) :
    step sep ⟨(head, items) :: groups, t⟩ sep.char =
      some ⟨(head, t :: items) :: groups, word []⟩ := by
  simp only [step, sep.char_ne_opening, sep.char_ne_closing, if_false, if_true]
  cases t with
  | word w =>
    cases w with
    | nil => contradiction
    | cons c w => rfl
  | group head' items' => rfl

theorem step_closing_empty :
    step sep ⟨(head, []) :: groups, word []⟩ ')' = some ⟨groups, group head []⟩ := rfl

theorem step_closing (ht : t ≠ word []) :
    step sep ⟨(head, items) :: groups, t⟩ ')' =
      some ⟨groups, group head (t :: items).reverse⟩ := by
  cases t with
  | word w =>
    cases w with
    | nil => contradiction
    | cons c w => cases items <;> rfl
  | group head' items' => cases items <;> rfl

/-- Plain characters lengthen the word. -/
theorem run_plain {w : List Char} (hw : IsPlain sep w) (u : List Char) :
    run sep ⟨groups, word u⟩ w = some ⟨groups, word (u ++ w)⟩ := by
  induction w generalizing u with
  | nil => simp
  | cons c w ih =>
    obtain ⟨⟨hopening, hclosing, hsep⟩, hplain⟩ := isPlain_cons.1 hw
    have hstep : step sep ⟨groups, word u⟩ c = some ⟨groups, word (u ++ [c])⟩ := by
      simp only [step, hopening, hclosing, hsep, if_false, lengthen]
    rw [run_cons, hstep, Option.bind_some, ih hplain, List.append_assoc]
    rfl

/-- The items of a group are read in their order; the last one is still to join the group. -/
theorem run_items {ts : List Item} {t : Item} (hts : ∀ u ∈ ts, u ≠ word [])
    (hread : ∀ u ∈ ts ++ [t], ∀ groups, run sep ⟨groups, word []⟩ (u.text sep) = some ⟨groups, u⟩)
    (items : List Item) :
    run sep ⟨(head, items) :: groups, word []⟩
        ([sep.char].intercalate ((ts ++ [t]).map fun u => u.text sep)) =
      some ⟨(head, ts.reverse ++ items) :: groups, t⟩ := by
  induction ts generalizing items with
  | nil => simpa using hread t (by simp) ((head, items) :: groups)
  | cons u ts ih =>
    have hu := hread u (by simp) ((head, items) :: groups)
    have hrest := ih (fun x hx => hts x (by simp [hx]))
      (fun x hx => hread x (List.mem_cons_of_mem _ hx)) (u :: items)
    rw [List.cons_append, List.map_cons, List.intercalate_cons_of_ne_nil (by simp),
      List.append_assoc, run_append, hu, Option.bind_some, List.singleton_append, run_cons,
      step_separator (hts u (by simp)), Option.bind_some, hrest]
    simp

/-- A legible item is read as itself, whatever groups are open. -/
theorem run_text (h : t.Legible sep) (groups : List (List Char × List Item)) :
    run sep ⟨groups, word []⟩ (t.text sep) = some ⟨groups, t⟩ := by
  induction h generalizing groups with
  | word nonempty plain =>
    rw [text, run_plain plain]
    rfl
  | @group head items plain legible ih =>
    rw [text, run_append, run_plain plain, Option.bind_some, run_cons, List.nil_append,
      step_opening, Option.bind_some, run_append]
    rcases items.eq_nil_or_concat with rfl | ⟨ts, t, rfl⟩
    · show run sep ⟨(head, []) :: groups, word []⟩ [')'] = _
      rw [run_cons, step_closing_empty]
      rfl
    · simp only [List.concat_eq_append] at legible ih ⊢
      have hts : ∀ u ∈ ts, u ≠ word [] := fun u hu => (legible u (by simp [hu])).ne_word_nil
      have ht : t ≠ word [] := (legible t (by simp)).ne_word_nil
      rw [run_items hts ih [], Option.bind_some, run_cons, step_closing ht]
      simp

end Reading

/-- Reads a text that is one item. -/
def read? (sep : Separator) (s : List Char) : Option Item :=
  match Reading.run sep ⟨[], word []⟩ s with
  | some ⟨[], t⟩ => some t
  | _ => none

theorem read?_text {t : Item} (h : t.Legible sep) : read? sep (t.text sep) = some t := by
  rw [read?, Reading.run_text h]

end Item

end Clausal.Text
