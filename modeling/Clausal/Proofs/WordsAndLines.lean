/-! Reading a text: words between blanks, blocks that a separator ends, and decimal numerals. A
blank keeps the words on its two sides apart, so the words of a printed text are those of its
pieces. -/
namespace Clausal.Text

/-- The words of a text, with any number of blanks between them. -/
def words (t : List Char) : List (List Char) :=
  (t.splitOnP Char.isWhitespace).filter fun w => !w.isEmpty

/-- The blocks of a list that the separator ends. Nothing may follow the last separator. -/
def endedBlocks? {α : Type} [DecidableEq α] (sep : α) (xs : List α) : Option (List (List α)) :=
  if (xs.splitOn sep).getLast? = some [] then some (xs.splitOn sep).dropLast else none

/-- The lines of a text, each ended by a newline. -/
def lines? (t : List Char) : Option (List (List Char)) := endedBlocks? '\n' t

/-- The value of a word of decimal digits. -/
def natural? (w : List Char) : Option Nat :=
  if !w.isEmpty && w.all Char.isDigit then some (Nat.ofDigitChars 10 w 0) else none

/-- The value of a word of decimal digits, after a minus sign or not. -/
def integer? : List Char → Option Int
  | '-' :: w => (natural? w).map fun n => -Int.ofNat n
  | w => (natural? w).map Int.ofNat

def integers? (ws : List (List Char)) : Option (List Int) := ws.mapM integer?

/-- The decimal digits of an integer, after a minus sign if it is negative. -/
def numeral (a : Int) : List Char := a.repr.toList

@[simp] theorem words_nil : words [] = [] := by simp [words]

theorem words_append_blank {b : Char} (hb : b.isWhitespace = true) (t u : List Char) :
    words (t ++ b :: u) = words t ++ words u := by
  rw [words, List.splitOnP_append_cons t u hb, List.filter_append]
  rfl

theorem words_eq_singleton {w : List Char} (hne : w ≠ []) (h : ∀ c ∈ w, c.isWhitespace = false) :
    words w = [w] := by
  rw [words, List.splitOnP_eq_singleton h]
  simp [hne]

theorem splitOn_flatMap_append {α : Type} [DecidableEq α] {sep : α} {blocks : List (List α)}
    (h : ∀ b ∈ blocks, sep ∉ b) :
    (blocks.flatMap fun b => b ++ [sep]).splitOn sep = blocks ++ [[]] := by
  induction blocks with
  | nil => simp [List.splitOn_nil]
  | cons b blocks ih =>
    have hb : ∀ x ∈ b, (x == sep) = false := by
      intro x hx
      rw [beq_eq_false_iff_ne]
      rintro rfl
      exact h b (by simp) hx
    have hrest := ih fun d hd => h d (by simp [hd])
    rw [List.splitOn_eq_splitOnP] at hrest ⊢
    rw [List.flatMap_cons, List.append_assoc, List.singleton_append,
      List.splitOnP_append_cons_of_forall_mem hb sep (by simp), hrest, List.cons_append]

theorem endedBlocks?_flatMap {α : Type} [DecidableEq α] {sep : α} {blocks : List (List α)}
    (h : ∀ b ∈ blocks, sep ∉ b) :
    endedBlocks? sep (blocks.flatMap fun b => b ++ [sep]) = some blocks := by
  rw [endedBlocks?, splitOn_flatMap_append h]
  simp

theorem isWhitespace_of_isDigit {c : Char} (h : c.isDigit = true) : c.isWhitespace = false := by
  cases hc : c.isWhitespace with
  | false => rfl
  | true =>
    have hblank : c = ' ' ∨ c = '\t' ∨ c = '\r' ∨ c = '\n' := by
      simpa [Char.isWhitespace, or_assoc] using hc
    rcases hblank with rfl | rfl | rfl | rfl <;> contradiction

theorem isDigit_of_mem_toDigits {n : Nat} {c : Char} (h : c ∈ Nat.toDigits 10 n) :
    c.isDigit = true :=
  Nat.isDigit_of_mem_toDigits (by decide) (by decide) h

theorem natural?_toDigits (n : Nat) : natural? (Nat.toDigits 10 n) = some n := by
  have hall : (Nat.toDigits 10 n).all Char.isDigit = true :=
    List.all_eq_true.2 fun c hc => isDigit_of_mem_toDigits hc
  have hvalue : Nat.ofDigitChars 10 (Nat.toDigits 10 n) 0 = n :=
    Nat.ofDigitChars_toDigits (by decide) (by decide)
  rw [natural?, hall, hvalue]
  simp [Nat.toDigits_ne_nil]

theorem integer?_of_isDigit {w : List Char} (h : ∀ c ∈ w, c.isDigit = true) :
    integer? w = (natural? w).map Int.ofNat := by
  unfold integer?
  split
  next w =>
    have hminus := h '-' (by simp)
    contradiction
  next => rfl

theorem numeral_natCast (n : Nat) : numeral n = Nat.toDigits 10 n := Nat.toList_repr

theorem numeral_negSucc (n : Nat) : numeral (.negSucc n) = '-' :: Nat.toDigits 10 (n + 1) := by
  simp [numeral, Int.repr]

/-- A negative integer is written as its absolute value after a minus sign. -/
theorem numeral_of_neg {a : Int} (h : a < 0) : numeral a = '-' :: numeral (-a) := by
  cases a with
  | ofNat n => exact absurd h (Int.not_lt.2 (Int.natCast_nonneg n))
  | negSucc n => rw [numeral_negSucc, Int.neg_negSucc, numeral_natCast]

@[simp] theorem integer?_numeral (a : Int) : integer? (numeral a) = some a := by
  cases a with
  | ofNat n =>
    rw [Int.ofNat_eq_natCast, numeral_natCast, integer?_of_isDigit fun _ => isDigit_of_mem_toDigits,
      natural?_toDigits, Option.map_some]
    rfl
  | negSucc n =>
    rw [numeral_negSucc, integer?, natural?_toDigits, Option.map_some]
    rfl

theorem integers?_map_numeral (as : List Int) : integers? (as.map numeral) = some as := by
  induction as with
  | nil => rfl
  | cons a as ih =>
    rw [integers?] at ih ⊢
    simp [ih]

theorem numeral_ne_nil (a : Int) : numeral a ≠ [] := by
  cases a with
  | ofNat n =>
    rw [Int.ofNat_eq_natCast, numeral_natCast]
    exact Nat.toDigits_ne_nil
  | negSucc n =>
    rw [numeral_negSucc]
    exact List.cons_ne_nil _ _

theorem mem_numeral {a : Int} {c : Char} (h : c ∈ numeral a) : c = '-' ∨ c.isDigit = true := by
  cases a with
  | ofNat n =>
    rw [Int.ofNat_eq_natCast, numeral_natCast] at h
    exact .inr (isDigit_of_mem_toDigits h)
  | negSucc n =>
    rw [numeral_negSucc, List.mem_cons] at h
    exact h.imp_right isDigit_of_mem_toDigits

theorem isWhitespace_of_mem_numeral {a : Int} {c : Char} (h : c ∈ numeral a) :
    c.isWhitespace = false := by
  rcases mem_numeral h with rfl | hdigit
  · rfl
  · exact isWhitespace_of_isDigit hdigit

theorem newline_notMem_numeral (a : Int) : '\n' ∉ numeral a := by
  intro h
  have hblank := isWhitespace_of_mem_numeral h
  contradiction

theorem words_numeral (a : Int) : words (numeral a) = [numeral a] :=
  words_eq_singleton (numeral_ne_nil a) fun _ => isWhitespace_of_mem_numeral

end Clausal.Text
