import Clausal.Formula

/-! Two notations for formulas: infix, with parentheses around every operator but the minus sign,
and nested constructors. -/
namespace Clausal.Formula

/-- Infix notation. The minus sign stands for negation, and also begins a negative literal. -/
def mathText : Formula → String
  | lit l => l.text
  | not a => Connective.not.symbol ++ a.mathText
  | implies a b => joined .implies [a.mathText, b.mathText]
  | iff a b => joined .iff [a.mathText, b.mathText]
  | and args => joined .and (args.map fun a => a.mathText)
  | or args => joined .or (args.map fun a => a.mathText)
where
  joined (c : Connective) (texts : List String) : String :=
    "(" ++ (" " ++ c.symbol ++ " ").intercalate texts ++ ")"

/-- Constructor notation: the name of the connective and its operands. -/
def codeText : Formula → String
  | lit l => l.text
  | not a => applied .not [a.codeText]
  | implies a b => applied .implies [a.codeText, b.codeText]
  | iff a b => applied .iff [a.codeText, b.codeText]
  | and args => applied .and (args.map fun a => a.codeText)
  | or args => applied .or (args.map fun a => a.codeText)
where
  applied (c : Connective) (texts : List String) : String :=
    c.name ++ "(" ++ ",".intercalate texts ++ ")"

end Clausal.Formula
