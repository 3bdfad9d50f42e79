/-! What the command asks of the system it runs on, and what is known of the answers. The system is
arbitrary: where its paths lead and which writes succeed is not said here. -/
namespace Clausal

/-- The calls that a command makes. -/
structure System (m : Type → Type) where
  /-- Prints a text on standard output. -/
  print (text : String) : m Unit
  /-- Makes a text all that is at a path, and tells whether this succeeds. -/
  write (path text : String) : m Bool

/-- Where a path leads. -/
inductive Place (ι : Type) where
  | file (i : ι)
  | standardOutput
  /-- To a device that shows nothing, or nowhere. -/
  | elsewhere

/-- What can be seen of a system in its states. Two paths can lead to one file. -/
structure View (σ ι : Type) where
  /-- What standard output has received so far. -/
  output : σ → String
  /-- What a file holds, if it is there. -/
  file : σ → ι → Option String
  place : σ → String → Place ι

namespace View

variable {σ ι : Type} (view : View σ ι)

/-- The place has received a text, and all else that can be seen is as before. -/
def Received (text : String) (before after : σ) : Place ι → Prop
  | .file i =>
    view.output after = view.output before ∧ view.file after i = some text ∧
      ∀ j, j ≠ i → view.file after j = view.file before j
  | .standardOutput =>
    view.output after = view.output before ++ text ∧ view.file after = view.file before
  | .elsewhere => view.output after = view.output before ∧ view.file after = view.file before

/-- The place has received a beginning of a text at most, and all else is as before. A file that has
been opened holds this beginning alone. -/
def Attempted (text : String) (before after : σ) : Place ι → Prop
  | .file i =>
    view.output after = view.output before ∧
      (view.file after i = view.file before i ∨
        ∃ part, view.file after i = some part ∧ part.toList <+: text.toList) ∧
      ∀ j, j ≠ i → view.file after j = view.file before j
  | .standardOutput =>
    (∃ part, view.output after = view.output before ++ part ∧ part.toList <+: text.toList) ∧
      view.file after = view.file before
  | .elsewhere => view.output after = view.output before ∧ view.file after = view.file before

end View

/-- What the calls are known to do. Printing always succeeds. A write opens the path first and then
writes the text to what is there, and can fail at either. -/
structure System.Lawful {σ ι : Type} (sys : System (StateM σ)) (view : View σ ι) : Prop where
  print (text : String) (s : σ) :
    view.Received text s ((sys.print text).run s).2 .standardOutput
  write {path text : String} {s s' : σ} (h : (sys.write path text).run s = (true, s')) :
    view.Received text s s' (view.place s path)
  write_failed {path text : String} {s s' : σ} (h : (sys.write path text).run s = (false, s')) :
    view.Attempted text s s' (view.place s path)

end Clausal
