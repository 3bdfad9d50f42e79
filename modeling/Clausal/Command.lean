import Clausal.Arguments
import Clausal.ClausalForm
import Clausal.Dimacs
import Clausal.Extraction
import Clausal.FormulaText
import Clausal.Sample
import Clausal.System

/-! The command: converts a sample to clausal form and delivers it in one of four formats. -/
namespace Clausal

/-- How much is told about a run while it goes on, from least to most. -/
inductive LogLevel where
  | error
  | warn
  | info
  | debug
  | trace
  deriving DecidableEq, Repr

namespace LogLevel

def name : LogLevel → String
  | error => "error"
  | warn => "warn"
  | info => "info"
  | debug => "debug"
  | trace => "trace"

def all : List LogLevel := [error, warn, info, debug, trace]

/-- Tells the progress of a run, the number of clauses among it. -/
def tellsProgress : LogLevel → Bool
  | error | warn => false
  | info | debug | trace => true

end LogLevel

inductive Format where
  | dimacs
  | clauses
  | math
  | code
  deriving DecidableEq, Repr

namespace Format

def name : Format → String
  | dimacs => "dimacs"
  | clauses => "clauses"
  | math => "math"
  | code => "code"

def all : List Format := [dimacs, clauses, math, code]

/-- One line of integers for each clause. -/
def clauseLines (cs : ClauseList) : String :=
  String.join (cs.clauses.map fun c => " ".intercalate (c.literals.map Literal.text) ++ "\n")

def render (f : Formula) : Format → Except Fault String
  | dimacs => do
    let cs ← ClauseList.ofFormula f
    return cs.dimacs
  | clauses => do
    let cs ← ClauseList.ofFormula f
    return clauseLines cs
  | math => .ok (f.mathText ++ "\n")
  | code => .ok (f.codeText ++ "\n")

end Format

namespace Command

/-- The first of some named things whose name is the word, in any case of its letters A to Z. -/
def named? {α : Type} (name : α → String) (things : List α) (word : String) : Option α :=
  things.find? fun a => decide (name a = word.map Char.toLower)

inductive Failure where
  | logLevel (word : String)
  | sample (word : String)
  | format (word : String)
  | output (path : String)
  | conversion (e : Fault)
  deriving DecidableEq, Repr

def Failure.text : Failure → String
  | logLevel w => s!"Bad log level '{w}'"
  | sample w => s!"Bad demo '{w}'"
  | format w => s!"Bad format '{w}'"
  | output p => s!"Could not write to '{p}'"
  | conversion e => e.text

/-- The first line of the text, as a report starts with it. -/
def Failure.headline (e : Failure) : String := String.ofList (e.text.toList.takeWhile (· ≠ '\n'))

def orFail {α : Type} (e : Failure) : Option α → Except Failure α
  | some a => .ok a
  | none => .error e

/-- Renders a formula in the format of the name. -/
def render (f : Formula) (word : String) : Except Failure String := do
  let format ← orFail (.format word) (named? Format.name Format.all word)
  (format.render f).mapError .conversion

/-- The text that a request asks for. Checks the log level, then the sample; converts, and counts
the clauses if the level tells them; checks the format last. -/
def answer (r : Request) : Except Failure String := do
  let level ← orFail (.logLevel r.log) (named? LogLevel.name LogLevel.all r.log)
  let sample ← orFail (.sample r.sample) (named? Sample.name Sample.all r.sample)
  let f ← sample.formula.mapError .conversion
  let g ← f.clausalForm.mapError .conversion
  if level.tellsProgress then
    let _ ← (ClauseList.ofFormula g).mapError .conversion
  render g r.format

/-- Brings a text to the output path, or to standard output if there is none. -/
def deliver {m : Type → Type} [Monad m] (sys : System m) (output : Option String) (text : String) :
    ExceptT Failure m Unit := do
  match output with
  | none => sys.print text
  | some path => unless ← sys.write path text do throw (.output path)

/-- Answers a request. The delivery is the last step and the only one that the system sees. -/
def run {m : Type → Type} [Monad m] (sys : System m) (r : Request) : ExceptT Failure m Unit := do
  let text ← answer r
  deliver sys r.output text

def versionText : String := "cnf-nexus-cli 0.1.0\n"

def helpText : String := String.join
  ["Converts a sample formula (puzzle, tautology) to conjunctive normal form.\n",
   "\n",
   "usage: [-f FORMAT] [-o FILE] [--log LEVEL] DEMO\n",
   "\n",
   "formats: dimacs (default), clauses, math, code\n",
   "levels: error, warn, info (default), debug, trace\n"]

end Command

end Clausal
