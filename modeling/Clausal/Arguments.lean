/-! The arguments of the command: the sample to convert, and options with their values. -/
namespace Clausal

/-- What the arguments ask for, with the defaults filled in. -/
structure Request where
  sample : String
  format : String
  output : Option String
  log : String
  deriving DecidableEq, Repr

namespace Arguments

/-- The options that take a value. -/
inductive Setting where
  | format
  | output
  | log
  deriving DecidableEq, Repr

/-- One argument, read by itself. -/
inductive Token where
  | plain (s : String)
  /-- After two dashes alone every argument is plain. -/
  | separator
  | setting (k : Setting) (attached : Option String)
  | version
  | help
  | unknown
  deriving DecidableEq, Repr

/-- Reads what follows two dashes: a name, and a value after an equals sign. -/
def Token.ofLong (body : List Char) : Token :=
  let name := String.ofList (body.takeWhile (· ≠ '='))
  let value := (body.dropWhile (· ≠ '=')).tail?.map String.ofList
  match name, value with
  | "format", v => .setting .format v
  | "output", v => .setting .output v
  | "log", v => .setting .log v
  | "version", none => .version
  | "help", none => .help
  | _, _ => .unknown

/-- Reads a letter after one dash. What follows the letter is its value, without an equals sign that
stands between them. -/
def Token.ofShort (letter : Char) (rest : List Char) : Token :=
  let value :=
    match rest with
    | [] => none
    | '=' :: v => some (String.ofList v)
    | v => some (String.ofList v)
  match letter with
  | 'f' => .setting .format value
  | 'o' => .setting .output value
  | 'V' => .version
  | 'h' => .help
  | _ => .unknown

/-- One dash alone is a plain argument. -/
def Token.ofString (arg : String) : Token :=
  match arg.toList with
  | ['-', '-'] => .separator
  | '-' :: '-' :: body => .ofLong body
  | '-' :: letter :: rest => .ofShort letter rest
  | _ => .plain arg

/-- What the arguments read so far have said. -/
structure Seen where
  sample : Option String
  given : List (Setting × String)
  /-- The option just read, if its value is still to come. -/
  awaiting : Option Setting
  /-- Some option has been left without a value. -/
  incomplete : Bool
  deriving DecidableEq, Repr

inductive Outcome where
  | request (r : Request)
  | version
  | help
  | usage
  deriving DecidableEq, Repr

namespace Seen

def start : Seen := ⟨none, [], none, false⟩

/-- Gives up waiting for a value. -/
def settle (s : Seen) : Seen :=
  { s with awaiting := none, incomplete := s.incomplete || s.awaiting.isSome }

/-- Takes a plain argument as the sample, unless there is one already. -/
def addSample (s : Seen) (arg : String) : Option Seen :=
  match s.sample with
  | none => some { s with sample := some arg }
  | some _ => none

def give (s : Seen) (k : Setting) (v : String) : Seen :=
  { s with given := (k, v) :: s.given, awaiting := none }

/-- The request, if there is a sample and every option given has one value. -/
def finish (s : Seen) : Outcome :=
  match s.settle with
  | ⟨some sample, given, _, false⟩ =>
    if (given.map Prod.fst).Nodup then
      .request
        { sample := sample
          format := (given.lookup .format).getD "dimacs"
          output := given.lookup .output
          log := (given.lookup .log).getD "info" }
    else .usage
  | _ => .usage

end Seen

/-- Reads arguments that are all plain. -/
def readPlain (s : Seen) : List String → Outcome
  | [] => s.finish
  | arg :: rest =>
    match s.addSample arg with
    | some s => readPlain s rest
    | none => .usage

/-- Reads arguments from left to right. An unknown option, a second sample and a request for the
version or for help end the reading at once; other mistakes count only at the end. -/
def read (s : Seen) : List String → Outcome
  | [] => s.finish
  | arg :: rest =>
    match Token.ofString arg, s.awaiting with
    | .plain v, some k => read (s.give k v) rest
    | .plain v, none =>
      match s.addSample v with
      | some s => read s rest
      | none => .usage
    | .separator, _ => readPlain s.settle rest
    | .setting k (some v), _ => read (s.settle.give k v) rest
    | .setting k none, _ => read { s.settle with awaiting := some k } rest
    | .version, _ => .version
    | .help, _ => .help
    | .unknown, _ => .usage

def parse (args : List String) : Outcome := read .start args

end Arguments

end Clausal
