import Clausal.Proofs.Actions
import Clausal.Proofs.OutputFormats

/-! What comes of a request. The checks are made in a fixed order, and the first that fails is
reported; nothing else can fail, as both samples convert and every format has a text for what they
convert to. Until the checks on the words of a request are passed the system is left alone. Then it
is called once: the text is printed, or written to the output path, the last thing that can fail. -/
namespace Clausal

namespace Sample

theorem name_injective {s s' : Sample} : s.name = s'.name → s = s' := by
  cases s <;> cases s' <;> decide

/-- Every node of a sample has as many operands as its connective takes. -/
theorem exists_formula (s : Sample) : ∃ f, s.formula = .ok f ∧ f.WellFormed := by
  cases s with
  | puzzle => exact ⟨_, rfl, by simp [literal]⟩
  | tautology => exact ⟨_, rfl, by simp [literal]⟩

/-- Neither the conversion of a sample nor the extraction of its clauses fails. -/
theorem exists_extraction (s : Sample) :
    ∃ f g, s.formula = .ok f ∧ f.clausalForm = .ok g ∧
      ClauseList.ofFormula g = .ok ⟨(Formula.clausesAt .positive f).map Clause.mk⟩ := by
  obtain ⟨f, hf, hw⟩ := s.exists_formula
  obtain ⟨g, hg, hcs⟩ := Formula.exists_extraction hw
  exact ⟨f, g, hf, hg, hcs⟩

end Sample

/-- A small system: standard output and one folder of files. -/
structure Folder where
  output : String
  file : String → Option String

namespace Folder

def empty : Folder := ⟨"", fun _ => none⟩

/-- One path leads to standard output, every other to the file of this name. -/
def place (path : String) : Place String :=
  if path = "/dev/stdout" then .standardOutput else .file path

def view : View Folder String := ⟨output, file, fun _ => place⟩

/-- The calls on a folder that has room for so many characters in each file. -/
def system (room : Nat) : System (StateM Folder) where
  print text := modify fun s => { s with output := s.output ++ text }
  write path text := do
    if path = "/dev/stdout" then
      modify fun s => { s with output := s.output ++ text }
      return true
    else
      let part := String.ofList (text.toList.take room)
      modify fun s => { s with file := fun i => if i = path then some part else s.file i }
      return decide (text.toList.length ≤ room)

theorem run_write_standardOutput {room : Nat} {path : String} (h : path = "/dev/stdout")
    (text : String) (s : Folder) :
    ((system room).write path text).run s = (true, { s with output := s.output ++ text }) := by
  simp only [system, if_pos h]
  rfl

theorem run_write_file {room : Nat} {path : String} (h : path ≠ "/dev/stdout") (text : String)
    (s : Folder) :
    ((system room).write path text).run s =
      (decide (text.toList.length ≤ room),
        { s with file := fun i =>
            if i = path then some (String.ofList (text.toList.take room)) else s.file i }) := by
  simp only [system, if_neg h]
  rfl

theorem lawful_system (room : Nat) : (system room).Lawful view where
  print text s := ⟨rfl, rfl⟩
  write {path text s s'} h := by
    show view.Received text s s' (place path)
    unfold place
    by_cases hpath : path = "/dev/stdout"
    · rw [run_write_standardOutput hpath] at h
      obtain ⟨-, rfl⟩ := Prod.mk.inj h
      rw [if_pos hpath]
      exact ⟨rfl, rfl⟩
    · rw [run_write_file hpath] at h
      obtain ⟨hroom, rfl⟩ := Prod.mk.inj h
      have hpart : String.ofList (text.toList.take room) = text := by
        rw [List.take_of_length_le (of_decide_eq_true hroom), String.ofList_toList]
      rw [if_neg hpath]
      exact ⟨rfl, (if_pos rfl).trans (congrArg some hpart), fun i hi => if_neg hi⟩
  write_failed {path text s s'} h := by
    show view.Attempted text s s' (place path)
    unfold place
    by_cases hpath : path = "/dev/stdout"
    · rw [run_write_standardOutput hpath] at h
      obtain ⟨hfalse, -⟩ := Prod.mk.inj h
      contradiction
    · rw [run_write_file hpath] at h
      obtain ⟨-, rfl⟩ := Prod.mk.inj h
      have hpart : (String.ofList (text.toList.take room)).toList <+: text.toList := by
        rw [String.toList_ofList]
        exact List.take_prefix room text.toList
      rw [if_neg hpath]
      exact ⟨rfl, .inr ⟨_, if_pos rfl, hpart⟩, fun i hi => if_neg hi⟩

end Folder

namespace Command

/-! ### Checks -/

/-- The first of some checks that fails, as it is reported. -/
inductive FirstFailure : List (Prop × Failure) → Failure → Prop
  | here {P : Prop} {e : Failure} {rest : List (Prop × Failure)} (h : ¬ P) :
      FirstFailure ((P, e) :: rest) e
  | later {P : Prop} {e e' : Failure} {rest : List (Prop × Failure)} (h : P)
      (hrest : FirstFailure rest e) : FirstFailure ((P, e') :: rest) e

theorem not_firstFailure {cs : List (Prop × Failure)} {e : Failure} (h : ∀ c ∈ cs, c.1) :
    ¬ FirstFailure cs e := by
  intro hfailure
  induction hfailure with
  | @here P e _ hnot => exact hnot (h (P, e) (by simp))
  | later _ _ ih => exact ih fun c hc => h c (by simp [hc])

namespace FirstFailure

variable {cs ds : List (Prop × Failure)} {e e' : Failure}

theorem unique (h : FirstFailure cs e) (h' : FirstFailure cs e') : e = e' := by
  induction h with
  | here hnot =>
    cases h' with
    | here => rfl
    | later hpassed => exact absurd hpassed hnot
  | later hpassed _ ih =>
    cases h' with
    | here hnot => exact absurd hpassed hnot
    | later _ hrest => exact ih hrest

theorem append_left (h : FirstFailure cs e) : FirstFailure (cs ++ ds) e := by
  induction h with
  | here hnot => exact .here hnot
  | later hpassed _ ih => exact .later hpassed ih

theorem append_right (hcs : ∀ c ∈ cs, c.1) (h : FirstFailure ds e) : FirstFailure (cs ++ ds) e := by
  induction cs with
  | nil => exact h
  | cons c cs ih => exact .later (hcs c (by simp)) (ih fun d hd => hcs d (by simp [hd]))

theorem mem (h : FirstFailure cs e) : e ∈ cs.map Prod.snd := by
  induction h with
  | here => simp
  | later _ _ ih => simp [ih]

end FirstFailure

/-- The word is one of the names, in any case of its letters A to Z. -/
def IsOneOf (names : List String) (word : String) : Prop := word.map Char.toLower ∈ names

instance (names : List String) (word : String) : Decidable (IsOneOf names word) :=
  inferInstanceAs (Decidable (word.map Char.toLower ∈ names))

/-- The checks on the words of a request, in their order. -/
def wordChecks (r : Request) : List (Prop × Failure) :=
  [(IsOneOf ["error", "warn", "info", "debug", "trace"] r.log, .logLevel r.log),
   (IsOneOf ["puzzle", "tautology"] r.sample, .sample r.sample),
   (IsOneOf ["dimacs", "clauses", "math", "code"] r.format, .format r.format)]

theorem forall_wordChecks_iff {r : Request} :
    (∀ c ∈ wordChecks r, c.1) ↔
      IsOneOf ["error", "warn", "info", "debug", "trace"] r.log ∧
        IsOneOf ["puzzle", "tautology"] r.sample ∧
        IsOneOf ["dimacs", "clauses", "math", "code"] r.format := by
  simp [wordChecks]

/-- The text is what the sample converts to, in the format asked for. -/
def IsAnswer (r : Request) (text : String) : Prop :=
  ∃ (sample : Sample) (f g : Formula), r.sample.map Char.toLower = sample.name ∧
    sample.formula = .ok f ∧ f.clausalForm = .ok g ∧ render g r.format = .ok text

variable {σ ι : Type}

/-- The system can write the answer to the path. -/
def CanWrite (sys : System (StateM σ)) (s : σ) (r : Request) (path : String) : Prop :=
  ∀ text, IsAnswer r text → ((sys.write path text).run s).1 = true

/-- The checks on a request in their order, the output path last. -/
def checks (sys : System (StateM σ)) (s : σ) (r : Request) : List (Prop × Failure) :=
  wordChecks r ++ r.output.toList.map fun path => (CanWrite sys s r path, .output path)

theorem forall_checks_iff {sys : System (StateM σ)} {s : σ} {r : Request} :
    (∀ c ∈ checks sys s r, c.1) ↔
      (∀ c ∈ wordChecks r, c.1) ∧ ∀ path, r.output = some path → CanWrite sys s r path := by
  rw [checks, List.forall_mem_append]
  simp

/-! ### Answers -/

theorem IsAnswer.eq {r : Request} {text text' : String} (h : IsAnswer r text)
    (h' : IsAnswer r text') : text = text' := by
  obtain ⟨s, f, g, hs, hf, hg, hrender⟩ := h
  obtain ⟨s', f', g', hs', hf', hg', hrender'⟩ := h'
  obtain rfl : s = s' := Sample.name_injective (hs.symm.trans hs')
  obtain rfl : f = f' := Except.ok.inj (hf.symm.trans hf')
  obtain rfl : g = g' := Except.ok.inj (hg.symm.trans hg')
  exact Except.ok.inj (hrender.symm.trans hrender')

/-- Looking up a word fails exactly if it is none of the names. -/
theorem orFail_named?_cases {α : Type} {name : α → String} {things : List α} {names : List String}
    (hnames : things.map name = names) (e : Failure) (word : String) :
    (¬ IsOneOf names word ∧ orFail e (named? name things word) = .error e) ∨
      ∃ a, IsOneOf names word ∧ word.map Char.toLower = name a ∧
        orFail e (named? name things word) = .ok a := by
  subst hnames
  cases h : named? name things word with
  | none =>
    have hnot : ¬ IsOneOf (things.map name) word := by simpa [named?, IsOneOf] using h
    exact .inl ⟨hnot, rfl⟩
  | some a =>
    have hname : word.map Char.toLower = name a := by simpa [eq_comm] using List.find?_some h
    have hmem : word.map Char.toLower ∈ things.map name :=
      hname ▸ List.mem_map_of_mem (List.mem_of_find?_eq_some h)
    exact .inr ⟨a, hmem, hname, rfl⟩

/-- The text of a request is rendered, unless the format is unknown. -/
theorem render_cases {f : Formula} {cs : ClauseList} (h : ClauseList.ofFormula f = .ok cs)
    (word : String) :
    (¬ IsOneOf ["dimacs", "clauses", "math", "code"] word ∧
        render f word = .error (.format word)) ∨
      ∃ text, IsOneOf ["dimacs", "clauses", "math", "code"] word ∧ render f word = .ok text := by
  have hnames : Format.all.map Format.name = ["dimacs", "clauses", "math", "code"] := rfl
  obtain ⟨hnot, hfails⟩ | ⟨fmt, hone, hname, -⟩ := orFail_named?_cases hnames (.format word) word
  · left
    refine ⟨hnot, ?_⟩
    rw [render, hfails]
    rfl
  · exact .inr ⟨_, hone, Format.commandRender_eq_ok h hname⟩

/-- A request has an answer, or the first word that is wrong is reported. -/
theorem answer_cases (r : Request) :
    (∃ e, FirstFailure (wordChecks r) e ∧ answer r = .error e) ∨
      (∀ c ∈ wordChecks r, c.1) ∧ ∃ text, IsAnswer r text ∧ answer r = .ok text := by
  have hlevels : LogLevel.all.map LogLevel.name = ["error", "warn", "info", "debug", "trace"] := rfl
  have hsamples : Sample.all.map Sample.name = ["puzzle", "tautology"] := rfl
  obtain ⟨hnot, hlog⟩ | ⟨level, hlevel, -, hlog⟩ :=
    orFail_named?_cases hlevels (.logLevel r.log) r.log
  · have hfails : answer r = .error (.logLevel r.log) := by
      rw [answer, hlog]
      rfl
    exact .inl ⟨_, .here hnot, hfails⟩
  obtain ⟨hnot, hsample⟩ | ⟨sample, hone, hs, hsample⟩ :=
    orFail_named?_cases hsamples (.sample r.sample) r.sample
  · have hfails : answer r = .error (.sample r.sample) := by
      rw [answer, hlog, hsample]
      rfl
    exact .inl ⟨_, .later hlevel (.here hnot), hfails⟩
  -- The sample converts, and its clauses can be counted: nothing fails before the format is read.
  obtain ⟨f, g, hf, hg, hcs⟩ := sample.exists_extraction
  have hanswer : answer r = render g r.format := by
    rw [answer, hlog, hsample]
    simp only [bind, Except.bind, hf, hg, hcs, Except.mapError]
    cases level.tellsProgress <;> rfl
  rw [hanswer]
  obtain ⟨hnot, hrender⟩ | ⟨text, hformat, hrender⟩ := render_cases hcs r.format
  · exact .inl ⟨_, .later hlevel (.later hone (.here hnot)), hrender⟩
  · exact .inr ⟨forall_wordChecks_iff.2 ⟨hlevel, hone, hformat⟩, text,
      ⟨sample, f, g, hs, hf, hg, hrender⟩, hrender⟩

theorem answer_eq_ok {r : Request} {text : String} (hpassed : ∀ c ∈ wordChecks r, c.1)
    (h : IsAnswer r text) : answer r = .ok text := by
  obtain ⟨e, hfailure, -⟩ | ⟨-, text', htext', hanswer⟩ := answer_cases r
  · exact absurd hfailure (not_firstFailure hpassed)
  · rw [hanswer, htext'.eq h]

/-! ### Endings -/

/-- The ways in which a run ends: it reports a word and leaves the system alone, or it calls the
system once, with the answer. -/
inductive Ends (sys : System (StateM σ)) (r : Request) (s : σ) : Except Failure Unit → σ → Prop
  | reported {e : Failure} (failure : FirstFailure (wordChecks r) e) : Ends sys r s (.error e) s
  | printed {text : String} (passed : ∀ c ∈ wordChecks r, c.1) (answer : IsAnswer r text)
      (output : r.output = none) : Ends sys r s (.ok ()) ((sys.print text).run s).2
  | written {text path : String} {s' : σ} (passed : ∀ c ∈ wordChecks r, c.1)
      (answer : IsAnswer r text) (output : r.output = some path)
      (success : (sys.write path text).run s = (true, s')) : Ends sys r s (.ok ()) s'
  | unwritten {text path : String} {s' : σ} (passed : ∀ c ∈ wordChecks r, c.1)
      (answer : IsAnswer r text) (output : r.output = some path)
      (failure : (sys.write path text).run s = (false, s')) :
      Ends sys r s (.error (.output path)) s'

theorem run_of_answer_eq_error (sys : System (StateM σ)) {r : Request} {e : Failure}
    (h : answer r = .error e) (s : σ) : (run sys r).run s = (.error e, s) := by
  rw [run, h]
  rfl

theorem run_of_answer_eq_ok (sys : System (StateM σ)) {r : Request} {text : String}
    (h : answer r = .ok text) (s : σ) : (run sys r).run s = (deliver sys r.output text).run s := by
  rw [run, h]
  rfl

theorem run_deliver_some (sys : System (StateM σ)) (path text : String) {s s' : σ} {success : Bool}
    (h : (sys.write path text).run s = (success, s')) :
    (deliver sys (some path) text).run s =
      (if success then .ok () else .error (.output path), s') := by
  rw [deliver, run_bind_ok (run_liftM h)]
  cases success <;> rfl

theorem run_ends (sys : System (StateM σ)) (r : Request) (s : σ) :
    ∃ outcome s', (run sys r).run s = (outcome, s') ∧ Ends sys r s outcome s' := by
  obtain ⟨e, hfailure, hanswer⟩ | ⟨hpassed, text, htext, hanswer⟩ := answer_cases r
  · exact ⟨_, _, run_of_answer_eq_error sys hanswer s, .reported hfailure⟩
  rw [run_of_answer_eq_ok sys hanswer s]
  cases houtput : r.output with
  | none => exact ⟨_, _, rfl, .printed hpassed htext houtput⟩
  | some path =>
    rcases hwrite : (sys.write path text).run s with ⟨success, s'⟩
    rw [run_deliver_some sys path text hwrite]
    cases success with
    | true => exact ⟨_, _, rfl, .written hpassed htext houtput hwrite⟩
    | false => exact ⟨_, _, rfl, .unwritten hpassed htext houtput hwrite⟩

/-- Where a request wants its answer. -/
def destination (view : View σ ι) (s : σ) (r : Request) : Place ι :=
  match r.output with
  | none => .standardOutput
  | some path => view.place s path

namespace Ends

variable {sys : System (StateM σ)} {view : View σ ι} {r : Request} {s s' : σ}
  {outcome : Except Failure Unit}

theorem eq_error_iff (h : Ends sys r s outcome s') (e : Failure) :
    outcome = .error e ↔ FirstFailure (checks sys s r) e := by
  have hfailing : ∀ {e'}, FirstFailure (checks sys s r) e' →
      ((.error e' : Except Failure Unit) = .error e ↔ FirstFailure (checks sys s r) e) := by
    intro e' he'
    rw [Except.error.injEq]
    constructor
    · rintro rfl
      exact he'
    · exact he'.unique
  cases h with
  | reported failure => exact hfailing failure.append_left
  | printed passed _ output =>
    have hall : ∀ c ∈ checks sys s r, c.1 := by
      refine forall_checks_iff.2 ⟨passed, fun path hpath => ?_⟩
      rw [output] at hpath
      contradiction
    exact ⟨nofun, fun he => absurd he (not_firstFailure hall)⟩
  | @written text path s' passed answer output success =>
    have hall : ∀ c ∈ checks sys s r, c.1 := by
      refine forall_checks_iff.2 ⟨passed, fun path' hpath' text' htext' => ?_⟩
      obtain rfl : path = path' := Option.some.inj (output.symm.trans hpath')
      rw [htext'.eq answer, success]
    exact ⟨nofun, fun he => absurd he (not_firstFailure hall)⟩
  | @unwritten text path s' passed answer output failure =>
    have hcannot : ¬ CanWrite sys s r path := by
      intro hcan
      have htrue := hcan text answer
      rw [failure] at htrue
      contradiction
    refine hfailing ?_
    rw [checks, output]
    exact .append_right passed (.here hcannot)

theorem unchanged (h : Ends sys r s outcome s') {e : Failure} (he : outcome = .error e)
    (hpath : ∀ path, e ≠ .output path) : s' = s := by
  cases h with
  | reported => rfl
  | printed | written => contradiction
  | unwritten =>
    cases he
    exact absurd rfl (hpath _)

theorem attempted (hsys : sys.Lawful view) (h : Ends sys r s outcome s') {path : String}
    (he : outcome = .error (.output path)) :
    r.output = some path ∧
      ∃ text, IsAnswer r text ∧ view.Attempted text s s' (view.place s path) := by
  cases h with
  | reported failure =>
    cases he
    have hmem := failure.mem
    simp [wordChecks] at hmem
  | printed | written => contradiction
  | unwritten _ answer output failure =>
    cases he
    exact ⟨output, _, answer, hsys.write_failed failure⟩

theorem received (hsys : sys.Lawful view) (h : Ends sys r s outcome s') (hok : outcome = .ok ()) :
    ∃ text, IsAnswer r text ∧ view.Received text s s' (destination view s r) := by
  unfold destination
  cases h with
  | reported | unwritten => contradiction
  | printed _ answer output =>
    rw [output]
    exact ⟨_, answer, hsys.print _ s⟩
  | written _ answer output success =>
    rw [output]
    exact ⟨_, answer, hsys.write success⟩

end Ends

/-- The clauses of the second sample, a line for each. -/
def tautologyLines : String :=
  "2 3 -2 3\n2 3 -3 2\n2 -2 -2 3\n2 -2 -3 2\n-3 3 -2 3\n-3 3 -3 2\n-3 -2 -2 3\n-3 -2 -3 2\n" ++
  "2 3 -2 3\n2 3 -3 2\n2 -2 -2 3\n2 -2 -3 2\n-3 3 -2 3\n-3 3 -3 2\n-3 -2 -2 3\n-3 -2 -3 2\n"

theorem tautologyLines_ne : tautologyLines ≠ "" := by
  intro h
  obtain ⟨hfirst, -⟩ := String.append_eq_empty_iff.1 h
  simp at hfirst

theorem isAnswer_tautologyLines {r : Request} (hsample : r.sample.map Char.toLower = "tautology")
    (hformat : r.format.map Char.toLower = "clauses") : IsAnswer r tautologyLines := by
  let y := Literal.ofWord 2 (by decide)
  let z := Literal.ofWord 3 (by decide)
  let y' := Literal.ofWord (-2) (by decide)
  let z' := Literal.ofWord (-3) (by decide)
  let clauses :=
    [[y, z, y', z], [y, z, z', y], [y, y', y', z], [y, y', z', y],
      [z', z, y', z], [z', z, z', y], [z', y', y', z], [z', y', z', y]]
  obtain ⟨f, g, hf, hg, hcs⟩ := Sample.tautology.exists_extraction
  -- Both directions of the outer equivalence give the same clauses.
  have hclauses : Formula.clausesAt .positive f = clauses ++ clauses := by
    cases hf
    cbv
  have hlines : Format.clauseLines ⟨(clauses ++ clauses).map Clause.mk⟩ = tautologyLines := by
    decide +kernel
  have hname : r.format.map Char.toLower = Format.clauses.name := hformat
  refine ⟨.tautology, f, g, hsample, hf, hg, ?_⟩
  rw [← hlines, ← hclauses]
  exact Format.commandRender_eq_ok hcs hname

end Command

end Clausal
