import UnitSheet.Console.Report
import UnitSheet.Settings.Files

namespace UnitSheet.Console

inductive Command
  | version
  | eval (expressions : List String) (unit conversion : String) (json : Bool)
  | tokens (expression : String)
  | tree (expression : String)

/-- A command with the options that all commands share. -/
structure Request where
  command : Command
  verbose : Bool := false
  settingsPath : Option String := none

namespace Request

/-- Options are flags or take a text; each has a long name and a one-letter name. -/
structure OptionNames where
  flags : List (String × Char)
  texts : List (String × Char)

/-- Options by their long names, later ones first, and the other arguments in order. -/
structure Arguments where
  flags : List String := []
  texts : List (String × String) := []
  others : List String := []

/-- One-letter options of one argument: flags, then maybe an option with the rest as its text. -/
def letters? (names : OptionNames) (a : Arguments) (next : List String) :
    List Char → Option (Arguments × List String)
  | [] => some (a, next)
  | c :: cs =>
    match names.flags.find? (·.2 = c), names.texts.find? (·.2 = c) with
    | some (name, _), _ => letters? names { a with flags := name :: a.flags } next cs
    | none, some (name, _) =>
      match cs, next with
      | [], text :: next => some ({ a with texts := (name, text) :: a.texts }, next)
      | [], [] => none
      | cs, next => some ({ a with texts := (name, String.ofList cs) :: a.texts }, next)
    | none, none => none

/-- A long option, whose text follows a sign of equality or is the next argument. -/
def long? (names : OptionNames) (a : Arguments) (next : List String) (cs : List Char) :
    Option (Arguments × List String) :=
  let name := String.ofList (cs.takeWhile (· ≠ '='))
  match cs.dropWhile (· ≠ '='), next with
  | [], next =>
    if names.flags.any (·.1 = name) then some ({ a with flags := name :: a.flags }, next)
    else if names.texts.any (·.1 = name) then
      match next with
      | text :: next => some ({ a with texts := (name, text) :: a.texts }, next)
      | [] => none
    else none
  | _ :: text, next =>
    if names.texts.any (·.1 = name) then
      some ({ a with texts := (name, String.ofList text) :: a.texts }, next)
    else none

/-- Sorts arguments into options and others; behind `--` there are no options. -/
def sort? (names : OptionNames) : (fuel : Nat) → Arguments → List String → Option Arguments
  | 0, a, _ => some a
  | _, a, [] => some a
  | fuel + 1, a, arg :: next =>
    match arg.toList with
    | ['-', '-'] => some { a with others := a.others ++ next }
    | '-' :: '-' :: cs => do
      let (a, next) ← long? names a next cs
      sort? names fuel a next
    | '-' :: c :: cs => do
      let (a, next) ← letters? names a next (c :: cs)
      sort? names fuel a next
    | _ => sort? names fuel { a with others := a.others ++ [arg] } next

def verboseFlag : String × Char := ("verbose", 'v')

/-- Options of `eval`; `json` has no letter of its own. -/
def evalNames : OptionNames :=
  ⟨[verboseFlag, ("json", '\x00')], [("unit", 'u'), ("to", 't'), ("config", 'c')]⟩

def plainNames : OptionNames := ⟨[verboseFlag], []⟩

def ofEval? (args : List String) : Option Request := do
  let a ← sort? evalNames (args.length + 1) {} args
  let text (name : String) : String := (a.texts.lookup name).getD ""
  if a.others.isEmpty then none
  else
    return { command := .eval a.others (text "unit") (text "to") (a.flags.contains "json")
             verbose := a.flags.contains "verbose"
             settingsPath := (a.texts.lookup "config").map Path.normalize }

/-- A command on exactly one expression. -/
def ofSingle? (command : String → Command) (args : List String) : Option Request := do
  let a ← sort? plainNames (args.length + 1) {} args
  match a.others with
  | [expression] => return { command := command expression, verbose := a.flags.contains "verbose" }
  | _ => none

def ofArgs? : List String → Option Request
  | "--version" :: _ | "-V" :: _ => some { command := .version }
  | "eval" :: args => ofEval? args
  | "tokens" :: args => ofSingle? .tokens args
  | "tree" :: args => ofSingle? .tree args
  | _ => none

end Request

/-- What a command leaves: its exit code, and the texts for output and for the log. -/
structure Output where
  exit : Nat := 0
  output : String := ""
  log : String := ""

namespace Output

def ofLines (lines : List String) : String := String.join (lines.map (· ++ "\n"))

def ofMarkup (text : String) : String := ofLines (shownLines (Markup.plain text))

def withLog (o : Output) (least : Severity) (events : List Event) : Output :=
  { o with log := ofLines ((eventsFrom least events).map Event.render) ++ o.log }

end Output

namespace Request

def version : String := "0.3.0"

def refused (text : String) : Output := { exit := 1, output := Output.ofMarkup text }

def failed (f : Failure) : Output := refused (strong "red" (Markup.escape f.report))

def broken (f : Fault) : Output := { exit := 1, log := f.message ++ "\n" }

def stopped : Stop → Output
  | .failure f => failed f
  | .fault f => broken f

def evalOutput (results : List Result) (json : Bool) : Output where
  exit := if results.any fun r => r.failure?.isSome then 1 else 0
  output :=
    if json then (Json.array (results.map resultJson)).write ++ "\n"
    else Output.ofLines (resultTable results).lines

/-- Evaluates a batch, with the events of its work. -/
def runEval (settings : Settings) (expressions : List String) (unit conversion : String)
    (json : Bool) : Output × List Event :=
  let items := expressions.map fun value => { value, unit, conversion : Item }
  match settings.sheet with
  | (.error (.failure f), s) =>
    (refused (strong "red" "Invalid constant in config:" ++ " " ++ Markup.escape f.message),
      s.journal)
  | (.error (.fault f), s) => (broken f, s.journal)
  | (.ok _, s) =>
    match Sheet.batch items s with
    | (.ok results, s) => (evalOutput results json, s.journal)
    | (.error f, s) => (broken f, s.journal)

def runTokens (expression : String) : Output :=
  match Token.tokenize expression with
  | .ok tokens => { output := Output.ofLines (tokenTable tokens).lines }
  | .error stop => stopped stop

def runTree (settings : Settings) (expression : String) : Output :=
  match Expr.parse expression settings.nesting with
  | .ok e => { output := Output.ofLines (sourceTree expression e).lines }
  | .error stop => stopped stop

def runCommand (settings : Settings) : Command → Output × List Event
  | .version => ({ output := s!"dimeval {version}\n" }, [])
  | .eval expressions unit conversion json => runEval settings expressions unit conversion json
  | .tokens expression => (runTokens expression, [])
  | .tree expression => (runTree settings expression, [])

/-- Runs with the settings file given by its path and its text, which may be missing. -/
def run (r : Request) (file : Option (String × Option String)) : Output :=
  let settings : Except Settings.Stop Settings := match file with
    | some (path, text) => Settings.ofText path text
    | none => .ok {}
  match settings with
  | .error (.error e) => refused (strong "red" "Config error:" ++ " " ++ Markup.escape e.message)
  | .error (.fault f) => broken f
  | .ok settings =>
    let loaded := file.toList.map fun (path, _) => Event.settingsLoaded path
    let (o, events) := runCommand settings r.command
    o.withLog (if r.verbose then .debug else settings.severity) (loaded ++ events)

/-- The settings file of a request in a tree of files whose root has the path given. -/
def fileIn (r : Request) (files : FileTree) (root : String) : Option (String × Option String) :=
  match r.command, r.settingsPath with
  | .version, _ => none
  | _, some path => some (path, files.read? (Path.parts path))
  | _, none =>
    (Settings.find? files []).map fun parts => (root ++ "/" ++ Path.text parts, files.read? parts)

end Request

/-- What arguments that make no request lead to. -/
def usage : Output :=
  { exit := 2, log := "Usage: dimeval eval|tokens|tree [OPTIONS] EXPRESSIONS\n" }

/-- Answers arguments in a tree of files whose root has the path given. -/
def answer (args : List String) (files : FileTree) (root : String) : Output :=
  match Request.ofArgs? args with
  | some r => r.run (r.fileIn files root)
  | none => usage

end UnitSheet.Console
