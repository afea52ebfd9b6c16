import UnitSheet.Console.Command

/-!
The program: reads the settings file, answers its arguments and prints the answer.
-/
namespace UnitSheet.Console

/-- The text of a file, if it can be read. -/
def readText? (path : String) : IO (Option String) := do
  try return some (← IO.FS.readFile path)
  catch _ => return none

/-- The first of some files that can be read, with its text. -/
def readFirst? : List String → IO (Option (String × Option String))
  | [] => return none
  | path :: paths => do
    match ← readText? path with
    | some text => return some (path, some text)
    | none => readFirst? paths

/-- The settings file that a request names, or else the nearest one to the working directory. -/
def settingsFile (r : Request) : IO (Option (String × Option String)) := do
  match r.command, r.settingsPath with
  | .version, _ => return none
  | _, some path => return some (path, ← readText? path)
  | _, none =>
    let directory := toString (← IO.currentDir)
    readFirst? ((Settings.candidates (Path.parts directory)).map fun parts =>
      "/" ++ Path.text parts)

def answerWithFiles (args : List String) : IO Output := do
  match Request.ofArgs? args with
  | some r => return r.run (← settingsFile r)
  | none => return usage

end UnitSheet.Console

def main (args : List String) : IO UInt32 := do
  let o ← UnitSheet.Console.answerWithFiles args
  IO.print o.output
  IO.eprint o.log
  return UInt32.ofNat o.exit
