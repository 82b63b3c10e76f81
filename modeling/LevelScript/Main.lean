import LevelScript.Console

/-!
# The program

Reads the files that the command line needs, runs it, and prints what it wrote. A dialogue runs line
by line.
-/

namespace LevelScript

namespace Console

/-- More parts than any program runs inside each other. -/
def unlimited : Nat := 1 <<< 50

/-- Files that have been read, or the reasons why they could not be. -/
abbrev Loaded := Std.HashMap String (Except String String)

def Loaded.read (l : Loaded) : Files := fun path =>
  (l[path]?).getD (.error "No such file or directory (os error 2)")

def reasonOf : IO.Error → String
  | .noFileOrDirectory .. => "No such file or directory (os error 2)"
  | e => toString e

partial def load (known : Loaded) : List String → IO Loaded
  | [] => return known
  | path :: more => do
    if known.contains path then load known more
    else
      let found ← try Except.ok <$> IO.FS.readFile path catch e => pure (.error (reasonOf e))
      let included := match found with
        | .ok source => includedFiles source path
        | .error _ => []
      load (known.insert path found) (included ++ more)

def flush (m : Machine) : IO Machine := do
  IO.print m.output
  (← IO.getStdout).flush
  IO.eprint m.errors
  return { m with output := "", errors := "" }

/-- Reads lines until the input or the dialogue is over. -/
partial def dialogue (i : Interp) (known : Loaded) (s : Repl) (m : Machine) : IO Machine := do
  let line ← (← IO.getStdin).getLine
  if line.isEmpty then return m
  let text := (inputLines line).headD ""
  let known ← load known (includedFiles (s.pending ++ text) Session.memoryFile)
  match readLine i s text { m with sources := fun path => (known.read path).toOption } with
  | .error _ m => flush m
  | .ok s m =>
    let m ← flush m
    if s.ended then return m else dialogue i known s m

def converse (i : Interp) (known : Loaded) (settings : Settings) : IO UInt32 := do
  IO.println banner
  let m ← dialogue i known {} (machine known.read settings)
  let m := match i.shutdown m with
    | .ok _ m => m
    | .error _ m => m
  discard (flush m)
  return 0

end Console

end LevelScript

open LevelScript Console in
def main (args : List String) : IO UInt32 := do
  let i := Interp.ofFuel unlimited
  let o := optionsOf args
  let known ← load ∅ (o.config.toList ++ o.input.toList)
  match o.help, o.command, settingsFrom known.read o.config with
  | false, .repl, .ok settings => converse i known settings
  | _, _, _ =>
    let out := execute i args known.read ""
    IO.print out.stdout
    IO.eprint out.stderr
    return out.code.toUInt32
