import LevelScript.Diagnostic
import LevelScript.Native.Install
import LevelScript.Session
import LevelScript.Settings.Json

/-!
# The command line

Runs or lists a file, or reads commands line by line. Output and errors collect in the machine.
-/

namespace LevelScript

namespace Console

open Exec

abbrev Files := String → Except String String

def usage : String :=
  "usage: paw [run|disasm] <file> [--config <file.json>] [--dump]\n" ++
  "       paw repl [--config <file.json>]"

/-! ## Arguments -/

inductive Command where
  | run | disasm | repl
  deriving Repr, DecidableEq

def Command.ofName? : String → Option Command
  | "run" => some run
  | "disasm" => some disasm
  | "repl" => some repl
  | _ => none

structure Options where
  command : Command := .run
  input : Option String := none
  config : Option String := none
  dump : Bool := false
  help : Bool := false
  deriving Repr, DecidableEq

/-- Reads options up to one that asks for help. Of several files the last one counts. -/
def options (o : Options) : List String → Options
  | [] => o
  | "--config" :: [] => { o with config := none }
  | "--config" :: path :: args => options { o with config := some path } args
  | "--dump" :: args => options { o with dump := true } args
  | arg :: args =>
    if arg == "-h" || arg == "--help" then { o with help := true }
    else options { o with input := some arg } args

def optionsOf : List String → Options
  | [] => {}
  | first :: rest =>
    match Command.ofName? first with
    | some command => options { command } rest
    | none => options {} (first :: rest)

/-! ## Errors -/

def writeError (text : String) : Exec Unit := modify fun m => { m with errors := m.errors ++ text }

/-- Shows an error: a syntax error in the text at hand with an excerpt, any other with its calls. -/
def report (e : RunError) (path source : String) : Exec Unit :=
  match e.cause with
  | .grammar s =>
    if s.file == path then
      writeError ((Diagnostic.ofError s).format path source "Syntax error" 1)
    else logError e
  | _ => logError e

/-! ## Files -/

/-- Settings from a file, or the defaults. -/
def settingsFrom (files : Files) : Option String → Except String Settings
  | none => .ok {}
  | some path => do
    let fail (reason : String) : String := path ++ ": " ++ reason
    let text ← (files path).mapError fail
    (Settings.ofJson text).mapError fun e => fail (e.message text)

def machine (files : Files) (settings : Settings) : Machine :=
  ({ settings, sources := fun path => (files path).toOption : Machine }).withProcess.start

def script (i : Interp) (o : Options) (path source : String) : Exec Nat := do
  let body : Exec Unit := match o.command with
    | .disasm => do
      let listing ← Session.disassemble source path
      modify fun m => { m with output := m.output ++ listing }
    | _ => Session.runFile i path
  match ← attempt body with
  | .ok () => return 0
  | .error e =>
    report e path source
    return 1

def includePaths : List Token → List String
  | .keyword .includeWord :: .text path :: rest => path :: includePaths rest
  | _ :: rest => includePaths rest
  | [] => []

def includedFiles (source file : String) : List String :=
  match tokenize source file with
  | .ok lexemes => (includePaths (lexemes.map Lexeme.token)).map (Path.relativeTo file)
  | .error _ => []

/-! ## Reading line by line -/

/-- How many braces are open behind some characters; those in quotes do not count. -/
def braceDepthFrom (quote : Option Char) (escaped : Bool) : List Char → Int
  | [] => 0
  | c :: cs =>
    match quote with
    | some q =>
      if escaped then braceDepthFrom quote false cs
      else if c = '\\' then braceDepthFrom quote true cs
      else braceDepthFrom (if c = q then none else quote) false cs
    | none =>
      if c = '"' || c = '\'' then braceDepthFrom (some c) false cs
      else if c = '\x7b' then braceDepthFrom none false cs + 1
      else if c = '\x7d' then braceDepthFrom none false cs - 1
      else braceDepthFrom none false cs

def braceDepth (text : String) : Int := braceDepthFrom none false text.toList

def banner : String := "PawScript REPL. Type :help for commands, Ctrl+D to exit."

def help : String := "\n".intercalate
  [ ":help          show this message",
    ":type <name>   print the type of a global",
    ":quit          leave the REPL",
    "Statements end with ';'. Unclosed braces continue on the next line." ]

structure Repl where
  pending : String := ""
  ended : Bool := false

/-- Removes a text from the start as often as it is there. -/
def dropAll (start : List Char) : Nat → List Char → List Char
  | 0, cs => cs
  | n + 1, cs => if start.isPrefixOf cs then dropAll start n (cs.drop start.length) else cs

/-- The name that a question for a type is about, if a line is one. -/
def typeQuestion? (line : String) : Option String :=
  if line.startsWith ":type" then
    some (Text.trim (String.ofList (dropAll ":type".toList line.length line.toList)))
  else none

def runShown (i : Interp) (source : String) : Exec Unit := do
  match ← attempt (Session.run i source) with
  | .error e => report e Session.memoryFile source
  | .ok () =>
    match ← Session.typeOf "@RESULT@" with
    | none | some "void" => return
    | some type =>
      match ← Session.render i "@RESULT@" with
      | some value => Session.writeLine ("= " ++ value ++ " (" ++ type ++ ")")
      | none => return

/-- Adds a line to the text that waits, and runs it once its braces are closed. -/
def addLine (i : Interp) (s : Repl) (line : String) : Exec Repl := do
  let source := s.pending ++ line ++ "\n"
  if 0 < braceDepth source then return { s with pending := source }
  runShown i source
  return { s with pending := "" }

def readLine (i : Interp) (s : Repl) (line : String) : Exec Repl := do
  if !s.pending.isEmpty then addLine i s line
  else
    match Text.trim line with
    | "" => return s
    | ":quit" | ":exit" => return { s with ended := true }
    | ":help" =>
      Session.writeLine help
      return s
    | command =>
      match typeQuestion? command with
      | some name =>
        Session.writeLine ((← Session.typeOf name).getD ("Variable '" ++ name ++ "' not found"))
        return s
      | none => addLine i s line

def readLines (i : Interp) (s : Repl) : List String → Exec Unit
  | [] => return
  | line :: lines => do
    let s ← readLine i s line
    if s.ended then return else readLines i s lines

def dropReturn (line : String) : String :=
  match line.toList.reverse with
  | '\r' :: rest => String.ofList rest.reverse
  | _ => line

/-- The lines of an input, without their ends; nothing stands behind the last end. -/
def inputLines (text : String) : List String :=
  match (text.splitOn "\n").reverse with
  | [] => []
  | last :: ended => (ended.reverse.map dropReturn) ++ (if last.isEmpty then [] else [last])

/-! ## All of it -/

structure Output where
  code : Nat := 0
  stdout : String := ""
  stderr : String := ""
  deriving Repr, DecidableEq

/-- Runs a computation that gives an exit code on a machine, and closes the machine. -/
def conclude (i : Interp) (body : Exec Nat) (m : Machine) : Output :=
  let (code, m) := match body m with
    | .ok code m => (code, m)
    | .error _ m => (1, m)
  let m := match i.shutdown m with
    | .ok _ m => m
    | .error _ m => m
  ⟨code, m.output, m.errors⟩

def failure (text : String) : Output := { code := 1, stderr := text ++ "\n" }

/-- The command line with arguments, files and an input. -/
def execute (i : Interp) (args : List String) (files : Files) (input : String) : Output :=
  let o := optionsOf args
  if o.help then { stdout := usage ++ "\n" }
  else match settingsFrom files o.config with
    | .error reason => failure ("paw: cannot read config " ++ reason)
    | .ok settings =>
      let m := machine files { settings with dumpBytecode := settings.dumpBytecode || o.dump }
      if o.command = .repl then
        let body : Exec Nat := do
          Session.writeLine banner
          readLines i {} (inputLines input)
          return 0
        conclude i body m
      else match o.input with
        | none => failure usage
        | some path =>
          match files path with
          | .error reason => failure ("paw: cannot read " ++ path ++ ": " ++ reason)
          | .ok source => conclude i (script i o path source) m

end Console

namespace Directory

/-- Reads files of a directory; a failure is told as a system tells it. -/
def read (d : Directory) : Console.Files := fun path =>
  match d.look path with
  | .file text => .ok text
  | .directory => .error "Is a directory (os error 21)"
  | .missing => .error "No such file or directory (os error 2)"
  | .notDirectory => .error "Not a directory (os error 20)"

end Directory

end LevelScript
