import Std.Data.HashMap

/-!
# Source files

Where included files come from: a set of files kept by path, or a directory of them. A path is read
relative to the directory of the file that names it.
-/

namespace LevelScript

/-- The text of the file at a path, if there is one. -/
abbrev Sources := String → Option String

namespace Path

/-- Empty components and single dots in the middle of a path mean nothing. -/
def isBlank (part : String) : Bool := part.isEmpty || part == "."

/-- Removes meaningless components from the end; the first one stays. -/
def trimEnd : List String → List String
  | part :: next :: rest => if isBlank part then trimEnd (next :: rest) else part :: next :: rest
  | parts => parts

/-- The directory part of a path; `none` if it has no last component. -/
def parent? (path : String) : Option String :=
  match trimEnd (path.splitOn "/").reverse with
  | [] | [""] => none
  | [_] => some ""
  | _ :: dir =>
    match (trimEnd dir).reverse with
    | [""] => some "/"
    | parts => some ("/".intercalate parts)

def join (dir name : String) : String :=
  if name.startsWith "/" || dir.isEmpty then name
  else if dir.endsWith "/" then dir ++ name
  else dir ++ "/" ++ name

/-- A path that a file names, seen from outside that file. -/
def relativeTo (file name : String) : String :=
  match parent? file with
  | some dir => join dir name
  | none => name

end Path

/-- Files by path. A leading `./` does not count. -/
structure FileSet where
  files : Std.HashMap String String := ∅

namespace FileSet

def key (path : String) : String :=
  match path.toList with
  | '.' :: '/' :: rest => String.ofList rest
  | _ => path

def insert (fs : FileSet) (path text : String) : FileSet := ⟨fs.files.insert (key path) text⟩

def find? (fs : FileSet) (path : String) : Option String := fs.files[key path]?

def ofList (files : List (String × String)) : FileSet :=
  files.foldl (fun fs (path, text) => fs.insert path text) {}

end FileSet

/-- What a path in a directory of files leads to. -/
inductive Entry where
  | file (text : String)
  | directory
  | missing
  /-- A file stands where a directory is needed. -/
  | notDirectory
  deriving Repr, DecidableEq

/-- The files of a directory, each with the components of its path. -/
structure Directory where
  files : List (List String × String) := []

namespace Directory

def ofList (files : List (String × String)) : Directory :=
  ⟨files.reverse.map fun (path, text) => ((path.splitOn "/").filter (!Path.isBlank ·), text)⟩

def entry (d : Directory) (parts : List String) : Entry :=
  match d.files.lookup parts with
  | some text => .file text
  | none =>
    if parts.isEmpty || d.files.any fun f => parts.isPrefixOf f.1 then .directory else .missing

def walk (d : Directory) (here : List String) : List String → Entry
  | [] => d.entry here.reverse
  | part :: rest =>
    match d.entry here.reverse with
    | .directory =>
      if Path.isBlank part then walk d here rest
      else if part == ".." then walk d here.tail rest
      else walk d (part :: here) rest
    | .file _ => .notDirectory
    | e => e

/-- What is at a path; nothing is outside of the directory. -/
def look (d : Directory) (path : String) : Entry :=
  if path.isEmpty || path.startsWith "/" then .missing else d.walk [] (path.splitOn "/")

def find? (d : Directory) (path : String) : Option String :=
  match d.look path with
  | .file text => some text
  | _ => none

end Directory

end LevelScript
