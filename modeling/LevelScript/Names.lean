import Std.Data.HashMap

/-!
# The pool of names

Names and string literals are kept once each and referred to by number. Eight names have fixed
numbers.
-/

namespace LevelScript

abbrev NameId := UInt32

namespace NameId

def this : NameId := 0
def varargs : NameId := 1
def result : NameId := 2
def super : NameId := 3
def constructor : NameId := 4
def destructor : NameId := 5
def global : NameId := 6
def anonymous : NameId := 7

end NameId

structure Names where
  texts : Array String
  ids : Std.HashMap String NameId

namespace Names

def empty : Names := ⟨#[], ∅⟩

def size (names : Names) : Nat := names.texts.size

def get? (names : Names) (text : String) : Option NameId := names.ids[text]?

/-- The number of `text`, which joins the pool if it is new. -/
def intern (names : Names) (text : String) : NameId × Names :=
  match names.ids[text]? with
  | some id => (id, names)
  | none =>
    let id := names.texts.size.toUInt32
    (id, ⟨names.texts.push text, names.ids.insert text id⟩)

/-- The names with fixed numbers, in order. -/
def wellKnown : List String :=
  ["this", "...", "@RESULT@", "super", "new", "delete", "<global>", "<anonymous>"]

def internAll (names : Names) (texts : List String) : Names :=
  texts.foldl (fun names text => (names.intern text).2) names

def initial : Names := empty.internAll wellKnown

instance : Inhabited Names := ⟨initial⟩

/-- The text of a name; unknown numbers have none. -/
def text (names : Names) (id : NameId) : String := (names.texts[id.toNat]?).getD ""

def isKnown (names : Names) (id : NameId) : Bool := id.toNat < names.texts.size

end Names

end LevelScript
