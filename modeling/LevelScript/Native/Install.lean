import LevelScript.Machine.State
import LevelScript.Native.Library

/-!
# Libraries in a machine

Functions and data of a library get addresses, and external declarations find them by name.
-/

namespace LevelScript

namespace Machine

/-- Makes an address known under a name; the address zero cannot be found. -/
def register (m : Machine) (name : String) (addr : UInt64) : Machine :=
  { m with symbols := m.symbols.insert name addr }

def addFunctions (m : Machine) (first : Nat) : List (String × NativeFunction) → Machine
  | [] => m
  | (name, f) :: more =>
    let addr := Library.codeAddress first
    let m := { m with code := m.code.insert addr (.native f) }
    addFunctions (m.register name addr) (first + 1) more

def withLibrary (m : Machine) : Machine :=
  let m := { m with memory := Library.memory }
  let m := Library.data.foldl (fun (m : Machine) (name, addr) => m.register name addr) m
  (m.addFunctions 0 Library.functions).register "h_zero" 0

def withProcess (m : Machine) : Machine :=
  m.addFunctions Library.functions.length Library.processFunctions

end Machine

end LevelScript
