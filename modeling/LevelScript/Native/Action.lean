import LevelScript.Native.CallFrame

/-!
# Native functions

What a native function does is a finite tree of actions: it prints, touches memory, calls other
code, and at last returns.
-/

namespace LevelScript

inductive NativeAction where
  | done (result : NativeResult)
  | print (line : String) (next : NativeAction)
  | read (addr : UInt64) (next : UInt64 → NativeAction)
  | write (addr : UInt64) (bits : UInt64) (next : NativeAction)
  | readText (addr : UInt64) (next : List UInt8 → NativeAction)
  | call (code : UInt64) (args : List NativeArg) (next : NativeResult → NativeAction)

structure NativeFunction where
  params : List ArgClass
  run : List UInt64 → NativeAction

end LevelScript
