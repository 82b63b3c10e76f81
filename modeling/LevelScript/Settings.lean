/-!
# Settings

Limits of the machine, and what it reports.
-/

namespace LevelScript

structure Settings where
  maxFrames : Nat := 1024
  maxStack : Nat := 4096
  dumpBytecode : Bool := false
  logCaughtErrors : Bool := true
  deriving Repr, DecidableEq, Inhabited

end LevelScript
