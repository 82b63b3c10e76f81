import LevelScript.Decimal.Digits
import LevelScript.Memory
import LevelScript.Native.Action
import LevelScript.Text.Escape
import LevelScript.Text.Utf8

/-!
# A native library

Functions and data that scripts can reach by their names: printing, arithmetic in all argument
classes, and functions that call back into scripts.
-/

namespace LevelScript

namespace Library

open NativeAction

def returnInt (bits : UInt64) : NativeAction := done { int := bits }

def returnFloat (x : Float) : NativeAction := done { float := x.toBits }

def double (bits : UInt64) : Float := Float.ofBits bits

def signed (bits : UInt64) : Float := bits.toInt64.toFloat

def signed32 (bits : UInt64) : Float := bits.toUInt32.toInt32.toFloat

def single (bits : UInt64) : Float32 := Float32.ofBits bits.toUInt32

def floatText (bits : UInt64) : String :=
  match Double.ofBits bits with
  | .nan => "nan"
  | _ => hexPadded 16 bits.toNat

def sumFrom (term : Float → Float → Float) (xs : List Float) : Float :=
  (xs.foldl (fun (total, k) x => (total + term k x, k + 1.0)) (0.0, (1.0 : Float))).1

/-- Integers and floats in turn, numbered from one. -/
def sumPairs (total k : Float) : List UInt64 → Float
  | a :: b :: more =>
    sumPairs (total + (signed a * k + double b * k * 1000.0)) (k + 1.0) more
  | _ => total

/-- Calls `code` with `0`, `1`, … up to `count - 1`. -/
def repeatCall (code : UInt64) (i : UInt64) : Nat → NativeAction
  | 0 => done {}
  | n + 1 => call code [.int i] fun _ => repeatCall code (i + 1) n

def dataBase : UInt64 := 0x010000000000

/-- Where the arguments of a variadic callback are put. -/
def varargBlock : UInt64 := dataBase + 0x100

/-- A block of tagged arguments: one integer, one float, one integer, end. -/
def withVarargs (next : NativeAction) : NativeAction :=
  let entries : List (UInt64 × UInt64) :=
    [(1, 1), (2, (2.5 : Float).toBits), (1, (-3 : Int64).toUInt64), (0, 0)]
  let words := entries.flatMap fun (tag, value) => [tag, value]
  (words.zipIdx.foldr (fun (w, i) next => write (varargBlock + 8 * i.toUInt64) w next) next)

def weigh (a b c d : Float) : Float := a + 10.0 * b + 100.0 * c + 1000.0 * d

/-- A function of given parameter classes; it is never run with fewer arguments. -/
def function (params : List ArgClass) (run : List UInt64 → NativeAction) : NativeFunction :=
  { params, run }

open ArgClass in
def functions : List (String × NativeFunction) :=
  [ ("print_int", function [int] fun
      | [v] => print ("i:" ++ toString v.toInt64.toInt) (done {})
      | _ => done {}),
    ("print_float", function [float] fun
      | [v] => print ("f:" ++ floatText v) (done {})
      | _ => done {}),
    ("print_str", function [int] fun
      | [v] => if v = 0 then print "s:(null)" (done {})
        else readText v fun bs => print ("s:" ++ Text.ofBytesLossy bs) (done {})
      | _ => done {}),
    ("h_twice", function [int] fun
      | [x] => returnInt (2 * x)
      | _ => done {}),
    ("h_mix", function [int, float, int, float] fun
      | [a, b, c, d] => returnFloat (weigh (signed a) (double b) (signed32 c) (single d).toFloat)
      | _ => done {}),
    ("h_sum8", function (List.replicate 8 int) fun args =>
      returnInt (args.zipIdx.foldl (fun total (x, i) => total + (i.toUInt64 + 1) * x) 0)),
    ("h_fsum10", function (List.replicate 10 float) fun args =>
      returnFloat (sumFrom (fun k x => x * k) (args.map double))),
    ("h_inter", function (List.flatten (List.replicate 9 [int, float])) fun args =>
      returnFloat (sumPairs 0.0 1.0 args)),
    ("h_half", function [float] fun
      | [x] => done { float := (single x * 0.5).toBits.toUInt64 }
      | _ => done {}),
    ("h_wide", function [] fun _ => returnInt 0xFFFFFFFF80008180),
    ("h_var", function [int, float, int, float] fun
      | [a, b, c, d] => returnFloat (weigh (signed a) (double b) (signed c) (double d))
      | _ => done {}),
    ("h_apply", function [int, int] fun
      | [f, x] => call f [.int x] fun r => returnInt r.int
      | _ => done {}),
    ("h_apply_mix", function [int, int, float] fun
      | [f, a, b] => call f [.int a, .float64 b] fun r => done { float := r.float }
      | _ => done {}),
    ("h_apply_f32", function [int, float] fun
      | [f, x] => call f [.float32 x.toUInt32] fun r => done { float := r.float &&& 0xFFFFFFFF }
      | _ => done {}),
    ("h_repeat", function [int, int] fun
      | [f, n] => repeatCall f 0 n.toInt64.toInt.toNat
      | _ => done {}),
    ("h_varcall", function [int] fun
      | [f] => withVarargs (call f [.int 7, .int varargBlock] fun r => returnInt r.int)
      | _ => done {}),
    ("h_varnull", function [int] fun
      | [f] => call f [.int 7, .int 0] fun r => returnInt r.int
      | _ => done {}),
    ("h_read_at", function [int] fun
      | [addr] => read addr returnInt
      | _ => done {}),
    ("h_call_then_read", function [int, int] fun
      | [f, addr] => call f [.int 1] fun _ => read addr returnInt
      | _ => done {}) ]

open ArgClass in
/-- The C functions that can be reached if the process's own symbols can. -/
def processFunctions : List (String × NativeFunction) :=
  [ ("strlen", function [int] fun
      | [s] => readText s fun bs => returnInt bs.length.toUInt64
      | _ => done {}),
    ("abs", function [int] fun
      | [x] =>
        let n := x.toUInt32.toInt32
        returnInt (if n < 0 then -n else n).toUInt32.toUInt64
      | _ => done {}),
    ("toupper", function [int] fun
      | [c] =>
        let n := c.toUInt32
        returnInt (if 97 ≤ n ∧ n ≤ 122 then n - 32 else n).toUInt64
      | _ => done {}) ]

/-- Where the code of the functions starts; each takes sixteen bytes. -/
def codeBase : UInt64 := 0x020000000000

def codeAddress (index : Nat) : UInt64 := codeBase + 16 * index.toUInt64

def nameText : UInt64 := dataBase + 0x80

/-- The data by name and address. -/
def data : List (String × UInt64) :=
  [ ("h_counter", dataBase), ("h_ratio", dataBase + 8), ("h_name", dataBase + 16),
    ("h_small", dataBase + 24) ]

/-- The words that the data starts with. -/
def dataWords : List (UInt64 × UInt64) :=
  [ (dataBase, 7), (dataBase + 8, (2.5 : Float).toBits), (dataBase + 16, nameText),
    (dataBase + 24, 0xFE) ]

def memory : Memory :=
  let m := dataWords.foldl (fun (m : Memory) (addr, bits) => m.write addr 8 bits) {}
  m.writeAll nameText (Text.toBytesNul "host")

end Library

end LevelScript
