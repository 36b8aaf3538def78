import Ligo.Compiler.Literal

/-!
# Reading the results of a run

`Uncompiler.translateValue` turns a typed Michelson value back into a value of the
intermediate language. Amounts come back as natural numbers, addresses as strings;
functions, contract handles and bytes have no way back.

A list is meant to be folded twice, which would keep its order. The first fold has its
list and its accumulator in each other's place, so that it returns the list as it is, and
what is left is one reversal.
-/

namespace Ligo

/-- `Int64.to_int`: the low 63 bits. -/
def OInt.wrap (m : Michelson.Mutez) : OInt :=
  if h : m.val < 2 ^ 62 then ⟨m.val, by omega, by omega⟩
  else ⟨m.val - 2 ^ 63, by omega, by have := m.isLt; omega⟩

namespace Uncompiler

open Michelson

variable (ctx : Michelson.Context)

/-- `translateValue` at a comparable type. -/
def translateAtom : ComparableTy → Atom → Result MiniC.Value
  | .int, .int z => do return .dInt (← traceOption "too big to fit an int" (OInt.ofInt z))
  | .nat, .nat n => do return .dNat (← traceOption "too big to fit an int" (OInt.ofInt n))
  | .mutez, .mutez m => .ok (.dNat (OInt.wrap m))
  | .bool, .bool b => .ok (.dBool b)
  | .string, .string s => .ok (.dString s)
  | .address, .address a => .ok (.dString (ctx.toB58check a))
  | _, _ => simpleFail "this value can't be transpiled back yet"

mutual

def translateValue : Ty → Michelson.Value Node → Result MiniC.Value
  | .pair s t, .pair a b => do return .dPair (← translateValue s a) (← translateValue t b)
  | .or s _, .left a => do return .dLeft (← translateValue s a)
  | .or _ t, .right b => do return .dRight (← translateValue t b)
  | .comparable c, .atom a => translateAtom ctx c a
  | .unit, .unit => .ok .dUnit
  | .option _, .none => .ok .dNone
  | .option t, .some a => do return .dSome (← translateValue t a)
  | .map k t, .map m => do return .dMap (← translateEntries k t m)
  | .list t, .list vs => do return .dList (← translateReversed t vs)
  | .operation, op => .ok (.dOperation op)
  | _, _ => simpleFail "this value can't be transpiled back yet"

/-- The elements of a list from the last one to the first. -/
def translateReversed : Ty → List (Michelson.Value Node) → Result (List MiniC.Value)
  | _, [] => .ok []
  | t, v :: vs => do
    let tl ← translateReversed t vs
    let hd ← translateValue t v
    return tl ++ [hd]

def translateEntries : ComparableTy → Ty → List (Atom × Michelson.Value Node) →
    Result (List (MiniC.Value × MiniC.Value))
  | _, _, [] => .ok []
  | k, t, (a, v) :: m => do
    let k' ← translateAtom ctx k a
    let v' ← translateValue t v
    let m' ← translateEntries k t m
    return (k', v') :: m'

end

end Uncompiler

end Ligo
