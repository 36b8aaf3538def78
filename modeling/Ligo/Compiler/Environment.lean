import Ligo.Compiler.Type

/-!
# Code that moves the environment

The values of the environment lie on the stack, newest on top. Each generator of
this file builds its code from the environment (`getCode`, `selectCode`, …) and
then asks the type checker whether the code does to the stack what it should.
`select` and `packSelect` walk the environment from the oldest binding, so the code
for a binding wraps the code for the older ones in a `DIP`.
-/

namespace Ligo.CompilerEnvironment

open MiniC Michelson

variable (ctx : Michelson.Context)

/-- Ask the checker; a refusal is an error with that title. -/
def check (title : String) (code : Node) (bef aft : StackTy) : Result Unit :=
  if parseMichelson ctx code bef aft then .ok () else simpleFail title

/-! ### Reading and writing -/

/-- Copy the value at a position to the top. -/
def getCode : ℕ → Node
  | 0 => iDup
  | n + 1 => seq [dip (getCode n), iSwap]

def get (e : Environment) (s : String) : Result Node := do
  let (typeValue, position) ← traceOption "Environment.get" (assocI s e)
  let code := getCode position
  let inputStackTy ← CompilerType.Ty.environment e
  let ty ← CompilerType.Ty.type_ typeValue
  check ctx "error producing Env.get" code inputStackTy (ty :: inputStackTy)
  return code

/-- Move the value on top to a position. -/
def setCode : ℕ → Node
  | 0 => dip iDrop
  | n + 1 => seq [iSwap, dip (setCode n)]

def set (e : Environment) (s : String) : Result Node := do
  let (typeValue, position) ← traceOption "Environment.get" (assocI s e)
  let code := setCode position
  let envStackTy ← CompilerType.Ty.environment e
  let ty ← CompilerType.Ty.type_ typeValue
  check ctx "error producing Env.set" code (ty :: envStackTy) envStackTy
  return code

/-! ### Selecting -/

/-- Drop the bindings that are not kept. -/
def selectCode (eLst : List ((String × TypeValue) × Bool)) : Node :=
  foldRight' (fun code x => if x.2 then dip code else seq [dip code, iDrop]) (seq []) eLst

def select (e : Environment) (lst : List String) : Result Node := do
  let eLst := Environment.selected lst e
  let code := selectCode eLst
  let inputStackTy ← CompilerType.Ty.environment e
  let outputStackTy ← CompilerType.Ty.environment ((eLst.filter Prod.snd).map Prod.fst)
  check ctx "error producing Env.select" code inputStackTy outputStackTy
  return code

def selectEnv (source filter : Environment) : Result Node :=
  select ctx source (Environment.getNames filter)

/-- Keep one binding of the newest name. -/
def clear (e : Environment) : Result (Node × Environment) := do
  let firstName ← traceOption "try to clear empty env" (Environment.getNames e)[0]?
  let code ← select ctx e [firstName]
  return (code, Environment.select [firstName] e)

/-! ### Packing -/

/-- Pair the whole environment up. -/
def packCode (e : Environment) : Node := seq (e.tail.map fun _ => iPair)

def pack (e : Environment) : Result Node := do
  traceStrong "pack empty env" (assertTrue (e.length != 0))
  let code := packCode e
  let inputStackTy ← CompilerType.Ty.environment e
  let outputTy ← CompilerType.Ty.type_ (Environment.closureRepresentation e)
  check ctx "error producing Env.pack" code inputStackTy [outputTy]
  return code

/-- Unpair `n` times, each time the right component of the pair before. -/
def unpackCode : ℕ → Node
  | 0 => seq []
  | n + 1 => seq [iUnpair, dip (unpackCode n)]

def unpack (e : Environment) : Result Node := do
  traceStrong "unpack empty env" (assertTrue (e.length != 0))
  let code := unpackCode (e.length - 1)
  let outputStackTy ← CompilerType.Ty.environment e
  let inputTy ← CompilerType.Ty.type_ (Environment.closureRepresentation e)
  check ctx "error producing Env.unpack" code [inputTy] outputStackTy
  return code

/-- One binding of `packSelectCode`: the flag says that nothing has been kept
yet. -/
def packSelectStep (acc : Bool × Node) (x : (String × TypeValue) × Bool) : Bool × Node :=
  match x.2 with
  | false => (acc.1, seq [dip acc.2, iSwap])
  | true => (false,
      match acc.1 with
      | true => iDup
      | false => seq [dip acc.2, iDup, dip iPair, iSwap])

/-- Copy the bindings that are kept into a pair on top. -/
def packSelectCode (eLst : List ((String × TypeValue) × Bool)) : Node :=
  (foldRight' packSelectStep (true, seq []) eLst).2

def packSelect (e : Environment) (lst : List String) : Result Node := do
  let eLst := Environment.selected lst e
  let code := packSelectCode eLst
  let inputStackTy ← CompilerType.Ty.environment e
  let outputTy ←
    CompilerType.Ty.environmentRepresentation ((eLst.filter Prod.snd).map Prod.fst)
  check ctx "error producing Env.pack_select" code inputStackTy (outputTy :: inputStackTy)
  return code

def addPackedCode : Node := seq [iPair]

/-- Pair an argument with the captured values. -/
def addPackedAnon (e : Environment) (typeValue : TypeValue) : Result Node := do
  let code := addPackedCode
  let inputTy ← CompilerType.Ty.environmentRepresentation e
  let outputTy ← CompilerType.Ty.environmentRepresentation
    (Environment.add ("_add_packed_anon", typeValue) e)
  let ty ← CompilerType.Ty.type_ typeValue
  check ctx "error producing add packed" code [ty, inputTy] [outputTy]
  return code

def pop : Environment → Result Environment
  | [] => simpleFail "pop empty env"
  | _ :: tl => .ok tl

end Ligo.CompilerEnvironment
