import Ligo.Compiler.Environment
import Ligo.Operators

/-!
# Code generation

`translateExpression` compiles an expression of the intermediate language in an
environment to Michelson code, and answers the environment of the stack the code
leaves. That stack carries the value of the expression on top, under the name
`_tmp_expression`. Every node ends in `finish`, the `return` of the source, which
asks the checker to confirm the stack types.

`E_constant` compiles its arguments from the last one to the first, each in the
environment the previous ones left, so that the first argument ends up on top.
-/

namespace Ligo.CompilerProgram

open MiniC Michelson Operators

variable (ctx : Michelson.Context)

/-- The code of a constant; the injections, `MAP_REMOVE` and `CONTRACT` depend on
the types at hand. -/
def getPredicate (s : String) (ty : TypeValue) (lst : List Expression) :
    Result Predicate :=
  match predicates s with
  | some x => .ok x
  | none =>
    match s with
    | "MAP_REMOVE" => do
      let v ← (match lst with
        | [_, expr] => (getTMap expr.typeValue).map Prod.snd
        | _ => simpleFail "mini_c . MAP_REMOVE" : Result TypeValue)
      let vTy ← CompilerType.type_ v
      return .binary (seq [dip (iNone vTy), prim .iUpdate []])
    | "LEFT" => do
      let r ← (match lst with
        | [_] => getTRight ty
        | _ => simpleFail "mini_c . LEFT" : Result TypeValue)
      let rTy ← CompilerType.type_ r
      return .unary (prim .iLeft [rTy])
    | "RIGHT" => do
      let l ← (match lst with
        | [_] => getTLeft ty
        | _ => simpleFail "mini_c . RIGHT" : Result TypeValue)
      let lTy ← CompilerType.type_ l
      return .unary (prim .iRight [lTy])
    | "CONTRACT" => do
      let r ← (match lst with
        | [_] => getTContract ty
        | _ => simpleFail "mini_c . CONTRACT" : Result TypeValue)
      let rTy ← CompilerType.type_ r
      return .unary (seq [prim .iContract [rTy],
        iAssertSomeMsg (iPushString "bad address for get_contract")])
    | _ => simpleFail "predicate doesn't exist"

/-- The code of a constant with its arity checked. -/
def applyPredicate (predicate : Predicate) (arity : ℕ) (preCode : Node) : Result Node :=
  match predicate, arity with
  | .constant c, 0 => .ok (seq [preCode, c])
  | .unary f, 1 => .ok (seq [preCode, f])
  | .binary f, 2 => .ok (seq [preCode, f])
  | .ternary f, 3 => .ok (seq [preCode, f])
  | _, _ => simpleFail "bad arity"

/-- The `return` of `translate_expression`: check that `code` takes the stack of
`env` to the stack of `env'`. -/
def finish (env : Environment) (ty : TypeValue) (env' : Environment) (code : Node) :
    Result (Node × Environment) := do
  let inputStackTy ← CompilerType.Ty.environment env
  let _ ← CompilerType.type_ ty
  let outputStackTy ← CompilerType.Ty.environment env'
  CompilerEnvironment.check ctx "error parsing expression code" code inputStackTy outputStackTy
  return (code, env')

/-- The environment with the value of an expression of type `ty` on top. -/
def tmp (ty : TypeValue) (env : Environment) : Environment :=
  Environment.add (Environment.tmpName, ty) env

/-- The update of the component at a path: the new value is on top of the old
one. -/
def modifyCode (lrs : List Step) : Node :=
  foldRight' (fun acc step =>
    match step with
    | .left => seq [dip iUnpair, acc, iPair]
    | .right => seq [dip iUnpiar, acc, iPiar]) (dip iDrop) lrs

mutual

def translateValue : Value → Result Node
  | .dBool b => .ok (prim (if b then .dTrue else .dFalse) [])
  | .dInt n => .ok (.int n.val)
  | .dNat n => .ok (.int n.val)
  | .dTez n => .ok (.int n.val)
  | .dString s => .ok (.string s)
  | .dBytes s => .ok (.bytes s)
  | .dUnit => .ok (prim .dUnit [])
  | .dPair a b => do
    let a ← translateValue a
    let b ← translateValue b
    return prim .dPair [a, b]
  | .dLeft a => do return prim .dLeft [← translateValue a]
  | .dRight b => do return prim .dRight [← translateValue b]
  -- this is `translateFunction anon`
  | .dFunction anon => do return seq [← translateQuoteBody anon]
  | .dNone => .ok (prim .dNone [])
  | .dSome s => do return prim .dSome [← translateValue s]
  | .dMap lst => do return seq (← translateEntries lst)
  | .dList lst => do return seq (← translateValues lst)
  | .dOperation _ => simpleFail "can't compile an operation"

def translateValues : List Value → Result (List Node)
  | [] => .ok []
  | v :: lst => do
    let v ← translateValue v
    let lst ← translateValues lst
    return v :: lst

def translateEntries : List (Value × Value) → Result (List Node)
  | [] => .ok []
  | (a, b) :: lst => do
    let a ← translateValue a
    let b ← translateValue b
    let lst ← translateEntries lst
    return prim .dElt [a, b] :: lst

def translateExpression : Expression → Environment → Result (Node × Environment)
  | .mk expr' ty, env =>
    trace "compiling expression" (translateExpression' expr' ty env)

/-- `translateExpression` on an expression of type `ty`. -/
def translateExpression' :
    Expression' → TypeValue → Environment → Result (Node × Environment)
  | .eSkip, ty, env => finish ctx env ty (tmp ty env) iPushUnit
  | .eEnvironmentCapture c, ty, env => do
    let code ← CompilerEnvironment.packSelect ctx env c
    finish ctx env ty (tmp ty env) code
  | .eEnvironmentLoad expr loadEnv, ty, env => do
    let (expr', _) ← translateExpression expr env
    let clear ← CompilerEnvironment.select ctx env []
    let unpack ← CompilerEnvironment.unpack ctx loadEnv
    finish ctx env ty (tmp ty loadEnv) (seq [expr', dip clear, unpack, iPushUnit])
  | .eEnvironmentSelect subEnv, ty, env => do
    let code ← CompilerEnvironment.selectEnv ctx env subEnv
    finish ctx env ty (tmp ty subEnv) (seq [code, iPushUnit])
  | .eEnvironmentReturn expr, ty, env => do
    let (expr', env') ← translateExpression expr env
    let (code, clearedEnv) ← CompilerEnvironment.clear ctx env'
    finish ctx env ty clearedEnv (seq [expr', code])
  | .eLiteral v, ty, env => do
    let v ← translateValue v
    let t ← CompilerType.type_ ty
    finish ctx env ty (tmp ty env) (iPush t v)
  | .eApplication f arg, ty, env =>
    match f.typeValue with
    | .tFunction .. => trace "Compiling quote application" do
      let (f, env') ← translateExpression f env
      let (arg, _) ← translateExpression arg env'
      finish ctx env ty (tmp ty env) (seq [
        iComment "quote application",
        iComment "get f",
        f,
        iComment "get arg",
        arg,
        iExec])
    | .tDeepClosure smallEnv inputTy _ => trace "Compiling deep closure application" do
      let (arg', env') ← translateExpression arg env
      let (f', _) ← translateExpression f env'
      let _ ← CompilerType.type_ f.typeValue
      let appendClosure ← CompilerEnvironment.addPackedAnon ctx smallEnv inputTy
      trace "michelson type-checking closure application" <|
        finish ctx env ty (tmp ty env) (seq [
          iComment "closure application",
          iComment "arg",
          arg',
          iComment "f'",
          f', iUnpair,
          iComment "append",
          dip (seq [iSwap, appendClosure]),
          iComment "exec",
          iSwap, iExec])
    | _ => simpleFail "E_applicationing something not appliable"
  | .eVariable x, ty, env => do
    let code ← CompilerEnvironment.get ctx env x
    finish ctx env ty (tmp ty env) code
  | .eSequence a b, ty, env => do
    let (a', envA) ← translateExpression a env
    let envA' ← CompilerEnvironment.pop envA
    let (b', envB) ← translateExpression b envA'
    finish ctx env ty envB (seq [a', iDrop, b'])
  | .eConstant str lst, ty, env => do
    let (_, lst') ← translateArguments lst env
    let predicate ← getPredicate str ty lst
    let preCode := seq lst'.reverse
    let code ← applyPredicate predicate lst.length preCode
    trace "error compiling constant" (finish ctx env ty (tmp ty env) code)
  | .eMakeEmptyMap src dst, ty, env => do
    let src ← CompilerType.type_ src
    let dst ← CompilerType.type_ dst
    finish ctx env ty (tmp ty env) (iEmptyMap src dst)
  | .eMakeEmptyList t, ty, env => do
    let t' ← CompilerType.type_ t
    finish ctx env ty (tmp ty env) (iNil t')
  | .eMakeNone o, ty, env => do
    let o' ← CompilerType.type_ o
    finish ctx env ty (tmp ty env) (iNone o')
  | .eIfBool c a b, ty, env => do
    let (c', env') ← translateExpression c env
    let popped ← CompilerEnvironment.pop env'
    let (a', _) ← translateExpression a popped
    let (b', _) ← translateExpression b popped
    finish ctx env ty (tmp ty env) (seq [c', iIf a' b'])
  | .eIfNone c n ntv s, ty, env => do
    let (c', env') ← translateExpression c env
    let popped ← CompilerEnvironment.pop env'
    let (n', _) ← translateExpression n popped
    let sEnv := Environment.add ntv popped
    let (s', sEnv') ← translateExpression s sEnv
    let popped' ← CompilerEnvironment.pop sEnv'
    let restrictS ← CompilerEnvironment.selectEnv ctx popped' popped
    finish ctx env ty (tmp ty env) (seq [c', iIfNone n' (seq [s', dip restrictS])])
  | .eIfLeft c lNtv l rNtv r, ty, env => do
    let (c', _) ← translateExpression c env
    let lEnv := Environment.add lNtv env
    let (l', _) ← translateExpression l lEnv
    let rEnv := Environment.add rNtv env
    let (r', _) ← translateExpression r rEnv
    let restrictL ← CompilerEnvironment.selectEnv ctx lEnv env
    let restrictR ← CompilerEnvironment.selectEnv ctx rEnv env
    finish ctx env ty (tmp ty env) (seq [
      c',
      iIfLeft
        (seq [l', iComment "restrict left", dip restrictL])
        (seq [r', iComment "restrict right", dip restrictR])])
  | .eLetIn v expr body, ty, env => do
    let (expr', exprEnv) ← translateExpression expr env
    let popped ← CompilerEnvironment.pop exprEnv
    let env' := Environment.add v popped
    let (body', bodyEnv) ← translateExpression body env'
    let popped ← CompilerEnvironment.pop bodyEnv
    let restrict ← CompilerEnvironment.selectEnv ctx popped env
    finish ctx env ty (tmp ty env)
      (seq [expr', body', iComment "restrict let", dip restrict])
  | .eAssignment name lrs expr, ty, env => do
    let (expr', env') ← translateExpression expr env
    let getCode ← CompilerEnvironment.get ctx env' name
    let setCode ← CompilerEnvironment.set ctx env name
    trace "michelson type-checking patch" <| finish ctx env ty (tmp ty env) (seq [
      iComment "assign: start # env",
      expr',
      iComment "assign: compute rhs # rhs : env",
      getCode,
      iComment "assign: get name # name : rhs : env",
      iSwap,
      iComment "assign: swap # rhs : name : env",
      modifyCode lrs,
      iComment "assign: modify code # name+rhs : env",
      setCode,
      iComment "assign: set new # new_env",
      iPushUnit])
  | .eWhile expr block, ty, env => do
    let (expr', env') ← translateExpression expr env
    let popped ← CompilerEnvironment.pop env'
    let (block', env'') ← translateExpression block popped
    let restrictBlock ← CompilerEnvironment.selectEnv ctx env'' popped
    finish ctx env ty (tmp ty env) (seq [
      expr',
      prim .iLoop [seq [block', restrictBlock, expr']],
      iPushUnit])

/-- The arguments of a constant, from the last one to the first. -/
def translateArguments : List Expression → Environment → Result (Environment × List Node)
  | [], env => .ok (env, [])
  | expr :: lst, env => do
    let (env', lst') ← translateArguments lst env
    let (code, env'') ← translateExpression expr env'
    return (env'', code :: lst')

def translateQuoteBody : AnonFunction → Result Node
  | .mk binder input output result => do
    let env := Environment.add (binder, input) []
    let (expr, _) ← translateExpression result env
    let code := seq [iComment "function result", expr]
    let inputTy ← CompilerType.Ty.type_ input
    let outputTy ← CompilerType.Ty.type_ output
    CompilerEnvironment.check ctx "error parsing quote code" code [inputTy] [outputTy]
    return code

end

def translateFunction (content : AnonFunction) : Result Node := do
  let body ← translateQuoteBody ctx content
  return seq [body]

/-- A function with its Michelson types. -/
structure CompiledProgram where
  input : Ty
  output : Ty
  body : Node

def translateEntry (p : AnonFunction) : Result CompiledProgram := do
  let body ← trace "compile entry body" (translateQuoteBody ctx p)
  let input ← CompilerType.Ty.type_ p.input
  let output ← CompilerType.Ty.type_ p.output
  return { input, output, body }

def translateContract (f : AnonFunction) : Result Node := do
  let compiledProgram ← translateEntry ctx f
  let (paramTy, storageTy) ← getTPair f.input
  let paramMichelson ← CompilerType.type_ paramTy
  let storageMichelson ← CompilerType.type_ storageTy
  return contract paramMichelson storageMichelson compiledProgram.body

/-! ### Equations -/

variable {ctx}

/-- The message that is added to an error does not matter for success. -/
theorem translateExpression_mk_eq_ok {e' : Expression'} {ty : TypeValue} {env : Environment}
    {r : Node × Environment} :
    translateExpression ctx (.mk e' ty) env = .ok r ↔
      translateExpression' ctx e' ty env = .ok r := by
  rw [translateExpression, trace_eq_ok]

theorem translateExpression'_eSkip {ty : TypeValue} {env : Environment} :
    translateExpression' ctx .eSkip ty env = finish ctx env ty (tmp ty env) iPushUnit := by
  rw [translateExpression']

end Ligo.CompilerProgram
