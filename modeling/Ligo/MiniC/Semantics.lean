import Ligo.Library.Scope
import Ligo.Compiler.Type

/-!
# Reference semantics of the intermediate language

A big-step evaluator over environments of values (`Scope`). A variable denotes its
newest binding, an assignment updates the newest binding at a path, the arguments of
a constant are evaluated from the last to the first, a function is evaluated before
its argument, and what a `let` or a branch binds is dropped at its end.

The evaluator is generic in the representation `F` of functions: `quote` says which
token stands for a function literal and `apply` what a call does. `applyQuote d` ties
the knot for the functions of the language themselves, for `d` nested calls, with at
most as many rounds of a loop as there are levels left; `Evaluates` says that some
depth suffices.

The nodes `E_environment_…` are the ones the transpiler puts in the bodies of
functions: a closure packs the bindings it captures into nested pairs
(`packValues`) and its body loads them again (`unpackValues`).
-/

namespace Ligo.MiniC

open Michelson (Context Outcome Ty stuck)
open Outcome (ok_bind)

/-- Environments of values. -/
abbrev Env (F : Type) := List (String × Michelson.Value F)

section Generic

variable (ctx : Context) {F : Type}

/-! ### Literals -/

theorem toNat_lt_of_mutez {z : Int} (h : 0 ≤ z ∧ z.toNat < 2 ^ 63) : z.toNat < 2 ^ 63 :=
  h.2

/-- An integer literal at a comparable type. -/
def denoteInt (z : Int) : Michelson.ComparableTy → Option (Michelson.Value F)
  | .int => some (.int z)
  | .nat => if 0 ≤ z then some (.nat z.toNat) else none
  | .mutez =>
    if h : 0 ≤ z ∧ z.toNat < 2 ^ 63 then some (.mutez ⟨z.toNat, toNat_lt_of_mutez h⟩) else none
  | _ => none

/-- A contract handle, when a contract with that parameter exists there. -/
def denoteContract (t : Ty) (a : Michelson.Address) : Option (Michelson.Value F) :=
  if ctx.contractTy a = some t then some (.contract t a) else none

variable (quote : AnonFunction → Option F)

mutual

/-- The value of a literal at a type. -/
def denote : Ty → Value → Option (Michelson.Value F)
  | .unit, .dUnit => some .unit
  | .comparable .bool, .dBool b => some (.bool b)
  | .comparable c, .dInt n | .comparable c, .dNat n | .comparable c, .dTez n =>
    denoteInt n.val c
  | .comparable .string, .dString s =>
    if Michelson.printableAscii s then some (.string s) else none
  | .comparable .address, .dString s => (ctx.ofB58check s).map .address
  | .contract t, .dString s => (ctx.ofB58check s).bind (denoteContract ctx t)
  | .comparable .bytes, .dBytes b => some (.atom (.bytes b))
  | .comparable .address, .dBytes b => (ctx.ofBytes b).map .address
  | .contract t, .dBytes b => (ctx.ofBytes b).bind (denoteContract ctx t)
  | .pair s t, .dPair a b => do return .pair (← denote s a) (← denote t b)
  | .or s _, .dLeft a => do return .left (← denote s a)
  | .or _ t, .dRight b => do return .right (← denote t b)
  | .option t, .dSome a => do return .some (← denote t a)
  | .option _, .dNone => some .none
  | .list t, .dList lst => do return .list (← denoteList t lst)
  | .map k t, .dMap lst => do
    let entries ← denoteEntries k t lst
    if SortedMap.Sorted entries then some (.map entries) else none
  -- an empty sequence is the empty list as well as the empty map
  | .list _, .dMap [] => some (.list [])
  | .map _ _, .dList [] => some (.map [])
  | .lambda _ _, .dFunction f => (quote f).map .lambda
  | _, _ => none

def denoteList : Ty → List Value → Option (List (Michelson.Value F))
  | _, [] => some []
  | t, v :: lst => do return (← denote t v) :: (← denoteList t lst)

def denoteEntries : Michelson.ComparableTy → Ty → List (Value × Value) →
    Option (List (Michelson.Atom × Michelson.Value F))
  | _, _, [] => some []
  | k, t, (a, b) :: lst =>
    match denote (.comparable k) a with
    | some (.atom a) => do return (a, ← denote t b) :: (← denoteEntries k t lst)
    | _ => none

end

/-! ### Constants -/

/-- The content of an option, or a failure with a message. -/
def assertSome (msg : String) : Michelson.Value F → Outcome F (Michelson.Value F)
  | .some v => .ok v
  | .none => .error (.failed (.string msg))
  | _ => stuck

/-- The constants without arguments. -/
@[simp] def constant0 : String → Outcome F (Michelson.Value F)
  | "UNIT" => .ok .unit
  | "AMOUNT" => .ok (.mutez ctx.amount)
  | "SOURCE" => .ok (.address ctx.payer)
  | "SENDER" => .ok (.address ctx.source)
  | _ => stuck

/-- The constants of one argument; `ty` is the type of the result. -/
@[simp] def constant1 (ty : TypeValue) (name : String) (a : Michelson.Value F) :
    Outcome F (Michelson.Value F) :=
  match name with
  | "NEG" => a.atom1 Michelson.Atom.neg
  | "CAR" => a.car
  | "CDR" => a.cdr
  | "SOME" => .ok (.some a)
  | "SIZE" => a.size
  | "FAILWITH" => .error (.failed a)
  | "INT" => a.atom1 Michelson.Atom.toInt
  | "ABS" => a.atom1 Michelson.Atom.abs
  | "LEFT" => .ok (.left a)
  | "RIGHT" => .ok (.right a)
  | "CONTRACT" =>
    match CompilerType.Ty.type_ ty with
    | .ok (.contract t) =>
      a.toContract ctx t >>= assertSome "bad address for get_contract"
    | _ => stuck
  | _ => stuck

/-- A comparison followed by a test of its result. -/
def compareWith (p : Int → Bool) (a b : Michelson.Value F) : Outcome F (Michelson.Value F) :=
  a.atom2 Michelson.Atom.compare b >>= fun c => c.atom1 (Michelson.Atom.test p)

/-- The constants of two arguments. -/
@[simp] def constant2 (name : String) (a b : Michelson.Value F) : Outcome F (Michelson.Value F) :=
  match name with
  | "ADD" => a.atom2 Michelson.Atom.add b
  | "SUB" => a.atom2 Michelson.Atom.sub b
  | "TIMES" => a.atom2 Michelson.Atom.mul b
  | "DIV" => a.ediv b >>= assertSome "DIV by 0" >>= Michelson.Value.car
  | "MOD" => a.ediv b >>= assertSome "MOD by 0" >>= Michelson.Value.cdr
  | "OR" => a.atom2 Michelson.Atom.or b
  | "AND" => a.atom2 Michelson.Atom.and b
  | "PAIR" => .ok (.pair a b)
  | "EQ" => compareWith (· == 0) a b
  | "NEQ" => compareWith (· != 0) a b
  | "LT" => compareWith (decide <| · < 0) a b
  | "LE" => compareWith (decide <| · ≤ 0) a b
  | "GT" => compareWith (decide <| · > 0) a b
  | "GE" => compareWith (decide <| · ≥ 0) a b
  | "MAP_GET_FORCE" => a.get b >>= assertSome "GET_FORCE"
  | "MAP_GET" => a.get b
  | "MAP_REMOVE" => a.update .none b
  | "CONS" => a.cons b
  | "ASSERT" =>
    match a with
    | .bool c => if c then .error (.failed b) else .ok .unit
    | _ => stuck
  | _ => stuck

/-- The constants of three arguments. -/
@[simp] def constant3 (name : String) (a b c : Michelson.Value F) : Outcome F (Michelson.Value F) :=
  match name with
  | "UPDATE" => a.update b c
  | "MAP_UPDATE" => a.update (.some b) c
  | "CALL" => a.transfer b c
  | _ => stuck

/-- The value of a constant on its arguments. -/
def constant (ty : TypeValue) (name : String) :
    List (Michelson.Value F) → Outcome F (Michelson.Value F)
  | [] => constant0 ctx name
  | [a] => constant1 ctx ty name a
  | [a, b] => constant2 name a b
  | [a, b, c] => constant3 name a b c
  | _ => stuck

/-! ### Paths and closures -/

/-- Replace the component at a path. -/
def updatePath (v : Michelson.Value F) :
    List Step → Michelson.Value F → Outcome F (Michelson.Value F)
  | [], _ => .ok v
  | .left :: lrs, .pair a b => do return .pair (← updatePath v lrs a) b
  | .right :: lrs, .pair a b => do return .pair a (← updatePath v lrs b)
  | _, _ => stuck

/-- The captured values as one value, nested to the right. -/
def packValues : List (Michelson.Value F) → Outcome F (Michelson.Value F)
  | [] => stuck
  | [a] => .ok a
  | a :: b => do return .pair a (← packValues b)

/-- Bind the names of an environment to the components of a packed value. -/
def unpackValues : Environment → Michelson.Value F → Outcome F (Env F)
  | [], _ => stuck
  | [(x, _)], v => .ok [(x, v)]
  | (x, _) :: env, .pair a b => do return (x, a) :: (← unpackValues env b)
  | _, _ => stuck

/-! ### Expressions -/

variable (apply : F → Michelson.Value F → Outcome F (Michelson.Value F)) (rounds : ℕ)

/-- Apply a value that is a function. -/
def applyValue (v arg : Michelson.Value F) : Outcome F (Michelson.Value F) :=
  match v with
  | .lambda f => apply f arg
  | _ => stuck

/-- Apply a function together with the values it has captured. -/
def applyClosure (v arg : Michelson.Value F) : Outcome F (Michelson.Value F) :=
  match v with
  | .pair f captured => applyValue apply f (.pair arg captured)
  | _ => stuck

/-- The value of the condition of a loop. -/
def asBool (r : Michelson.Value F × Env F) : Outcome F (Bool × Env F) :=
  match r.1 with
  | .bool b => .ok (b, r.2)
  | _ => stuck

mutual

def eval : Expression → Env F → Outcome F (Michelson.Value F × Env F)
  | .mk expr' ty, ρ => eval' expr' ty ρ

def eval' : Expression' → TypeValue → Env F → Outcome F (Michelson.Value F × Env F)
  | .eSkip, _, ρ => .ok (.unit, ρ)
  | .eLiteral v, ty, ρ =>
    match CompilerType.Ty.type_ ty with
    | .ok t =>
      match denote ctx quote t v with
      | some w => .ok (w, ρ)
      | none => stuck
    | .error _ => stuck
  | .eVariable x, _, ρ =>
    match Scope.lookup x ρ with
    | some v => .ok (v, ρ)
    | none => stuck
  | .eConstant name lst, ty, ρ => do
    let (vs, ρ) ← evalArguments lst ρ
    let v ← constant ctx ty name vs
    return (v, ρ)
  | .eApplication f arg, _, ρ =>
    match f.typeValue with
    | .tFunction .. => do
      let (v, ρ) ← eval f ρ
      let (w, ρ) ← eval arg ρ
      let u ← applyValue apply v w
      return (u, ρ)
    | .tDeepClosure .. => do
      let (w, ρ) ← eval arg ρ
      let (v, ρ) ← eval f ρ
      let u ← applyClosure apply v w
      return (u, ρ)
    | _ => stuck
  | .eMakeEmptyMap _ _, _, ρ => .ok (.map [], ρ)
  | .eMakeEmptyList _, _, ρ => .ok (.list [], ρ)
  | .eMakeNone _, _, ρ => .ok (.none, ρ)
  | .eIfBool c a b, _, ρ => do
    let (v, ρ) ← eval c ρ
    match v with
    | .bool t => if t then eval a ρ else eval b ρ
    | _ => stuck
  | .eIfNone c n ntv s, _, ρ => do
    let (v, ρ) ← eval c ρ
    match v with
    | .none => eval n ρ
    | .some w => do
      let (u, ρ) ← eval s ((ntv.1, w) :: ρ)
      return (u, ρ.tail)
    | _ => stuck
  | .eIfLeft c lNtv l rNtv r, _, ρ => do
    let (v, ρ) ← eval c ρ
    match v with
    | .left w => do
      let (u, ρ) ← eval l ((lNtv.1, w) :: ρ)
      return (u, ρ.tail)
    | .right w => do
      let (u, ρ) ← eval r ((rNtv.1, w) :: ρ)
      return (u, ρ.tail)
    | _ => stuck
  | .eLetIn v expr body, _, ρ => do
    let (w, ρ) ← eval expr ρ
    let (u, ρ) ← eval body ((v.1, w) :: ρ)
    return (u, ρ.tail)
  | .eSequence a b, _, ρ => do
    let (_, ρ) ← eval a ρ
    eval b ρ
  | .eAssignment name lrs expr, _, ρ => do
    let (v, ρ) ← eval expr ρ
    match Scope.lookup name ρ with
    | some old => do
      let new ← updatePath v lrs old
      return (.unit, Scope.assign name new ρ)
    | none => stuck
  | .eWhile expr block, _, ρ => do
    let r ← eval expr ρ
    let ρ ← Fuel.iterate asBool
      (fun ρ => do
        let (_, ρ) ← eval block ρ
        eval expr ρ) .timeout rounds r
    return (.unit, ρ)
  | .eEnvironmentCapture selector, _, ρ => do
    let v ← packValues (Scope.vals (Environment.select selector ρ))
    return (v, ρ)
  | .eEnvironmentLoad expr env, _, ρ => do
    let (v, _) ← eval expr ρ
    let ρ ← unpackValues env v
    return (.unit, ρ)
  | .eEnvironmentSelect env, _, ρ =>
    .ok (.unit, Environment.select (Environment.getNames env) ρ)
  | .eEnvironmentReturn expr, _, ρ => do
    let (v, _) ← eval expr ρ
    return (v, [])

/-- The arguments of a constant, from the last one to the first. -/
def evalArguments : List Expression → Env F → Outcome F (List (Michelson.Value F) × Env F)
  | [], ρ => .ok ([], ρ)
  | e :: lst, ρ => do
    let (vs, ρ) ← evalArguments lst ρ
    let (v, ρ) ← eval e ρ
    return (v :: vs, ρ)

end

section Constants

variable {ctx quote apply rounds} {ρ ρ₁ ρ₂ : Env F}

/-- The first argument is evaluated last. -/
theorem evalArguments_cons {e : Expression} {lst : List Expression} {v : Michelson.Value F}
    {vs : List (Michelson.Value F)}
    (hlst : evalArguments ctx quote apply rounds lst ρ = .ok (vs, ρ₁))
    (he : eval ctx quote apply rounds e ρ₁ = .ok (v, ρ₂)) :
    evalArguments ctx quote apply rounds (e :: lst) ρ = .ok (v :: vs, ρ₂) := by
  change (evalArguments ctx quote apply rounds lst ρ >>= _) = _
  rw [hlst, ok_bind]
  change (eval ctx quote apply rounds e ρ₁ >>= _) = _
  rw [he, ok_bind]
  rfl

theorem evalArguments_singleton {e : Expression} {v : Michelson.Value F}
    (he : eval ctx quote apply rounds e ρ = .ok (v, ρ₁)) :
    evalArguments ctx quote apply rounds [e] ρ = .ok ([v], ρ₁) := by
  have hnil : evalArguments ctx quote apply rounds [] ρ = .ok ([], ρ) := rfl
  exact evalArguments_cons hnil he

/-- A constant is applied to the values of its arguments. -/
theorem eval_eConstant {name : String} {lst : List Expression} {ty : TypeValue}
    {v : Michelson.Value F} {vs : List (Michelson.Value F)}
    (hlst : evalArguments ctx quote apply rounds lst ρ = .ok (vs, ρ₁))
    (hv : constant ctx ty name vs = .ok v) :
    eval ctx quote apply rounds (.mk (.eConstant name lst) ty) ρ = .ok (v, ρ₁) := by
  change (evalArguments ctx quote apply rounds lst ρ >>= _) = _
  rw [hlst, ok_bind]
  change (constant ctx ty name vs >>= _) = _
  rw [hv, ok_bind]
  rfl

end Constants

end Generic

/-! ### The functions of the language -/

section Quotes

variable (ctx : Context)

/-- Call a function when `d` levels are left. -/
def applyQuote : ℕ → AnonFunction → Michelson.Value AnonFunction →
    Outcome AnonFunction (Michelson.Value AnonFunction)
  | 0, _, _ => .error .timeout
  | d + 1, f, v => do
    return (← eval ctx some (applyQuote d) d f.result [(f.binder, v)]).1

/-- Evaluate at depth `d`. -/
def evalAt (d : ℕ) (e : Expression) (ρ : Env AnonFunction) :
    Outcome AnonFunction (Michelson.Value AnonFunction × Env AnonFunction) :=
  eval ctx some (applyQuote ctx d) d e ρ

/-- The expression has the value `v` and leaves the environment `ρ'`. -/
def Evaluates (e : Expression) (ρ : Env AnonFunction) (v : Michelson.Value AnonFunction)
    (ρ' : Env AnonFunction) : Prop :=
  ∃ d, evalAt ctx d e ρ = .ok (v, ρ')

end Quotes

end Ligo.MiniC
