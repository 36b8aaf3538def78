import Ligo.Transpiler.Types

/-!
# From values back to typed expressions

`untranspile` reads a value of the intermediate language at a type of the source. It
rebuilds the append trees of sums, tuples and records from the type alone and walks the
value along them.
-/

namespace Ligo.Transpiler

open AstTyped
open MiniC (Value)

/-! ### Trees -/

variable {τ : Type}

/-- The constructor of an injected value, with what it injects. -/
def extractConstructor : AppendTree (String × τ) → Value → Result (String × Value × τ)
  | .leaf (k, t), v => .ok (k, v, t)
  | .node a _ _ _, .dLeft v => extractConstructor a v
  | .node _ b _ _, .dRight v => extractConstructor b v
  | .node .., _ => simpleFail "bad constructor path"

def extractTuple : AppendTree τ → Value → Result (List (Value × τ))
  | .leaf t, v => .ok [(v, t)]
  | .node a b _ _, .dPair va vb => do
    let a' ← extractTuple a va
    let b' ← extractTuple b vb
    return a' ++ b'
  | .node .., _ => simpleFail "bad tuple path"

def extractRecord : AppendTree (String × τ) → Value → Result (List (String × Value × τ))
  | .leaf (s, t), v => .ok [(s, v, t)]
  | .node a b _ _, .dPair va vb => do
    let a' ← extractRecord a va
    let b' ← extractRecord b vb
    return a' ++ b'
  | .node .., _ => simpleFail "bad record path"

/-! ### Leaves -/

def getUnit : Value → Result Unit
  | .dUnit => .ok ()
  | _ => simpleFail "not a unit"

def getBool : Value → Result Bool
  | .dBool b => .ok b
  | _ => simpleFail "not a bool"

def getInt : Value → Result OInt
  | .dInt n => .ok n
  | _ => simpleFail "not an int"

def getNat : Value → Result OInt
  | .dNat n => .ok n
  | _ => simpleFail "not a nat"

def getString : Value → Result String
  | .dString s => .ok s
  | _ => simpleFail "not a string"

def getOption : Value → Result (Option Value)
  | .dNone => .ok none
  | .dSome s => .ok (some s)
  | _ => simpleFail "not an option"

def getMap : Value → Result (List (Value × Value))
  | .dMap lst => .ok lst
  | _ => simpleFail "not a map"

def getList : Value → Result (List Value)
  | .dList lst => .ok lst
  | _ => simpleFail "not a list"

def getOperation : Value → Result (Michelson.Value Michelson.Node)
  | .dOperation op => .ok op
  | _ => simpleFail "not an operation"

/-! ### Values -/

/-- How to read a value at a type. -/
abbrev Reader := Value → Result AnnotatedExpression

/-- `map_of_kv_list`: the map of a list of bindings; the last binding of a key counts. -/
def mapOfKvList (lst : List (String × AnnotatedExpression)) :
    List (String × AnnotatedExpression) :=
  SortedMap.ofList lst

/-- `untranspile` at a type constant, from the readers of its arguments. -/
def untranspileConstant (name : String) (lst : List (TypeValue × Reader)) (v : Value) :
    Result AnnotatedExpression :=
  let return' (e : Expression) : Result AnnotatedExpression :=
    .ok (makeAEEmpty e (.tConstant name (lst.map Prod.fst)))
  match name, lst with
  | "unit", [] => do
    getUnit v
    return' (.eLiteral .unit)
  | "bool", [] => do
    let b ← getBool v
    return' (.eLiteral (.bool b))
  | "int", [] => do
    let n ← getInt v
    return' (.eLiteral (.int n))
  | "nat", [] => do
    let n ← getNat v
    return' (.eLiteral (.nat n))
  -- a value of this type is a natural number
  | "tez", [] => do
    let n ← getNat v
    return' (.eLiteral (.tez n))
  | "string", [] => do
    let n ← getString v
    return' (.eLiteral (.string n))
  | "address", [] => do
    let n ← getString v
    return' (.eLiteral (.address n))
  | "option", [(o, read)] => do
    match ← getOption v with
    | none => return eANone o Environment.fullEmpty
    | some s =>
      let s' ← read s
      return eASome s' Environment.fullEmpty
  | "map", [(_, readKey), (_, readValue)] => do
    let lst ← getMap v
    let lst' ← bindList (lst.map fun x => do
      let k' ← readKey x.1
      let v' ← readValue x.2
      return (k', v'))
    return' (.eMap lst')
  | "list", [(_, read)] => do
    let lst ← getList v
    let lst' ← bindList (lst.map read)
    return' (.eList lst')
  | "contract", [_] => simpleFail "can't untranspile contract"
  | "operation", [] => do
    let op ← getOperation v
    return' (.eLiteral (.operation op))
  | _, _ => simpleFail "unknown type_constant"

mutual

def untranspile : TypeValue → Reader
  | .tConstant name lst => untranspileConstant name (untranspileTypes lst)
  | .tSum m => fun v => do
    let node ← traceOption "empty sum type" (AppendTree.ofList (untranspileFields m))
    let (name, v, read) ← extractConstructor node v
    let sub ← read v
    return makeAEEmpty (.eConstructor name sub) (.tSum m)
  | .tTuple lst => fun v => do
    let node ← traceOption "empty tuple" (AppendTree.ofList (untranspileTypes lst))
    let tpl ← extractTuple node v
    let tpl' ← bindList (tpl.map fun x => x.2.2 x.1)
    return makeAEEmpty (.eTuple tpl') (.tTuple lst)
  | .tRecord m => fun v => do
    let node ← traceOption "empty record" (AppendTree.ofList (untranspileFields m))
    let lst ← extractRecord node v
    let lst' ← bindList (lst.map fun x => do
      let yz ← x.2.2 x.2.1
      return (x.1, yz))
    return makeAEEmpty (.eRecord (mapOfKvList lst')) (.tRecord m)
  | .tFunction .. => fun _ => simpleFail "no untranspilation for functions yet"

def untranspileTypes : List TypeValue → List (TypeValue × Reader)
  | [] => []
  | t :: lst => (t, untranspile t) :: untranspileTypes lst

def untranspileFields : List (String × TypeValue) → List (String × Reader)
  | [] => []
  | (k, t) :: m => (k, untranspile t) :: untranspileFields m

end

end Ligo.Transpiler
