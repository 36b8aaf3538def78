import Ligo.AppendTree
import Ligo.AstTyped.Types
import Ligo.MiniC.Environment

/-!
# Types and access paths of the transpiler

Tuples and records become nested pairs, sums become nested unions, each laid out on the
append tree of the components. An access path in the source language becomes a path of
left and right steps in that tree.

Where the source folds a recursive call over a tree, the model first lists the results of
the calls and then folds the tree of that list, which has the same shape.
-/

namespace Ligo.Transpiler

open AstTyped
open MiniC (Step)

/-- `Append_tree.fold_ne` for functions that may fail; the exception that the source
raises on the empty tree is an error here. -/
def foldNe {α β : Type} (leaf : α → Result β) (node : β → β → Result β) :
    Option (AppendTree α) → Result β
  | none => simpleFail "Tree.Append.fold_ne"
  | some t => t.fold leaf fun a b => do
    let a ← a
    let b ← b
    node a b

/-- `translate_type` on a type constant, from the results for its arguments. -/
def translateTypeConstant (name : String) (lst : List (Result MiniC.TypeValue)) :
    Result MiniC.TypeValue :=
  match name, lst with
  | "bool", [] => .ok (.tBase .bool)
  | "int", [] => .ok (.tBase .int)
  | "nat", [] => .ok (.tBase .nat)
  | "tez", [] => .ok (.tBase .tez)
  | "string", [] => .ok (.tBase .string)
  | "address", [] => .ok (.tBase .address)
  | "unit", [] => .ok (.tBase .unit)
  | "operation", [] => .ok (.tBase .operation)
  | "contract", [x] => do
    let x' ← x
    return .tContract x'
  | "map", [key, value] => do
    let key' ← key
    let value' ← value
    return .tMap key' value'
  | "list", [t] => do
    let t' ← t
    return .tList t'
  | "option", [o] => do
    let o' ← o
    return .tOption o'
  | _, _ => simpleFail "unrecognized type constant"

mutual

def translateType : TypeValue → Result MiniC.TypeValue
  | .tConstant name lst => translateTypeConstant name (translateTypes lst)
  | .tSum m =>
    foldNe id (fun a b => .ok (.tOr a b)) (AppendTree.ofList (translateFieldTypes m))
  | .tRecord m =>
    foldNe id (fun a b => .ok (.tPair a b)) (AppendTree.ofList (translateFieldTypes m))
  | .tTuple lst =>
    foldNe id (fun a b => .ok (.tPair a b)) (AppendTree.ofList (translateTypes lst))
  | .tFunction param result => do
    let param' ← translateType param
    let result' ← translateType result
    return .tFunction param' result'

def translateTypes : List TypeValue → List (Result MiniC.TypeValue)
  | [] => []
  | t :: lst => translateType t :: translateTypes lst

def translateFieldTypes : List (String × TypeValue) → List (Result MiniC.TypeValue)
  | [] => []
  | (_, t) :: m => translateType t :: translateFieldTypes m

end

theorem translateTypes_eq (lst : List TypeValue) : translateTypes lst = lst.map translateType := by
  induction lst with
  | nil => rfl
  | cons t lst ih => rw [translateTypes, ih, List.map_cons]

theorem translateFieldTypes_eq (m : List (String × TypeValue)) :
    translateFieldTypes m = m.map fun x => translateType x.2 := by
  induction m with
  | nil => rfl
  | cons x m ih => rw [translateFieldTypes, ih, List.map_cons]

/-- `bind_map_smap translate_type`. -/
def translateTypeMap (m : List (String × TypeValue)) : Result (List (String × MiniC.TypeValue)) :=
  bindList (m.map fun x => do
    let t ← translateType x.2
    return (x.1, t))

/-! ### Access paths -/

/-- The steps of a path in an append tree. -/
def lrPath (path : List Bool) : List Step :=
  path.map fun b => if b then .right else .left

/-- One step of a path: the type that is reached, added at the end. -/
def accessStep (getPair : MiniC.TypeValue → Result (MiniC.TypeValue × MiniC.TypeValue))
    (x : MiniC.TypeValue × List (MiniC.TypeValue × Step)) (cur : Step) :
    Result (MiniC.TypeValue × List (MiniC.TypeValue × Step)) := do
  let (a, b) ← getPair x.1
  match cur with
  | .left => return (a, x.2 ++ [(a, .left)])
  | .right => return (b, x.2 ++ [(b, .right)])

def tupleAccessToLr (ty : MiniC.TypeValue) (tys : List MiniC.TypeValue) (ind : ℕ) :
    Result (List (MiniC.TypeValue × Step)) := do
  let nodeTv := AppendTree.ofList (tys.mapIdx fun i a => (i, a))
  let path ← traceOption "no leaf with given index"
    (nodeTv.bind fun t => t.existsPath fun x => x.1 == ind)
  let (_, lst) ← (lrPath path).foldlM
    (accessStep fun ty => traceStrong "expected a pair" (MiniC.getTPair ty)) (ty, [])
  return lst

def recordAccessToLr (ty : MiniC.TypeValue) (tym : List (String × MiniC.TypeValue))
    (ind : String) : Result (List (MiniC.TypeValue × Step)) := do
  let nodeTv := AppendTree.ofList tym
  let path ← traceOption "no leaf with given index"
    (nodeTv.bind fun t => t.existsPath fun x => x.1 == ind)
  let (_, lst) ← (lrPath path).foldlM (accessStep MiniC.getTPair) (ty, [])
  return lst

/-! ### Environments -/

/-- `tree_of_sum`. -/
def treeOfSum (t : TypeValue) : Result (Option (AppendTree (String × TypeValue))) := do
  let mapTv ← getTSum t
  return AppendTree.ofList mapTv

mutual

/-- The type of a variable: a function that was declared with free variables is a
closure over them. -/
def transpileEnvironmentElementType : EnvironmentElement → Result MiniC.TypeValue
  | .mk (.tFunction f arg) (.declaration (.mk _ _ environment) (x :: capturedVariables)) => do
    let f' ← translateType f
    let arg' ← translateType arg
    let env' ← transpileEnvironment environment
    let subEnv := MiniC.Environment.select (x :: capturedVariables) env'
    return .tDeepClosure subEnv f' arg'
  | .mk typeValue _ => translateType typeValue

/-- The bindings of a small environment, from the oldest to the newest. -/
def transpileSmallElements : List (String × EnvironmentElement) → Result MiniC.Environment
  | [] => .ok []
  | (name, ele) :: x => do
    let prec ← transpileSmallElements x
    let tv' ← transpileEnvironmentElementType ele
    return MiniC.Environment.add (name, tv') prec

def transpileSmallEnvironments :
    List (List (String × EnvironmentElement)) → Result (List MiniC.Environment)
  | [] => .ok []
  | x :: lst => do
    let x' ← trace "transpiling small environment" (transpileSmallElements x)
    let lst' ← transpileSmallEnvironments lst
    return x' :: lst'

def transpileEnvironment : FullEnvironment → Result MiniC.Environment
  | .mk hd tl => do
    let hd' ← trace "transpiling small environment" (transpileSmallElements hd)
    let tl' ← transpileSmallEnvironments tl
    return (hd' :: tl').flatten

end

end Ligo.Transpiler
