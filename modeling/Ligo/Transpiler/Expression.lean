import Ligo.AstTyped.Misc
import Ligo.Transpiler.Types

/-!
# The transpiler

`translateAnnotatedExpression` takes typed expressions to expressions of the intermediate
language, `translateEntry` a program and the name of one of its declarations to a
function.

A list literal grows from the empty list, by one `CONS` for each element; tuples,
constructors and matches follow the append tree of their type. A lambda without free
variables becomes a quote; a lambda with free variables becomes the pair of a quote and
of the values that it captures, which the quote loads before anything else.
-/

namespace Ligo.Transpiler

open AstTyped
open MiniC (Step)
open Outcome (ok_bind)

def translateLiteral : Literal → MiniC.Value
  | .bool b => .dBool b
  | .int n => .dInt n
  | .nat n => .dNat n
  | .tez n => .dTez n
  | .bytes s => .dBytes s
  | .string s => .dString s
  | .address s => .dString s
  | .operation op => .dOperation op
  | .unit => .dUnit

/-! ### Helpers -/

/-- `ez_e_return`. -/
def ezEReturn (e : MiniC.Expression) : MiniC.Expression :=
  .mk (.eEnvironmentReturn e) e.typeValue

/-- `ez_e_sequence`. -/
def ezESequence (a : MiniC.Expression') (b : MiniC.Expression) : MiniC.Expression :=
  .mk (.eSequence (.mk a (.tBase .unit)) b) b.typeValue

def getTOption : MiniC.TypeValue → Result MiniC.TypeValue
  | .tOption t => .ok t
  | _ => simpleFail "not an option"

def getTList : MiniC.TypeValue → Result MiniC.TypeValue
  | .tList t => .ok t
  | _ => simpleFail "not a type list"

/-- Two components as a pair. -/
def pairNode (a b : MiniC.Expression) : Result MiniC.Expression :=
  .ok (.mk (.eConstant "PAIR" [a, b]) (.tPair a.typeValue b.typeValue))

/-- Read along a path of an append tree. -/
def accessNode (pred : MiniC.Expression) (x : MiniC.TypeValue × Step) : MiniC.Expression :=
  let c := match x.2 with
    | .left => "CAR"
    | .right => "CDR"
  .mk (.eConstant c [pred]) x.1

/-! ### Constructors -/

/-- The leaf of a constructor: the parameter, at the constructor that is built. -/
def constructorLeaf (m : String) (param : AnnotatedExpression) (param' : MiniC.Expression)
    (x : String × TypeValue) : Result (Option MiniC.Expression' × MiniC.TypeValue) :=
  if x.1 = m then do
    trace "constructor parameter doesn't have expected type (shouldn't happen here)"
      (assertTypeValueEq x.2 param.typeAnnot)
    return (some param'.content, param'.typeValue)
  else do
    let tv ← translateType x.2
    return (none, tv)

/-- The node above the constructor that is built injects it. -/
def constructorNode : Option MiniC.Expression' × MiniC.TypeValue →
    Option MiniC.Expression' × MiniC.TypeValue →
    Result (Option MiniC.Expression' × MiniC.TypeValue)
  | (none, a), (none, b) => .ok (none, .tOr a b)
  | (some _, _), (some _, _) =>
    simpleFail "several identical constructors in the same variant (shouldn't happen here)"
  | (some v, a), (none, b) => .ok (some (.eConstant "LEFT" [.mk v a]), .tOr a b)
  | (none, a), (some v, b) => .ok (some (.eConstant "RIGHT" [.mk v b]), .tOr a b)

/-! ### Matches -/

/-- The tree of a sum with the types of its nodes. -/
inductive MatchTree where
  | leaf (constructorName : String) (tv : MiniC.TypeValue)
  | node (a b : MatchTree) (tv : MiniC.TypeValue)

/-- The type of the sum below a node. -/
def MatchTree.tv : MatchTree → MiniC.TypeValue
  | leaf _ tv => tv
  | node _ _ tv => tv

def matchTree : AppendTree (String × TypeValue) → Result MatchTree
  | .leaf (name, tv) => do
    let tv' ← translateType tv
    return .leaf name tv'
  | .node a b _ _ => do
    let a' ← matchTree a
    let b' ← matchTree b
    return .node a' b' (.tOr a'.tv b'.tv)

/-- The nest of conditionals of a match on `top`; `lst` holds the clauses, and `ty` is the
type of the match. -/
def matchVariant (lst : List ((String × String) × Result MiniC.Expression))
    (ty : MiniC.TypeValue) (top : MiniC.Expression) : MatchTree → Result MiniC.Expression
  | .leaf constructorName tv => do
    let ((_, name), body) ← traceOption "not supposed to happen here: missing match clause"
      (lst.find? fun x => x.1.1 == constructorName)
    let body' ← body
    return .mk (.eLetIn (name, tv) top body') ty
  | .node a b tv => do
    let aTy ← MiniC.getTLeft tv
    let a' ← matchVariant lst ty (.mk (.eVariable "left") aTy) a
    let bTy ← MiniC.getTRight tv
    let b' ← matchVariant lst ty (.mk (.eVariable "right") bTy) b
    return .mk (.eIfLeft top ("left", aTy) a' ("right", bTy) b') ty

/-! ### Assignments -/

/-- One step of the path of an assignment, at a component of type `x.1`. -/
def assignStep (x : TypeValue × List Step) (cur : Access) : Result (TypeValue × List Step) := do
  let (prev, acc) := x
  let ty' ← translateType prev
  match cur with
  | .tuple ind =>
    let tyLst ← getTTuple prev
    let tyLst' ← bindList (translateTypes tyLst)
    let path ← tupleAccessToLr ty' tyLst' ind
    let ty ← traceOption "nth" tyLst[ind]?
    return (ty, acc ++ path.map Prod.snd)
  | .record prop =>
    let tyMap ← trace "accessing property on not a record" (getTRecord prev)
    let tyMap' ← translateTypeMap tyMap
    let path ← recordAccessToLr ty' tyMap' prop
    let ty ← traceOption "Not_found" (tyMap.lookup prop)
    return (ty, acc ++ path.map Prod.snd)
  | .map _ => simpleFail "no patch for map yet"

/-- The path of an assignment, resolved with `bind_fold_right_list`: the fold starts at
the last access. -/
def assignPath (ty : TypeValue) (path : List Access) : Result (TypeValue × List Step) :=
  path.reverse.foldlM assignStep (ty, [])

/-! ### Lambdas -/

/-- A lambda without free variables. -/
def translateQuote (binder : String) (inputType outputType : TypeValue)
    (result' : MiniC.Expression) : Result MiniC.Expression :=
  trace "translate quote" do
    let input ← translateType inputType
    let output ← translateType outputType
    let content := .dFunction (.mk binder input output (ezEReturn result'))
    return .mk (.eLiteral content) (.tFunction input output)

/-- A lambda that captures `fv` from `env`; `result` is its translated body. -/
def translateLambdaDeep (env : MiniC.Environment) (binder : String)
    (inputType outputType : TypeValue) (fv : List String) (result : Result MiniC.Expression) :
    Result MiniC.Expression := do
  let cEnv := MiniC.Environment.select fv env
  let cTv := MiniC.Environment.closureRepresentation cEnv
  let rawInput ← translateType inputType
  let initEnv := MiniC.Environment.add (binder, rawInput) cEnv
  let input := MiniC.Environment.closureRepresentation initEnv
  let output ← translateType outputType
  let result ← result
  let loadExpr := .mk (.eVariable binder) input
  let result := ezEReturn (ezESequence (.eEnvironmentLoad loadExpr initEnv) result)
  let fLiteral := .dFunction (.mk binder input output result)
  let fExpr := .mk (.eLiteral fLiteral) (.tFunction input output)
  let cExpr := .mk (.eEnvironmentCapture fv) cTv
  return .mk (MiniC.Expression.pair fExpr cExpr) (.tDeepClosure cEnv rawInput output)

/-! ### Expressions -/

mutual

def translateAnnotatedExpression : AnnotatedExpression → Result MiniC.Expression
  | .mk e typeAnnot environment => do
    let tv ← translateType typeAnnot
    translateExpression e typeAnnot environment tv

/-- `translateAnnotatedExpression` once the type is translated to `tv`. -/
def translateExpression :
    Expression → TypeValue → FullEnvironment → MiniC.TypeValue → Result MiniC.Expression
  | .eLetIn binder rhs result, _, _, tv => do
    let rhs' ← translateAnnotatedExpression rhs
    let result' ← translateAnnotatedExpression result
    return .mk (.eLetIn (binder, rhs'.typeValue) rhs' result') tv
  | .eFailwith ae, _, _, tv => do
    let ae' ← translateAnnotatedExpression ae
    return .mk (.eConstant "FAILWITH" [ae']) tv
  | .eLiteral l, _, _, tv => .ok (.mk (.eLiteral (translateLiteral l)) tv)
  | .eVariable name, _, environment, _ => do
    let ele ← traceOption "name not in environment" (Environment.getOpt name environment)
    let tv ← transpileEnvironmentElementType ele
    return .mk (.eVariable name) tv
  | .eApplication f arg, _, _, tv => do
    let f' ← translateAnnotatedExpression f
    let arg' ← translateAnnotatedExpression arg
    return .mk (.eApplication f' arg') tv
  | .eConstructor m param, typeAnnot, _, _ => do
    let param' ← translateAnnotatedExpression param
    let nodeTv ← treeOfSum typeAnnot
    let (aeOpt, tv) ← foldNe (constructorLeaf m param param') constructorNode nodeTv
    let ae ← traceOption
      "constructor doesn't exist in claimed type (shouldn't happen here)" aeOpt
    return .mk ae tv
  | .eTuple lst, _, _, _ => foldNe id pairNode (AppendTree.ofList (translateAll lst))
  | .eTupleAccessor tpl ind, _, _, _ => do
    let ty' ← translateType tpl.typeAnnot
    let tyLst ← getTTuple tpl.typeAnnot
    let tyLst' ← bindList (translateTypes tyLst)
    let path ← tupleAccessToLr ty' tyLst' ind
    let tpl' ← translateAnnotatedExpression tpl
    return path.foldl accessNode tpl'
  | .eRecord m, _, _, _ => foldNe id pairNode (AppendTree.ofList (translateFields m))
  | .eRecordAccessor record property, _, _, _ => do
    let ty' ← translateType record.typeAnnot
    let tySmap ← getTRecord record.typeAnnot
    let tySmap' ← translateTypeMap tySmap
    let path ← recordAccessToLr ty' tySmap' property
    let record' ← translateAnnotatedExpression record
    return path.foldl accessNode record'
  | .eConstant name lst, _, _, tv => do
    let lst' ← bindList (translateAll lst)
    match name, lst' with
    | "NONE", [] => do
      let o ← getTOption tv
      return .mk (.eMakeNone o) tv
    | _, _ => return .mk (.eConstant name lst') tv
  | .eLambda l, _, environment, _ => do
    let env ← transpileEnvironment environment
    translateLambda env l
  | .eList lst, _, _, tv => do
    let t ← getTList tv
    let lst' ← bindList (translateAll lst)
    return lst'.foldl (fun prev cur => .mk (.eConstant "CONS" [cur, prev]) tv)
      (.mk (.eMakeEmptyList t) tv)
  | .eMap m, _, _, tv => do
    let (src, dst) ← MiniC.getTMap tv
    let m' ← bindList (translateEntries m)
    return m'.foldl (fun prev x => .mk (.eConstant "UPDATE" [x.1, x.2, prev]) tv)
      (.mk (.eMakeEmptyMap src dst) tv)
  | .eLookUp ds i, _, _, tv => do
    let ds' ← translateAnnotatedExpression ds
    let i' ← translateAnnotatedExpression i
    return .mk (.eConstant "MAP_GET" [i', ds']) tv
  | .eSequence a b, _, _, tv => do
    let a' ← translateAnnotatedExpression a
    let b' ← translateAnnotatedExpression b
    return .mk (.eSequence a' b') tv
  | .eLoop expr body, _, _, tv => do
    let expr' ← translateAnnotatedExpression expr
    let body' ← translateAnnotatedExpression body
    return .mk (.eWhile expr' body') tv
  | .eAssign typedName path expr, _, _, tv => do
    let (_, path) ← assignPath typedName.typeValue path
    let expr' ← translateAnnotatedExpression expr
    return .mk (.eAssignment typedName.typeName path expr') tv
  | .eMatching expr m, _, _, tv => do
    let expr' ← translateAnnotatedExpression expr
    translateMatching expr' tv m

def translateMatching (expr' : MiniC.Expression) (tv : MiniC.TypeValue) :
    MatchingExpr → Result MiniC.Expression
  | .matchBool matchTrue matchFalse => do
    let t ← translateAnnotatedExpression matchTrue
    let f ← translateAnnotatedExpression matchFalse
    return .mk (.eIfBool expr' t f) tv
  | .matchOption matchNone name ty matchSome => do
    let n ← translateAnnotatedExpression matchNone
    let ty' ← translateType ty
    let s' ← translateAnnotatedExpression matchSome
    return .mk (.eIfNone expr' n (name, ty') s') tv
  | .matchVariant lst variant => do
    let tree ← treeOfSum variant
    let tree' ← traceOption "match empty variant" tree
    let tree'' ← matchTree tree'
    matchVariant (translateCases lst) tv expr' tree''
  | .matchList .. | .matchTuple .. =>
    simpleFail "only match bool, option and variants are translated yet"

def translateLambda (env : MiniC.Environment) : Lambda → Result MiniC.Expression
  | .mk binder inputType outputType result =>
    match FreeVariables.annotatedExpression [binder] result with
    | [] => do
      let result' ← translateAnnotatedExpression result
      translateQuote binder inputType outputType result'
    | fvs => trace "translate lambda deep"
      (translateLambdaDeep env binder inputType outputType fvs
        (translateAnnotatedExpression result))

def translateAll : List AnnotatedExpression → List (Result MiniC.Expression)
  | [] => []
  | ae :: lst => translateAnnotatedExpression ae :: translateAll lst

def translateFields : List (String × AnnotatedExpression) → List (Result MiniC.Expression)
  | [] => []
  | (_, ae) :: m => translateAnnotatedExpression ae :: translateFields m

/-- The keys with the values wrapped in a `SOME` (see `translate_eASome`). -/
def translateEntries : List (AnnotatedExpression × AnnotatedExpression) →
    List (Result (MiniC.Expression × MiniC.Expression))
  | [] => []
  | (k, v) :: m =>
    (do
      let k' ← translateAnnotatedExpression k
      let tv ← translateType (tOption v.typeAnnot)
      let v' ← translateAnnotatedExpression v
      return (k', .mk (.eConstant "SOME" [v']) tv)) :: translateEntries m

def translateCases : List ((String × String) × AnnotatedExpression) →
    List ((String × String) × Result MiniC.Expression)
  | [] => []
  | (c, body) :: lst => (c, translateAnnotatedExpression body) :: translateCases lst

end

theorem translateAll_eq (lst : List AnnotatedExpression) :
    translateAll lst = lst.map translateAnnotatedExpression := by
  induction lst with
  | nil => rfl
  | cons ae lst ih => rw [translateAll, ih, List.map_cons]

theorem translateFields_eq (m : List (String × AnnotatedExpression)) :
    translateFields m = m.map fun x => translateAnnotatedExpression x.2 := by
  induction m with
  | nil => rfl
  | cons x m ih => rw [translateFields, ih, List.map_cons]

theorem translateCases_eq (lst : List ((String × String) × AnnotatedExpression)) :
    translateCases lst = lst.map fun x => (x.1, translateAnnotatedExpression x.2) := by
  induction lst with
  | nil => rfl
  | cons x lst ih => rw [translateCases, ih, List.map_cons]

theorem translateEntries_eq (m : List (AnnotatedExpression × AnnotatedExpression)) :
    translateEntries m = m.map fun x => do
      let k' ← translateAnnotatedExpression x.1
      let tv ← translateType (tOption x.2.typeAnnot)
      let v' ← translateAnnotatedExpression x.2
      return (k', .mk (.eConstant "SOME" [v']) tv) := by
  induction m with
  | nil => rfl
  | cons x m ih => rw [translateEntries, ih, List.map_cons]

/-- The type of an expression is translated before the expression. -/
theorem translate_mk {e : Expression} {t : TypeValue} {aenv : FullEnvironment}
    {σ : MiniC.TypeValue} (hσ : translateType t = .ok σ) :
    translateAnnotatedExpression (.mk e t aenv) = translateExpression e t aenv σ := by
  rw [translateAnnotatedExpression, hσ]
  rfl

/-- A lambda without free variables becomes a function literal. -/
theorem translateLambda_quote {env : MiniC.Environment} {b : String} {i o : TypeValue}
    {r : AnnotatedExpression} {ι ω : MiniC.TypeValue} {e : MiniC.Expression}
    (hfree : FreeVariables.annotatedExpression [b] r = [])
    (hr : translateAnnotatedExpression r = .ok e) (hι : translateType i = .ok ι)
    (hω : translateType o = .ok ω) :
    translateLambda env (.mk b i o r) =
      .ok (.mk (.eLiteral (.dFunction (.mk b ι ω (ezEReturn e)))) (.tFunction ι ω)) := by
  rw [translateLambda, hfree]
  simp only [hr, ok_bind]
  rw [translateQuote, hι, hω]
  rfl

/-- An accessor of a tuple becomes the accessors along the path to the component. -/
theorem translate_eTupleAccessor {tpl : AnnotatedExpression} {ind : ℕ} {tys : List TypeValue}
    {tys' : List MiniC.TypeValue} {τ tv : MiniC.TypeValue} {path : List (MiniC.TypeValue × Step)}
    {tpl' : MiniC.Expression} {t : TypeValue} {aenv : FullEnvironment}
    (htpl : tpl.typeAnnot = .tTuple tys) (hτ : translateType (.tTuple tys) = .ok τ)
    (htys : bindList (translateTypes tys) = .ok tys')
    (hpath : tupleAccessToLr τ tys' ind = .ok path)
    (htpl' : translateAnnotatedExpression tpl = .ok tpl') :
    translateExpression (.eTupleAccessor tpl ind) t aenv tv = .ok (path.foldl accessNode tpl') := by
  have hget : getTTuple (.tTuple tys) = .ok tys := rfl
  rw [translateExpression, htpl, hτ, ok_bind, hget, ok_bind, htys, ok_bind, hpath, htpl']
  rfl

theorem translate_eRecordAccessor {record : AnnotatedExpression} {property : String}
    {m : List (String × TypeValue)} {m' : List (String × MiniC.TypeValue)}
    {τ tv : MiniC.TypeValue} {path : List (MiniC.TypeValue × Step)} {record' : MiniC.Expression}
    {t : TypeValue} {aenv : FullEnvironment}
    (hrecord : record.typeAnnot = .tRecord m) (hτ : translateType (.tRecord m) = .ok τ)
    (hm : translateTypeMap m = .ok m') (hpath : recordAccessToLr τ m' property = .ok path)
    (hrecord' : translateAnnotatedExpression record = .ok record') :
    translateExpression (.eRecordAccessor record property) t aenv tv =
      .ok (path.foldl accessNode record') := by
  have hget : getTRecord (.tRecord m) = .ok m := rfl
  rw [translateExpression, hrecord, hτ, ok_bind, hget, ok_bind, hm, ok_bind, hpath, hrecord']
  rfl

/-- A match on a sum becomes the nest of conditionals over the tree of the sum. -/
theorem translate_eMatching {ae : AnnotatedExpression}
    {lst : List ((String × String) × AnnotatedExpression)} {m : List (String × TypeValue)}
    {t : TypeValue} {aenv : FullEnvironment} {tree : AppendTree (String × TypeValue)}
    {tree' : MatchTree} {tv : MiniC.TypeValue} {top r : MiniC.Expression}
    (htv : translateType t = .ok tv) (htop : translateAnnotatedExpression ae = .ok top)
    (htree : AppendTree.ofList m = some tree) (htree' : matchTree tree = .ok tree')
    (hr : matchVariant (translateCases lst) tv top tree' = .ok r) :
    translateAnnotatedExpression (.mk (.eMatching ae (.matchVariant lst (.tSum m))) t aenv) =
      .ok r := by
  have hnode : treeOfSum (.tSum m) = .ok (some tree) := congrArg Except.ok htree
  have hsome : traceOption "match empty variant" (some tree) = .ok tree := rfl
  rw [translate_mk htv, translateExpression, htop, ok_bind, translateMatching, hnode, ok_bind,
    hsome, ok_bind, htree', ok_bind, hr]

/-- The translation of a value wrapped in a `SOME`. -/
theorem translate_eASome (v : AnnotatedExpression) (env : FullEnvironment) :
    translateAnnotatedExpression (eASome v env) = do
      let tv ← translateType (tOption v.typeAnnot)
      let v' ← translateAnnotatedExpression v
      return .mk (.eConstant "SOME" [v']) tv := by
  rw [eASome, translateAnnotatedExpression]
  refine congrArg _ (funext fun tv => ?_)
  rw [translateExpression, translateAll, translateAll]
  cases translateAnnotatedExpression v <;> rfl

/-- A binding of a map literal: the key and the value under `e_a_some`. -/
theorem translateEntries_cons (k v : AnnotatedExpression) (env : FullEnvironment)
    (m : List (AnnotatedExpression × AnnotatedExpression)) :
    translateEntries ((k, v) :: m) =
      (do
        let k' ← translateAnnotatedExpression k
        let v' ← translateAnnotatedExpression (eASome v env)
        return (k', v')) :: translateEntries m := by
  rw [translateEntries, translate_eASome]
  simp only [bind_assoc, pure_bind]

/-! ### Entry points -/

def translateMain (l : Lambda) : Result MiniC.AnonFunction := do
  let expr ← translateLambda [] l
  match expr.content with
  | .eLiteral (.dFunction f) => .ok f
  | _ => simpleFail "main is not a function"

/-- A lambda without free variables is an entry point. -/
theorem translateMain_eq {b : String} {i o : TypeValue} {r : AnnotatedExpression}
    {ι ω : MiniC.TypeValue} {e : MiniC.Expression}
    (hfree : FreeVariables.annotatedExpression [b] r = [])
    (hr : translateAnnotatedExpression r = .ok e) (hι : translateType i = .ok ι)
    (hω : translateType o = .ok ω) :
    translateMain (.mk b i o r) = .ok (.mk b ι ω (ezEReturn e)) := by
  rw [translateMain, translateLambda_quote hfree hr hι hω]
  rfl

/-- The function of a unit argument that returns `e`. -/
def functionalize (e : AnnotatedExpression) : Lambda :=
  .mk "_" tUnit e.typeAnnot e

/-- The lambda of an entry point, with `acc` around its body. -/
def entryLambda (acc : AnnotatedExpression → AnnotatedExpression) (ae : AnnotatedExpression) :
    Lambda :=
  match ae.expression with
  | .eLambda (.mk binder inputType outputType result) =>
    .mk binder inputType outputType (acc result)
  | _ =>
    match functionalize ae with
    | .mk binder inputType outputType result => .mk binder inputType outputType (acc result)

/-- Walk the declarations; `acc` binds the ones before around a body. -/
def translateEntryAux (name : String) (acc : AnnotatedExpression → AnnotatedExpression) :
    Program → Result MiniC.AnonFunction
  | [] => simpleFail "no entry point with given name"
  | an :: tl =>
    if an.name = name then
      translateMain (entryLambda acc an.annotatedExpression)
    else
      translateEntryAux name
        (fun expr => acc (eALetIn an.name an.annotatedExpression expr an.preEnvironment)) tl

def translateEntry (lst : Program) (name : String) : Result MiniC.AnonFunction :=
  translateEntryAux name (fun x => x) lst

end Ligo.Transpiler
