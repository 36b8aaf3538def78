import Ligo.AstSimplified.Types
import Ligo.Operators.Typer
import Ligo.Typer.Environment

/-!
# The type checker

`typeExpression` takes a simplified expression to a typed one, with the type that is
expected of it if there is one; `evaluateType` takes a type of the program to a type value.
A `failwith` has a type in the true branch of a match on a boolean only, where the match
becomes an assertion.
-/

namespace Ligo.Typer

open AstTyped
open AstSimplified (TypeExpression)

/-! ### Types -/

mutual

def evaluateType (e : Environment) : TypeExpression → Result TypeValue
  | .tFunction a b => do
    let a' ← evaluateType e a
    let b' ← evaluateType e b
    return .tFunction a' b'
  | .tTuple lst => do
    let lst' ← evaluateTypes e lst
    return .tTuple lst'
  | .tSum m => do
    let m' ← evaluateTypeMap e m
    return .tSum m'
  | .tRecord m => do
    let m' ← evaluateTypeMap e m
    return .tRecord m'
  | .tVariable name => traceOption "unbound type variable" (Environment.getTypeOpt name e)
  | .tConstant cst lst => do
    let lst' ← evaluateTypes e lst
    return .tConstant cst lst'

def evaluateTypes (e : Environment) : List TypeExpression → Result (List TypeValue)
  | [] => .ok []
  | t :: lst => do
    let t' ← evaluateType e t
    let lst' ← evaluateTypes e lst
    return t' :: lst'

def evaluateTypeMap (e : Environment) :
    List (String × TypeExpression) → Result (List (String × TypeValue))
  | [] => .ok []
  | (k, t) :: m => do
    let t' ← evaluateType e t
    let m' ← evaluateTypeMap e m
    return (k, t') :: m'

end

/-- `bind_map_option`. -/
def bindMapOption {α β : Type} (f : α → Result β) : Option α → Result (Option β)
  | none => .ok none
  | some a => do
    let b ← f a
    return some b

/-! ### Helpers -/

def getTBool : TypeValue → Result Unit
  | .tConstant "bool" [] => .ok ()
  | _ => simpleFail "not a bool"

def getTUnit : TypeValue → Result Unit
  | .tConstant "unit" [] => .ok ()
  | _ => simpleFail "not a unit"

def getTOption : TypeValue → Result TypeValue
  | .tConstant "option" [o] => .ok o
  | _ => simpleFail "not a option"

def getTMapKey (t : TypeValue) : Result TypeValue := do
  let (key, _) ← getTMap t
  return key

def getTMapValue (t : TypeValue) : Result TypeValue := do
  let (_, value) ← getTMap t
  return value

/-- `merge_annotation`. -/
def mergeAnnotated : Option TypeValue → Option TypeValue → Result TypeValue
  | none, none => simpleFail "no annotation"
  | some a, none => .ok a
  | none, some b => .ok b
  | some a, some b => do
    assertTypeValueEq a b
    return a

/-- `return`: a typed expression of the type that is expected, if there is one. -/
def annotate (e : Environment) (tvOpt : Option TypeValue) (expr : Expression)
    (tv : TypeValue) : Result AnnotatedExpression :=
  match tvOpt with
  | none => .ok (.mk expr tv e.elements)
  | some tv' => do
    assertTypeValueEq tv' tv
    return .mk expr tv e.elements

/-- The types of a list of elements: all of them are the first one. -/
def sameType (opt : Option TypeValue) (c : TypeValue) : Result (Option TypeValue) :=
  match opt with
  | none => .ok (some c)
  | some c' => do
    assertTypeValueEq c c'
    return some c'

/-- The types of the branches of a match: each of them is the one before. -/
def sameBranch (prec : Option TypeValue) (cur : TypeValue) : Result (Option TypeValue) :=
  match prec with
  | none => .ok (some cur)
  | some cur' => do
    assertTypeValueEq cur cur'
    return some cur

/-- `merge_annotation` of the annotation of a map and of the types of its keys or values. -/
def entryType (getT : TypeValue → Result TypeValue) (tvOpt : Option TypeValue)
    (tys : List TypeValue) : Result TypeValue := do
  let sub ← tys.foldlM sameType none
  let annot ← bindMapOption getT tvOpt
  trace "untyped empty map expression" (mergeAnnotated annot sub)

/-- The type of a literal; a string that is expected to be an address is one. -/
def typeLiteral (tvOpt : Option TypeValue) : Literal → Literal × TypeValue
  | .bool b => (.bool b, tBool)
  | .unit => (.unit, tUnit)
  | .string s =>
    match tvOpt with
    | some (.tConstant "address" []) => (.address s, tAddress)
    | _ => (.string s, tString)
  | .bytes s => (.bytes s, tBytes)
  | .int n => (.int n, tInt)
  | .nat n => (.nat n, tNat)
  | .tez n => (.tez n, tTez)
  | .address s => (.address s, tAddress)
  | .operation op => (.operation op, tOperation)

/-- `Access_tuple` in an accessor; the type that is expected of the whole accessor is
expected of every step. -/
def accessTuple (e : Environment) (tvOpt : Option TypeValue) (prev : AnnotatedExpression)
    (index : ℤ) : Result AnnotatedExpression := do
  let tplTv ← getTTuple prev.typeAnnot
  let tv ← traceOption "bad tuple index" (nth tplTv index)
  annotate e tvOpt (.eTupleAccessor prev index.toNat) tv

/-- `Access_record` in an accessor. -/
def accessRecord (e : Environment) (tvOpt : Option TypeValue) (prev : AnnotatedExpression)
    (property : String) : Result AnnotatedExpression := do
  let rTv ← getTRecord prev.typeAnnot
  let tv ← traceOption "bad record index" (rTv.lookup property)
  annotate e tvOpt (.eRecordAccessor prev property) tv

/-- One step of the path of an assignment. -/
def assignStep (x : TypeValue × List AstTyped.Access) (cur : AstSimplified.Access) :
    Result (TypeValue × List AstTyped.Access) := do
  match cur with
  | .tuple index =>
    let tpl ← getTTuple x.1
    let tv' ← traceOption "tuple too small" (nth tpl index)
    return (tv', x.2 ++ [.tuple index.toNat])
  | .record property =>
    let m ← getTRecord x.1
    let tv' ← traceOption "tuple too small" (m.lookup property)
    return (tv', x.2 ++ [.record property])
  | .map _ => simpleFail "no assign expressions with maps yet"

/-- The path of an assignment and the type that it leads to. -/
def assignPath (tv : TypeValue) (path : List AstSimplified.Access) :
    Result (TypeValue × List AstTyped.Access) :=
  path.foldlM assignStep (tv, [])

/-- The sum that owns the constructors of a match. -/
def variantStep (e : Environment) (acc : Option TypeValue) (constructorName : String) :
    Result (Option TypeValue) := do
  let (_, variant) ← traceOption "bad constructor" (Environment.getConstructor constructorName e)
  match acc with
  | none => return some variant
  | some variant' =>
    assertTypeValueEq variant variant'
    return some variant

/-- Every constructor of the sum has a clause, and there are as many clauses. -/
def assertCases (variant : TypeValue) (matchCases : List String) : Result Unit := do
  let variantCases ← getTSum variant
  trace "missing case match"
    (variantCases.reverse.forM fun c => assertTrue (matchCases.contains c.1))
  traceStrong "redundant case match"
    (assertTrue (variantCases.length == matchCases.length))

/-- The sum that a match on variants is on. -/
def matchedVariant (e : Environment) (matchCases : List String) : Result TypeValue := do
  let variantOpt ← trace "in match variant" (matchCases.foldlM (variantStep e) none)
  let variant ← traceOption "empty variant" variantOpt
  assertCases variant matchCases
  return variant

/-- The types of the branches of a match. -/
def branchTypes : AstTyped.MatchingExpr → List TypeValue
  | .matchBool t f => [t.typeAnnot, f.typeAnnot]
  | .matchList n _ _ c => [n.typeAnnot, c.typeAnnot]
  | .matchOption n _ _ s => [n.typeAnnot, s.typeAnnot]
  | .matchTuple _ b => [b.typeAnnot]
  | .matchVariant lst _ => lst.map fun x => x.2.typeAnnot

/-- Bind the names of a pattern for a tuple. -/
def addBinders (e : Environment) (lst : List (String × TypeValue)) : Environment :=
  lst.foldl (fun prev x => Environment.addEzBinder x.1 x.2 prev) e

/-- The branches of a match have one type, which is the type of the match. -/
def branches (e : Environment) (tvOpt : Option TypeValue) (ex' : AnnotatedExpression)
    (m' : AstTyped.MatchingExpr) : Result AnnotatedExpression := do
  let tvOpt' ← (branchTypes m').foldlM sameBranch none
  let tv ← traceOption "empty matching" tvOpt'
  annotate e tvOpt (.eMatching ex' m') tv

/-- `type_match` on the clauses of a match on variants: the names of the clauses, and what
their bodies give. -/
def typeMatchVariant (e : Environment) (names : List String)
    (cases : Result (List ((String × String) × AnnotatedExpression))) :
    Result AstTyped.MatchingExpr := do
  let variant ← matchedVariant e names
  let lst' ← cases
  return .matchVariant lst' variant

/-! ### Expressions -/

mutual

def typeExpression (e : Environment) (tvOpt : Option TypeValue) :
    AstSimplified.Expression → Result AnnotatedExpression
  | .eFailwith _ => trace "typing expression" (simpleFail "can't type failwith in isolation")
  | .eVariable name => trace "typing expression" do
    let tv' ← traceOption "unbound variable" (Environment.getOpt name e)
    annotate e tvOpt (.eVariable name) (elementType tv')
  | .eLiteral l => trace "typing expression" <|
    annotate e tvOpt (.eLiteral (typeLiteral tvOpt l).1) (typeLiteral tvOpt l).2
  | .eSkip => trace "typing expression" (annotate e tvOpt (.eLiteral .unit) tUnit)
  | .eTuple lst => trace "typing expression" do
    let lst' ← typeAll e lst
    annotate e tvOpt (.eTuple lst') (.tTuple (lst'.map AnnotatedExpression.typeAnnot))
  | .eAccessor ae path => trace "typing expression" do
    let e' ← typeExpression e none ae
    trace "accessing" (typeAccesses e tvOpt e' path)
  | .eConstructor c expr => trace "typing expression" do
    let (cTv, sumTv) ← traceOption "no such constructor" (Environment.getConstructor c e)
    let expr' ← typeExpression e none expr
    assertTypeValueEq expr'.typeAnnot cTv
    annotate e tvOpt (.eConstructor c expr') sumTv
  | .eRecord m => trace "typing expression" do
    let m' ← typeFields e m
    annotate e tvOpt (.eRecord m') (.tRecord (m'.map fun x => (x.1, x.2.typeAnnot)))
  | .eList lst => trace "typing expression" do
    let lst' ← typeAll e lst
    let init ← bindMapOption getTList tvOpt
    let opt ← (lst'.map AnnotatedExpression.typeAnnot).foldlM sameType init
    let ty ← traceOption "empty list expression without annotation" opt
    annotate e tvOpt (.eList lst') (tList ty)
  | .eMap lst => trace "typing expression" do
    let lst' ← typeEntries e lst
    let keyType ← entryType getTMapKey tvOpt (lst'.map fun x => x.1.typeAnnot)
    let valueType ← entryType getTMapValue tvOpt (lst'.map fun x => x.2.typeAnnot)
    annotate e tvOpt (.eMap lst') (tMap keyType valueType)
  | .eLambda binder _ inputType outputType result => trace "typing expression" do
    let inputTe ← traceOption "no input type provided" inputType
    let inputType ← evaluateType e inputTe
    let outputTe ← traceOption "no output type provided" outputType
    let outputType ← evaluateType e outputTe
    let result ← typeExpression (Environment.addEzBinder binder inputType e) (some outputType)
      result
    annotate e tvOpt (.eLambda (.mk binder inputType outputType result))
      (.tFunction inputType outputType)
  | .eConstant name lst => trace "typing expression" do
    let lst' ← typeAll e lst
    let (name', tv) ← Operators.Typer.typeConstant name
      (lst'.map AnnotatedExpression.typeAnnot) tvOpt
    annotate e tvOpt (.eConstant name' lst') tv
  | .eApplication f arg => trace "typing expression" do
    let f ← typeExpression e none f
    let arg ← typeExpression e none arg
    match f.typeAnnot with
    | .tFunction param result => do
      assertTypeValueEq param arg.typeAnnot
      annotate e tvOpt (.eApplication f arg) result
    | _ => simpleFail "applying to not-a-function"
  | .eLookUp ds ind => trace "typing expression" do
    let ds ← typeExpression e none ds
    let ind ← typeExpression e none ind
    let (src, dst) ← getTMap ds.typeAnnot
    assertTypeValueEq ind.typeAnnot src
    annotate e tvOpt (.eLookUp ds ind) (tOption dst)
  | .eMatching ex m => trace "typing expression" do
    let ex' ← typeExpression e none ex
    typeMatching e tvOpt ex' m
  | .eSequence a b => trace "typing expression" do
    let a' ← typeExpression e none a
    let b' ← typeExpression e none b
    traceStrong "first part of the sequence isn't of unit type"
      (assertTypeValueEq tUnit a'.typeAnnot)
    annotate e tvOpt (.eSequence a' b') b'.typeAnnot
  | .eLoop expr body => trace "typing expression" do
    let expr' ← typeExpression e none expr
    let body' ← typeExpression e none body
    traceStrong "while condition isn't of type bool" (assertTypeValueEq tBool expr'.typeAnnot)
    traceStrong "while body isn't of unit type" (assertTypeValueEq tUnit body'.typeAnnot)
    annotate e tvOpt (.eLoop expr' body') tUnit
  | .eAssign name path expr => trace "typing expression" do
    let ele ← traceOption "missing var not in env" (Environment.getOpt name e)
    let (assignTv, path') ← assignPath (elementType ele) path
    let expr' ← typeExpression e none expr
    traceStrong "assign type doesn't match left-hand-side"
      (assertTypeValueEq assignTv expr'.typeAnnot)
    annotate e tvOpt (.eAssign ⟨name, elementType ele⟩ path' expr') tUnit
  | .eLetIn binder binderType rhs result => trace "typing expression" do
    let rhsTvOpt ← bindMapOption (evaluateType e) binderType
    let rhs ← typeExpression e rhsTvOpt rhs
    let result ← typeExpression (Environment.addEzDeclaration binder rhs e) none result
    annotate e tvOpt (.eLetIn binder rhs result) result.typeAnnot
  | .eAnnotated expr te => trace "typing expression" do
    let tv ← evaluateType e te
    let expr' ← typeExpression e (some tv) expr
    let typeAnnot ← mergeAnnotated (some tv) (some expr'.typeAnnot)
    return .mk expr'.expression typeAnnot expr'.environment

/-- The rest of an accessor. -/
def typeAccesses (e : Environment) (tvOpt : Option TypeValue) (prev : AnnotatedExpression) :
    List AstSimplified.Access → Result AnnotatedExpression
  | [] => .ok prev
  | a :: path => do
    let prev ← typeAccess e tvOpt prev a
    typeAccesses e tvOpt prev path

def typeAccess (e : Environment) (tvOpt : Option TypeValue) (prev : AnnotatedExpression) :
    AstSimplified.Access → Result AnnotatedExpression
  | .tuple index => accessTuple e tvOpt prev index
  | .record property => accessRecord e tvOpt prev property
  | .map ae => do
    let ae' ← typeExpression e none ae
    let (k, v) ← getTMap prev.typeAnnot
    assertTypeValueEq k ae'.typeAnnot
    annotate e tvOpt (.eLookUp prev ae') v

/-- A match, once what is matched is typed. -/
def typeMatching (e : Environment) (tvOpt : Option TypeValue) (ex' : AnnotatedExpression) :
    AstSimplified.MatchingExpr → Result AnnotatedExpression
  -- an assertion
  | .matchBool (.eFailwith fw) matchFalse => do
    let fw' ← typeExpression e none fw
    let mf' ← typeExpression e none matchFalse
    traceStrong "Matching bool on not-a-bool" (getTBool ex'.typeAnnot)
    traceStrong "Matching not-unit on an assert" (getTUnit mf'.typeAnnot)
    let mt' := .mk (.eConstant "ASSERT" [ex', fw']) tUnit e.elements
    annotate e tvOpt (.eMatching ex' (.matchBool mt' mf')) tUnit
  | .matchBool matchTrue matchFalse => do
    traceStrong "Matching bool on not-a-bool" (getTBool ex'.typeAnnot)
    let t ← typeExpression e none matchTrue
    let f ← typeExpression e none matchFalse
    branches e tvOpt ex' (.matchBool t f)
  | .matchOption matchNone name matchSome => do
    let tOpt ← traceStrong "Matching option on not-an-option" (getTOption ex'.typeAnnot)
    let n ← typeExpression e none matchNone
    let s ← typeExpression (Environment.addEzBinder name tOpt e) none matchSome
    branches e tvOpt ex' (.matchOption n name tOpt s)
  | .matchList matchNil hd tl matchCons => do
    let tList ← traceStrong "Matching list on not-an-list" (getTList ex'.typeAnnot)
    let n ← typeExpression e none matchNil
    let c ← typeExpression (Environment.addEzBinder tl ex'.typeAnnot
      (Environment.addEzBinder hd tList e)) none matchCons
    branches e tvOpt ex' (.matchList n hd tl c)
  | .matchTuple lst b => do
    let tTuple ← traceStrong "Matching tuple on not-a-tuple" (getTTuple ex'.typeAnnot)
    if lst.length = tTuple.length then do
      let b' ← typeExpression (addBinders e (lst.zip tTuple)) none b
      branches e tvOpt ex' (.matchTuple lst b')
    else simpleFail "Matching tuple of different size"
  | .matchVariant lst => do
    let m' ← typeMatchVariant e (lst.map fun x => x.1.1) (typeCases e lst)
    branches e tvOpt ex' m'

def typeAll (e : Environment) : List AstSimplified.Expression → Result (List AnnotatedExpression)
  | [] => .ok []
  | ae :: lst => do
    let ae' ← typeExpression e none ae
    let lst' ← typeAll e lst
    return ae' :: lst'

def typeFields (e : Environment) :
    List (String × AstSimplified.Expression) → Result (List (String × AnnotatedExpression))
  | [] => .ok []
  | (k, ae) :: m => do
    let ae' ← typeExpression e none ae
    let m' ← typeFields e m
    return (k, ae') :: m'

def typeEntries (e : Environment) :
    List (AstSimplified.Expression × AstSimplified.Expression) →
      Result (List (AnnotatedExpression × AnnotatedExpression))
  | [] => .ok []
  | (k, v) :: m => do
    let k' ← typeExpression e none k
    let v' ← typeExpression e none v
    let m' ← typeEntries e m
    return (k', v') :: m'

def typeCases (e : Environment) :
    List ((String × String) × AstSimplified.Expression) →
      Result (List ((String × String) × AnnotatedExpression))
  | [] => .ok []
  | (c, b) :: lst => do
    let (constructor', _) ← traceOption "bad constructor??" (Environment.getConstructor c.1 e)
    let b' ← typeExpression (Environment.addEzBinder c.2 constructor' e) none b
    let lst' ← typeCases e lst
    return (c, b') :: lst'

end

/-! ### Programs -/

/-- `type_declaration`. -/
def typeDeclaration (env : Environment) :
    AstSimplified.Declaration → Result (Environment × Option Declaration)
  | .declarationType typeName typeExpr => do
    let tv ← evaluateType env typeExpr
    return (Environment.addType typeName tv env, none)
  | .declarationConstant name tvOpt expression => do
    let tvOpt' ← bindMapOption (evaluateType env) tvOpt
    let ae' ← trace "typing constant declaration" (typeExpression env tvOpt' expression)
    let env' := Environment.addEzDeclaration name ae' env
    return (env', some ⟨name, ae', env.elements, env'.elements⟩)

/-- The declarations, from the first to the last. -/
def typeDeclarations (env : Environment) : AstSimplified.Program → Result Program
  | [] => .ok []
  | d :: p => do
    let (env', d') ← typeDeclaration env d
    let p' ← typeDeclarations env' p
    match d' with
    | none => return p'
    | some d' => return d' :: p'

def typeProgram (p : AstSimplified.Program) : Result Program :=
  trace "typing program" (typeDeclarations Environment.fullEmpty p)

end Ligo.Typer
