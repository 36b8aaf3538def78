import Ligo.AstSimplified.Types
import Ligo.Camligo.Ast
import Ligo.Operators.Simplify

/-!
# The simplifier of Camligo

`program` takes the declarations of the parser to the simplified language. Every match is
rejected (`matchClauses`).
-/

namespace Ligo.Simplify.Camligo

open AstSimplified (Declaration MatchingExpr)
open Ligo.Camligo.Ast hiding Expression TypeExpression
open Operators.Simplify (typeConstants)
open Operators.Simplify.Camligo (constants)

/-! ### Types -/

def typeVariable (str : String) : Result AstSimplified.TypeExpression :=
  match typeConstants.lookup str with
  | some s => .ok (.tConstant s [])
  | none => .ok (.tVariable str)

mutual

def typeExpression : Ligo.Camligo.Ast.TypeExpression → Result AstSimplified.TypeExpression
  | .tVariable tv => typeVariable tv
  | .tTuple lst => do
    let lst' ← typeExpressions lst
    return .tTuple lst'
  | .tParen p => typeExpression p
  | .tRecord r => do
    let r' ← typeElements r
    return .tRecord (SortedMap.ofList r')
  | .tApplication arg f => do
    let arg' ← typeExpression arg
    match f with
    | .tVariable v =>
      match typeConstants.lookup v with
      | some s =>
        match arg' with
        | .tTuple lst => return .tConstant s lst
        | e => return .tConstant s [e]
      | none => simpleFail "unrecognized type-constant"
    | _ => simpleFail "type applying to non-var"

def typeExpressions :
    List Ligo.Camligo.Ast.TypeExpression → Result (List AstSimplified.TypeExpression)
  | [] => .ok []
  | te :: lst => do
    let te' ← typeExpression te
    let lst' ← typeExpressions lst
    return te' :: lst'

def typeElement : String × Ligo.Camligo.Ast.TypeExpression →
    Result (String × AstSimplified.TypeExpression)
  | (s, te) => do
    let te' ← typeExpression te
    return (s, te')

def typeElements : List (String × Ligo.Camligo.Ast.TypeExpression) →
    Result (List (String × AstSimplified.TypeExpression))
  | [] => .ok []
  | x :: lst => do
    let x' ← typeElement x
    let lst' ← typeElements lst
    return x' :: lst'

end

def ofRestrictedTypeExpression : RestrictedTypeExpression → Ligo.Camligo.Ast.TypeExpression
  | .trVariable tv => .tVariable tv
  | .trApplication a b =>
    .tApplication (ofRestrictedTypeExpression a) (ofRestrictedTypeExpression b)
  | .trParen te => te

def restrictedTypeExpression (rte : RestrictedTypeExpression) :
    Result AstSimplified.TypeExpression :=
  typeExpression (ofRestrictedTypeExpression rte)

/-! ### Patterns and parameters -/

def getParamRestrictedPattern : Param → Result RestrictedPattern
  | .paramRestrictedPattern c => .ok c
  | _ => simpleFail "not a restricted param pattern"

def getUnrestrictedPattern : RestrictedPattern → Result Pattern
  | .prRestrict p => .ok p
  | _ => simpleFail "not an unrestricted param pattern"

def getPTypeAnnotated : Pattern → Result (Pattern × RestrictedTypeExpression)
  | .pTypeAnnotated p te => .ok (p, te)
  | _ => simpleFail "not a pattern type annotation"

def getPVariable : Pattern → Result String
  | .pVariable v => .ok v
  | _ => simpleFail "not a pattern variable"

def getPOptionTypedVariable : Pattern → Result (String × Option RestrictedTypeExpression)
  | .pVariable v => .ok (v, none)
  | .pTypeAnnotated pat rte => do
    let v ← getPVariable pat
    return (v, some rte)
  | _ => simpleFail "not an optionally typed pattern variable"

def getPTypedVariable (p : Pattern) : Result (String × RestrictedTypeExpression) := do
  let (p', rte) ← trace "get_p_typed_variable" (getPTypeAnnotated p)
  let var ← getPVariable p'
  return (var, rte)

def getTypedVariableParam (arg : Param) : Result (String × RestrictedTypeExpression) := do
  let rp ← getParamRestrictedPattern arg
  let up ← getUnrestrictedPattern rp
  getPTypedVariable up

def getUntypedVariableParam (arg : Param) : Result String := do
  let rp ← getParamRestrictedPattern arg
  match rp with
  | .prVariable v => return v
  | _ => simpleFail "a regular variable was expected"

/-! ### Expressions -/

/-- `match_clauses`: neither of the two attempts has an answer. -/
def matchClauses {α : Type} (_ : List (Pattern × α)) : Result MatchingExpr :=
  simpleFail "no weird matching yet"

def binopName : Binop → String
  | .lt => "LT"
  | .gt => "GT"
  | .le => "LE"
  | .eq => "EQ"
  | .neq => "NEQ"
  | .cons => "CONS"
  | .addition => "ADD"
  | .substraction => "MINUS"
  | .multiplication => "TIMES"
  | .division => "DIV"
  | .assign => "ASSIGN"

/-- An identifier, by itself or applied to an argument. -/
def identifierApplication (lst : List String) (v : String)
    (paramOpt : Option AstSimplified.Expression) : Result AstSimplified.Expression :=
  let constantName := ".".intercalate (lst ++ [v])
  match constants.lookup constantName, paramOpt with
  | some s, none => .ok (.eConstant s [])
  | some s, some param =>
    let params := match param with
      | .eTuple lst => lst
      | _ => [param]
    .ok (.eConstant s params)
  | none, paramOpt => do
    traceStrong "no module identifiers yet"
      (if lst.length = 0 then .ok () else simpleFail "lst isn't empty")
    match constantName, paramOpt with
    | "failwith", some param => return .eFailwith param
    | _, some param => return .eApplication (.eVariable v) param
    | _, none => return .eVariable v

mutual

def expression : Ligo.Camligo.Ast.Expression → Result AstSimplified.Expression
  | .eSequence lst => do
    let lst' ← expressions lst
    match lst' with
    | [] => simpleFail "empty sequence"
    | hd :: tl => return foldRight' .eSequence hd tl
  | .eLetIn pattern expr body => do
    let (name, rte) ← getPOptionTypedVariable pattern
    let typeExpression' ← match rte with
      | none => .ok none
      | some rte => (restrictedTypeExpression rte).map some
    let expr' ← expression expr
    let body' ← expression body
    return .eLetIn name typeExpression' expr' body'
  | .eIfthenelse cond branchTrue branchFalse => do
    let cond' ← expression cond
    let branchTrue' ← expression branchTrue
    let branchFalse' ← expression branchFalse
    return .eMatching cond' (.matchBool branchTrue' branchFalse')
  | .eIfthen cond branchTrue => do
    let cond' ← expression cond
    let branchTrue' ← expression branchTrue
    return .eMatching cond' (.matchBool branchTrue' (.eLiteral .unit))
  | .eMatch expr clauses => do
    let expr' ← expression expr
    let clauses' ← matchClausesOf clauses
    let matching ← matchClauses clauses'
    return .eMatching expr' matching
  | .eRecord r => do
    let r' ← recordElements r
    return .eRecord (SortedMap.ofList r')
  | .eFun pattern expr => do
    let (name, rte) ← getPTypedVariable pattern
    let typeExpression' ← restrictedTypeExpression rte
    let expr' ← expression expr
    return .eLambda name (some typeExpression') (some typeExpression') none expr'
  | .eMain m => expressionMain m

def expressions : List Ligo.Camligo.Ast.Expression → Result (List AstSimplified.Expression)
  | [] => .ok []
  | e :: lst => do
    let e' ← expression e
    let lst' ← expressions lst
    return e' :: lst'

def matchClause :
    MatchClause Ligo.Camligo.Ast.Expression → Result (Pattern × AstSimplified.Expression)
  | ⟨pattern, rhs⟩ => do
    let rhs' ← expression rhs
    return (pattern, rhs')

def matchClausesOf : List (MatchClause Ligo.Camligo.Ast.Expression) →
    Result (List (Pattern × AstSimplified.Expression))
  | [] => .ok []
  | x :: lst => do
    let x' ← matchClause x
    let lst' ← matchClausesOf lst
    return x' :: lst'

def recordElement : RecordElement → Result (String × AstSimplified.Expression)
  | .recordImplicit _ => simpleFail "no implicit record element yet"
  | .recordExplicit s e => do
    let e' ← expression e
    return (s, e')

def recordElements : List RecordElement → Result (List (String × AstSimplified.Expression))
  | [] => .ok []
  | x :: lst => do
    let x' ← recordElement x
    let lst' ← recordElements lst
    return x' :: lst'

def expressionMain : ExpressionMain → Result AstSimplified.Expression
  | .ehTuple lst => trace "simplifying main_expression" do
    let lst' ← expressionMains lst
    return .eTuple lst'
  | .ehModuleIdent lst v =>
    trace "simplifying main_expression" (identifierApplication lst v none)
  | .ehVariable v => trace "simplifying main_expression" (identifierApplication [] v none)
  | .ehApplication f arg => trace "simplifying main_expression" do
    let arg' ← expressionMain arg
    match f with
    | .ehVariable v => identifierApplication [] v (some arg')
    | .ehModuleIdent lst v => identifierApplication lst v (some arg')
    | _ => do
      let f' ← expressionMain f
      return .eApplication f' arg'
  | .ehTypeAnnotated e te => trace "simplifying main_expression" do
    let e' ← expressionMain e
    let te' ← restrictedTypeExpression te
    return .eAnnotated e' te'
  | .ehBinop op a b => trace "simplifying main_expression" do
    let a' ← expressionMain a
    let b' ← expressionMain b
    return .eConstant (binopName op) [a', b']
  | .ehInt n => .ok (.eLiteral (.int n))
  | .ehString s => .ok (.eLiteral (.string s))
  | .ehUnit => .ok (.eLiteral .unit)
  | .ehTz n => .ok (.eLiteral (.tez n))
  | .ehConstructor _ =>
    trace "simplifying main_expression" (simpleFail "constructor without parameter")
  | .ehDataStructure kind content => trace "simplifying main_expression" do
    if kind = "list" then
      let lst ← expressionMains content
      return .eList lst
    else simpleFail "data-structures not supported yet"
  | .ehName _ =>
    trace "simplifying main_expression" (simpleFail "named parameter not supported yet")
  | .ehAccessor src path => .ok (.eAccessor (.eVariable src) (path.map .record))
  | .ehBottom e => trace "simplifying main_expression" (expression e)

def expressionMains : List ExpressionMain → Result (List AstSimplified.Expression)
  | [] => .ok []
  | e :: lst => do
    let e' ← expressionMain e
    let lst' ← expressionMains lst
    return e' :: lst'

end

/-! ### Declarations -/

def letContent (l : LetContent) : Result Declaration := do
  let args' ← bindList (l.args.map getTypedVariableParam)
  let tya ← traceOption "top-level declarations need a type" l.tyOpt
  let ty' ← typeExpression tya
  match args' with
  | [] => do
    let e' ← expression l.expr
    return .declarationConstant l.name (some ty') e'
  | [_] => simpleFail "no syntactic sugar for functions yet param"
  | _ => simpleFail "if you want currified functions, please do so explicitly"

/-- `List.to_pair`. -/
def toPair {α : Type} : List α → Option (α × α)
  | [a, b] => some (a, b)
  | _ => none

/-- The component `i` of the tuple of the parameters, around an expression. -/
def tplDeclaration (argumentsName : String) (i : ℕ)
    (x : String × AstSimplified.TypeExpression) (expr : AstSimplified.Expression) :
    AstSimplified.Expression :=
  .eLetIn x.1 (some x.2) (.eAccessor (.eVariable argumentsName) [.tuple i]) expr

def letEntry (l : LetContent) : Result Declaration := do
  traceStrong "entry-point shouldn't have type annotations"
    (if l.tyOpt.isNone then .ok () else simpleFail "not a none")
  let (param, storage) ← traceOption "entry-points should have exactly two params" (toPair l.args)
  let (paramName, paramTy) ← getTypedVariableParam param
  let paramTy ← restrictedTypeExpression paramTy
  let storageName ← getUntypedVariableParam storage
  let storageTy := .tVariable "storage"
  let argumentsName := "arguments"
  let inputTy := .tTuple [paramTy, storageTy]
  let tplDeclarations (expr : AstSimplified.Expression) : AstSimplified.Expression :=
    let lst := [(paramName, paramTy), (storageName, storageTy)].mapIdx (tplDeclaration argumentsName)
    foldRight' (fun prec cur => cur prec) expr lst
  let result ← expression l.expr
  let result := tplDeclarations result
  let outputTy := .tTuple [.tConstant "list" [.tConstant "operation" []], storageTy]
  let lambda := .eLambda argumentsName (some inputTy) (some inputTy) (some outputTy) result
  return .declarationConstant l.name (some (.tFunction inputTy outputTy)) lambda

def letInitStorage (l : LetContent) : Result Declaration := do
  traceStrong "storage init shouldn't have a type annotation"
    (if l.tyOpt.isNone then .ok () else simpleFail "not a none")
  trace "storage init should have no parameter (address)"
    (if l.args.length = 0 then .ok () else simpleFail "lst doesn't have the right size")
  let content ← expression l.expr
  return .declarationConstant "storage" (some (.tVariable "storage")) content

def letInitContent (l : LetContent) : Result Declaration :=
  if l.name = "storage" then letInitStorage l
  else simpleFail "%init directives are only used for storage"

def statement : Statement → Result Declaration
  | .variableDeclaration x => letContent x
  | .initDeclaration x => letInitContent x
  | .entryDeclaration x => letEntry x
  | .typeDeclaration n te => do
    let te' ← typeExpression te
    return .declarationType n te'

def program (lst : List Statement) : Result AstSimplified.Program :=
  bindList (lst.map statement)

end Ligo.Simplify.Camligo
