import Ligo.AstSimplified.Types
import Ligo.Exceptions
import Ligo.Operators.Simplify
import Ligo.Pascaligo.Ast

/-!
# The simplifier of PascaLIGO

`simplProgram` takes the syntax tree of the parser to the simplified language. A statement
becomes a function from what comes after it, if anything does, to an expression: an
instruction goes before it in a sequence, a declaration around it in a `let`.

The computations raise exceptions (`Raising`), for the partial functions that the simplifier
calls. Source locations are left out.
-/

namespace Ligo.Simplify.Pascaligo

open AstSimplified (Expression TypeExpression Access MatchingExpr Declaration)
open Ligo.Pascaligo (Nseq)
open Ligo.Pascaligo.Raw hiding Declaration
open Operators.Simplify (typeConstants)
open Operators.Simplify.Pascaligo (constants)
open Raising

/-- `Z.to_int`. -/
def zToInt (z : ℤ) : Raising OInt :=
  match OInt.ofInt z with
  | some n => pure n
  | none => raise .overflow

/-- What a statement makes of the expression after it. -/
abbrev Continuation := Option Expression → Raising Expression

/-- `return`. -/
def ret (expr : Expression) : Raising Continuation :=
  pure fun
    | none => pure expr
    | some expr' => pure (.eSequence expr expr')

def returnLetIn (binder : String × Option TypeExpression) (rhs : Expression) :
    Raising Continuation :=
  pure fun
    | none => lift (simpleFail "missing return")
    | some expr' => pure (.eLetIn binder.1 binder.2 rhs expr')

/-! ### Types -/

mutual

def simplTypeExpression : TypeExpr → Raising TypeExpression
  | .tPar inside => simplTypeExpression inside
  | .tAlias v =>
    match typeConstants.lookup v with
    | some s => pure (.tConstant s [])
    | none => pure (.tVariable v)
  | .tFun a b => do
    let (a, b) ← pair (simplTypeExpression a) (simplTypeExpression b)
    return .tFunction a b
  | .tApp name ⟨hd, tl⟩ => do
    let lst' ← consRev (simplTypeExpression hd) (simplTypeExpressions tl)
    let cst ← lift (traceOption "unrecognized type constants" (typeConstants.lookup name))
    return .tConstant cst lst'
  | .tProd cartesian => simplListTypeExpression cartesian
  | .tRecord elements => do
    let lst ← simplFieldDecls elements
    return .tRecord (SortedMap.ofList lst)
  | .tSum ⟨hd, tl⟩ => do
    let lst ← consRev (simplVariant hd) (simplVariants tl)
    return .tSum (SortedMap.ofList lst)

def simplTypeExpressions : List TypeExpr → Raising (List TypeExpression)
  | [] => pure []
  | t :: lst => consRev (simplTypeExpression t) (simplTypeExpressions lst)

/-- `simpl_list_type_expression` on a list that is not empty. -/
def simplListTypeExpression : Nseq TypeExpr → Raising TypeExpression
  | ⟨hd, []⟩ => simplTypeExpression hd
  | ⟨hd, tl⟩ => do
    let lst ← consRev (simplTypeExpression hd) (simplTypeExpressions tl)
    return .tTuple lst

def simplFieldDecl : FieldDecl → Raising (String × TypeExpression)
  | .mk x y => do
    let y ← simplTypeExpression y
    return (x, y)

def simplFieldDecls : List FieldDecl → Raising (List (String × TypeExpression))
  | [] => pure []
  | x :: lst => consRev (simplFieldDecl x) (simplFieldDecls lst)

def simplVariant : Variant → Raising (String × TypeExpression)
  | .mk _ none => assertFalse -- `simpl_list_type_expression []`
  | .mk constr (some product) => do
    let te ← simplListTypeExpression product
    return (constr, te)

def simplVariants : List Variant → Raising (List (String × TypeExpression))
  | [] => pure []
  | v :: lst => consRev (simplVariant v) (simplVariants lst)

end

/-! ### Patterns -/

def getVar : Pattern → Raising String
  | .pVar v => pure v
  | _ => lift (simpleFail "not a var")

def getTuple : Pattern → List Pattern
  | .pCons v => v.toList
  | .pTuple v => v.toList
  | x => [x]

/-- `Assert.assert_list_size lst 1`, with an error of its own. -/
def assertSingle {α : Type} (title : String) (lst : List α) : Raising Unit :=
  lift (traceStrong title (if lst.length = 1 then .ok () else
    simpleFail "lst doesn't have the right size"))

def getSingle (t : Pattern) : Raising Pattern := do
  assertSingle "not single" (getTuple t)
  head (getTuple t)

def getConstr : Pattern → Raising (String × String)
  | .pConstr constr p => do
    let v ← getSingle p
    let var ← getVar v
    return (constr, var)
  | _ => lift (simpleFail "not a constr")

/-- The names in a pattern for a list that is not empty. -/
def getConsVars : Nseq Pattern → Raising (String × String)
  | ⟨a, [b]⟩ => do
    let a ← getVar a
    let b ← getVar b
    return (a, b)
  | _ => lift (simpleFail "complex list patterns not supported yet")

/-- A pattern of a clause has one component. -/
def clausePattern {α : Type} (x : Pattern × α) : Raising (Pattern × α) := do
  assertSingle "no tuple in patterns yet" (getTuple x.1)
  let p ← head (getTuple x.1)
  return (p, x.2)

def clauseConstr {α : Type} (x : Pattern × α) : Raising ((String × String) × α) := do
  let x' ← Raising.trace "Pattern" (getConstr x.1)
  return (x', x.2)

/-- The match that clauses of one pattern each make. -/
def matchPatterns : List (Pattern × Expression) → Raising MatchingExpr
  | [(.pFalse, f), (.pTrue, t)]
  | [(.pTrue, t), (.pFalse, f)] => pure (.matchBool t f)
  | [(.pSome v, some'), (.pNone, none')]
  | [(.pNone, none'), (.pSome v, some')] =>
    match v with
    | .pVar v => pure (.matchOption none' v some')
    | _ => lift (simpleFail "complex none patterns not supported yet")
  | [(.pCons c, cons'), (.pNil, nil')]
  | [(.pNil, nil'), (.pCons c, cons')] => do
    let (a, b) ← getConsVars c
    return .matchList nil' a b cons'
  | lst => Raising.trace "weird patterns not supported yet" do
    let constrs ← mapList clauseConstr lst
    return .matchVariant constrs

def simplCases (t : List (Pattern × Expression)) : Raising MatchingExpr := do
  let patterns ← mapList clausePattern t
  matchPatterns patterns

/-! ### Expressions -/

def simplSelection : Selection → Raising Access
  | .fieldName property => pure (.record property)
  | .component index => do
    let index ← zToInt index
    return .tuple index.val

/-- The step of a path that a selection stands for. -/
def selectionAccess : Selection → Access
  | .fieldName property => .record property
  | .component index => .tuple index

theorem zToInt_eq_pure {z : ℤ} {n : OInt} (h : zToInt z = pure n) : n.val = z := by
  unfold zToInt at h
  split at h
  · rename_i m hm
    cases h
    unfold OInt.ofInt at hm
    split at hm
    · cases hm
      rfl
    · cases hm
  · cases h

theorem simplSelection_eq_pure {s : Selection} {a : Access} (h : simplSelection s = pure a) :
    a = selectionAccess s := by
  cases s with
  | fieldName property =>
    cases h
    rfl
  | component index =>
    obtain ⟨n, hn, h⟩ := bind_eq_pure.1 h
    cases h
    rw [zToInt_eq_pure hn]
    rfl

theorem simplSelections_eq_pure {lst : List Selection} {path : List Access}
    (h : List.Forall₂ (fun s a => simplSelection s = pure a) lst path) :
    path = lst.map selectionAccess := by
  induction h with
  | nil => rfl
  | cons hs _ ih => rw [List.map_cons, simplSelection_eq_pure hs, ih]

def simplPath : Path → Raising (String × List Access)
  | .name v => pure (v, [])
  | .path p => do
    let path' ← mapListRev simplSelection p.fieldPath.toList
    return (p.structName, path')

def simplProjection (p : Projection) : Raising Expression := do
  let path' ← mapListRev simplSelection p.fieldPath.toList
  return .eAccessor (.eVariable p.structName) path'

/-- The names that `simpl_logic_expression` gives to the operators. -/
def logicName : LogicOp → String
  | .or => "OR"
  | .and => "AND"
  | .lt => "LT"
  | .gt => "GT"
  | .leq => "LE"
  | .geq => "GE"
  | .equal => "EQ"
  | .neq => "NEQ"

def arithName : ArithOp → String
  | .add => "ADD"
  | .sub => "SUB"
  | .mult => "TIMES"
  | .div => "DIV"
  | .mod => "MOD"

mutual

def simplExpression : Expr → Raising Expression
  | .eAnnot expr typeExpr => do
    let expr' ← simplExpression expr
    let typeExpr' ← simplTypeExpression typeExpr
    return .eAnnotated expr' typeExpr'
  | .eVar c =>
    match constants.lookup c with
    | none => pure (.eVariable c)
    | some s => pure (.eConstant s [])
  | .eCall f args =>
    match constants.lookup f with
    | none => do
      let arg ← simplTupleExpression args
      return .eApplication (.eVariable f) arg
    | some s => do
      let lst ← simplArguments args
      return .eConstant s lst
  | .ePar inside => simplExpression inside
  | .eUnit => pure (.eLiteral .unit)
  | .eBytes x => pure (.eLiteral (.bytes x))
  | .eTuple tpl => simplTupleExpression tpl
  | .eRecord elements => do
    let fields ← simplFields elements
    return .eRecord (SortedMap.ofList fields)
  | .eProj p => simplProjection p
  | .eConstrApp c args => do
    let arg ← simplTupleExpression args
    return .eConstructor c arg
  | .eSomeApp args => do
    let arg ← simplTupleExpression args
    return .eConstant "SOME" [arg]
  | .eNoneExpr => pure (.eConstant "NONE" [])
  | .eArith op a b => do
    let a ← simplExpression a
    let b ← simplExpression b
    return .eConstant (arithName op) [a, b]
  | .eInt n => do
    let n ← zToInt n
    return .eLiteral (.int n)
  | .eNat n => do
    let n ← zToInt n
    return .eLiteral (.nat n)
  | .eMtz n => do
    let n ← zToInt n
    return .eLiteral (.tez n)
  | .eNeg _ => lift (simpleFail "arith: not supported yet")
  | .eString s => do
    let s' ← stringSub s.value 1 (s.value.length - 2)
    return .eLiteral (.string s')
  | .eCat _ _ => lift (simpleFail "string: not supported yet")
  | .eLogic op a b => do
    let a ← simplExpression a
    let b ← simplExpression b
    return .eConstant (logicName op) [a, b]
  | .eNot a => do
    let a ← simplExpression a
    return .eConstant "NOT" [a]
  | .eBool b => pure (.eLiteral (.bool b))
  | .eCons a b => do
    let a ← simplExpression a
    let b ← simplExpression b
    return .eConstant "CONS" [a, b]
  | .eList elements => do
    let lst' ← simplElements elements
    return .eList lst'
  | .eNil => pure (.eList [])
  | .eSet => lift (simpleFail "set: not supported yet")
  | .eCase expr ⟨hd, tl⟩ => do
    let e ← simplExpression expr
    let lst ← consRev (simplClause hd) (simplClauses tl)
    let cases ← simplCases lst
    return .eMatching e cases
  | .eMapInj elements => do
    let lst ← simplBindings elements
    return .eMap lst
  | .eMapLookUp path index => do
    let path ← match path with
      | .name v => pure (Expression.eVariable v)
      | .path p => simplProjection p
    let index ← simplExpression index
    return .eLookUp path index

def simplExpressions : List Expr → Raising (List Expression)
  | [] => pure []
  | e :: lst => consRev (simplExpression e) (simplExpressions lst)

/-- `simpl_tuple_expression` on a list that is not empty. -/
def simplTupleExpression : Nseq Expr → Raising Expression
  | ⟨hd, []⟩ => simplExpression hd
  | ⟨hd, tl⟩ => do
    let lst ← consRev (simplExpression hd) (simplExpressions tl)
    return .eTuple lst

/-- `bind_map_list simpl_expression`. -/
def simplElements : List Expr → Raising (List Expression)
  | [] => pure []
  | e :: lst => cons (simplExpression e) (simplElements lst)

def simplArguments : Nseq Expr → Raising (List Expression)
  | ⟨hd, tl⟩ => cons (simplExpression hd) (simplElements tl)

def simplField : String × Expr → Raising (String × Expression)
  | (k, v) => do
    let v ← simplExpression v
    return (k, v)

def simplFields : List (String × Expr) → Raising (List (String × Expression))
  | [] => pure []
  | x :: lst => consRev (simplField x) (simplFields lst)

def simplBinding : Expr × Expr → Raising (Expression × Expression)
  | (source, image) => do
    let src ← simplExpression source
    let dst ← simplExpression image
    return (src, dst)

def simplBindings : List (Expr × Expr) → Raising (List (Expression × Expression))
  | [] => pure []
  | x :: lst => cons (simplBinding x) (simplBindings lst)

def simplClause : CaseClause Expr → Raising (Pattern × Expression)
  | ⟨pattern, rhs⟩ => do
    let expr ← simplExpression rhs
    return (pattern, expr)

def simplClauses : List (CaseClause Expr) → Raising (List (Pattern × Expression))
  | [] => pure []
  | x :: lst => consRev (simplClause x) (simplClauses lst)

end

/-! ### Statements -/

def simplDataDeclaration : DataDecl → Raising Continuation
  | .localVar x => do
    let t ← simplTypeExpression x.varType
    let expression ← simplExpression x.init
    returnLetIn (x.name, some t) expression
  | .localConst x => do
    let t ← simplTypeExpression x.constType
    let expression ← simplExpression x.init
    returnLetIn (x.name, some t) expression

def simplAssignment (lhs : Lhs) (rhs : Rhs) : Raising Continuation := do
  let valueExpr ← match rhs with
    | .expr e => simplExpression e
    | .noneExpr => lift (simpleFail "no none assignments yet")
  match lhs with
  | .path path => do
    let (name, path') ← simplPath path
    ret (.eAssign name path' valueExpr)
  | .mapPath path index => do
    let name ← match path with
      | .name name => pure name
      | _ => lift (simpleFail "no complex map assignments yet")
    let keyExpr ← simplExpression index
    ret (.eAssign name [] (.eConstant "MAP_UPDATE" [keyExpr, valueExpr, .eVariable name]))

def simplRecordPatch (path : Path) (recordInj : List (String × Expr)) :
    Raising Continuation := do
  let (name, accessPath) ← simplPath path
  let inj ← simplFields recordInj
  let assigns := inj.map fun x => Expression.eAssign name (accessPath ++ [.record x.1]) x.2
  let expr ← match assigns with
    | [] => lift (simpleFail "empty record patch")
    | hd :: tl => pure (tl.foldl .eSequence hd)
  ret expr

def simplMapRemove (key : Expr) (map : Path) : Raising Continuation := do
  let map ← match map with
    | .name v => pure v
    | _ => lift (simpleFail "no complex map remove yet")
  let key' ← simplExpression key
  ret (.eAssign map [] (.eConstant "MAP_REMOVE" [key', .eVariable map]))

/-- The statements of a block, around what comes after the block. -/
def joinStatements (fs : List Continuation) : Continuation := fun expr' => do
  let ret ← foldRightList
    (fun prec (cur : Continuation) => do
      let res ← cur prec
      return some res)
    expr' fs
  unoptExn ret

mutual

def simplStatement : Statement → Raising Continuation
  | .instr i => simplInstruction i
  | .data d => simplDataDeclaration d

def simplInstruction : Instruction → Raising Continuation
  | .single s => Raising.trace "simplifiying instruction" (simplSingleInstruction s)
  | .block _ =>
    Raising.trace "simplifiying instruction" (lift (simpleFail "no block instruction yet"))

def simplInstructionBlock : Instruction → Raising Continuation
  | .single s => simplSingleInstruction s
  | .block b => simplStatements b

def simplSingleInstruction : SingleInstr → Raising Continuation
  | .procCall => lift (simpleFail "no proc call")
  | .fail e => do
    let expr ← simplExpression e
    ret (.eFailwith expr)
  | .skip => ret .eSkip
  | .whileLoop cond block => do
    let cond ← simplExpression cond
    let body ← simplStatements block
    let body ← body none
    ret (.eLoop cond body)
  | .forLoop => lift (simpleFail "no for yet")
  | .cond test ifso ifnot => do
    let expr ← simplExpression test
    let matchTrue ← simplIfClause ifso
    let matchFalse ← simplIfClause ifnot
    let matchTrue ← matchTrue none
    let matchFalse ← matchFalse none
    ret (.eMatching expr (.matchBool matchTrue matchFalse))
  | .assign lhs rhs => simplAssignment lhs rhs
  | .caseInstr expr ⟨hd, tl⟩ => do
    let expr ← simplExpression expr
    let cases ← consRev (simplInstrClause hd) (simplInstrClauses tl)
    let m ← simplCases cases
    ret (.eMatching expr m)
  | .recordPatch path recordInj => simplRecordPatch path recordInj
  | .mapPatch => lift (simpleFail "no map patch yet")
  | .setPatch => lift (simpleFail "no set patch yet")
  | .mapRemove key map => simplMapRemove key map
  | .setRemove => lift (simpleFail "no set remove yet")

def simplIfClause : IfClause → Raising Continuation
  | .clauseInstr i => simplInstructionBlock i
  | .clauseBlock b => simplStatements b

def simplInstrClause : CaseClause Instruction → Raising (Pattern × Expression)
  | ⟨pattern, rhs⟩ => do
    let i ← simplInstructionBlock rhs
    let i ← i none
    return (pattern, i)

def simplInstrClauses : List (CaseClause Instruction) → Raising (List (Pattern × Expression))
  | [] => pure []
  | x :: lst => consRev (simplInstrClause x) (simplInstrClauses lst)

/-- `simpl_statements`, which is `simpl_block` on the statements of a block. -/
def simplStatements : Nseq Statement → Raising Continuation
  | ⟨hd, tl⟩ => do
    let fs ← cons (simplStatement hd) (simplStatementList tl)
    return joinStatements fs

def simplStatementList : List Statement → Raising (List Continuation)
  | [] => pure []
  | s :: lst => cons (simplStatement s) (simplStatementList lst)

end

/-! ### Declarations -/

def simplParam : ParamDecl → Raising (String × TypeExpression)
  | .paramConst c => do
    let typeExpression ← simplTypeExpression c.paramType
    return (c.var, typeExpression)
  | .paramVar v => do
    let typeExpression ← simplTypeExpression v.paramType
    return (v.var, typeExpression)

/-- What a function is declared as: its name, its type and its lambda. -/
abbrev Binding := (String × Option TypeExpression) × Expression

/-- The lambda of a function whose body is a list of statements before its result. -/
def funBinding (name binder : String) (inputType outputType : TypeExpression)
    (body : List Continuation) (result : Expression) : Raising Binding := do
  let result ← foldRightList (fun prec (cur : Continuation) => cur (some prec)) result body
  return ((name, some (.tFunction inputType outputType)),
    .eLambda binder (some inputType) (some inputType) (some outputType) result)

/-- The component `i` of the tuple of the parameters, declared under the name of the
parameter. -/
def tplDeclaration (argumentsName : String) (i : ℕ) (x : String × TypeExpression) :
    Raising Continuation :=
  returnLetIn (x.1, some x.2) (.eAccessor (.eVariable argumentsName) [.tuple i])

mutual

def simplLocalDeclaration : LocalDecl → Raising Continuation
  | .localData d => simplDataDeclaration d
  | .localLam l => simplLambdaDeclaration l

def simplLambdaDeclaration : LambdaDecl → Raising Continuation
  | .funDecl f => do
    let (name, e) ← simplFunDeclaration f
    returnLetIn name e
  | .procDecl => lift (simpleFail "no local procedure yet")
  | .entryDecl => lift (simpleFail "no local entry-point yet")

def simplLocalDeclarations : List LocalDecl → Raising (List Continuation)
  | [] => pure []
  | d :: lst => cons (simplLocalDeclaration d) (simplLocalDeclarations lst)

def simplFunDeclaration : FunDecl → Raising Binding
  | .mk name ⟨a, []⟩ retType localDecls block return' => do
    let (binder, inputType) ← simplParam a
    let localDeclarations ← simplLocalDeclarations localDecls
    let instructions ← mapListRev simplStatement block.toList
    let result ← simplExpression return'
    let outputType ← simplTypeExpression retType
    funBinding name binder inputType outputType (localDeclarations ++ instructions) result
  | .mk name lst retType localDecls block return' => do
    let argumentsName := "arguments"
    let params ← mapList simplParam lst.toList
    let inputType := .tTuple (params.map Prod.snd)
    let tplDeclarations ← mapListRev id (params.mapIdx (tplDeclaration argumentsName))
    let localDeclarations ← simplLocalDeclarations localDecls
    let instructions ← mapListRev simplStatement block.toList
    let result ← simplExpression return'
    let outputType ← simplTypeExpression retType
    funBinding name argumentsName inputType outputType
      (tplDeclarations ++ localDeclarations ++ instructions) result

end

def simplDeclaration : Ligo.Pascaligo.Raw.Declaration → Raising Declaration
  | .typeDecl name typeExpr => do
    let typeExpression ← simplTypeExpression typeExpr
    return .declarationType name typeExpression
  | .constDecl x => do
    let expression ← simplExpression x.init
    let t ← simplTypeExpression x.constType
    return .declarationConstant x.name (some t) expression
  | .lambdaDecl (.funDecl x) => do
    let ((name, tyOpt), expr) ← simplFunDeclaration x
    return .declarationConstant name tyOpt expr
  | .lambdaDecl .procDecl => lift (simpleFail "no proc declaration yet")
  | .lambdaDecl .entryDecl => lift (simpleFail "no entry point yet")

def simplProgram (t : Ast) : Raising (List Declaration) :=
  mapListRev simplDeclaration t.decl.toList

end Ligo.Simplify.Pascaligo
