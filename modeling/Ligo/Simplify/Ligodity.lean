import Ligo.Ligodity.Ast
import Ligo.Simplify.Pascaligo

/-!
# The simplifier of Ligodity

`simplProgram` takes the syntax tree of the parser to the simplified language. The annotation
of an expression is handed down to the node that it annotates (`te_annot`), so an expression
with two annotations is rejected. The constants are the ones of PascaLIGO.

As there, the computations raise exceptions for the partial functions that the simplifier
calls. A declaration keeps its location; the others are left out.
-/

namespace Ligo.Simplify.Ligodity

open AstSimplified (Expression TypeExpression Access MatchingExpr makeOptionTyped)
open Ligo.Pascaligo (Nseq Reg)
open Ligo.Pascaligo.Raw (TypeExpr Variant FieldDecl Projection)
open Ligo.Ligodity.Raw
open Operators.Simplify (typeConstants)
open Operators.Simplify.Pascaligo (constants)
open Simplify.Pascaligo (zToInt assertSingle logicName arithName)
open Raising (lift pair cons consRev mapList head stringSub assertFalse)

/-! ### Types -/

mutual

def simplTypeExpression : TypeExpr → Raising TypeExpression
  | .tPar inside => simplTypeExpression inside
  | .tAlias v =>
    match typeConstants.lookup v with
    | some s => pure (.tConstant s [])
    | none => pure (.tVariable v)
  | .tFun a b => do
    let (a, b) ← pair (simplTypeExpression a) (simplTypeExpression b)
    return .tFunction a b
  | .tApp name ⟨hd, tl⟩ => do
    let cst ← lift (traceOption "unrecognized type constants" (typeConstants.lookup name))
    let lst' ← consRev (simplTypeExpression hd) (simplTypeExpressions tl)
    return .tConstant cst lst'
  | .tProd cartesian => simplListTypeExpression cartesian
  | .tRecord elements => do
    let lst ← simplFieldDecls elements
    return .tRecord (SortedMap.ofList lst)
  | .tSum ⟨hd, tl⟩ => do
    let lst ← consRev (simplVariant hd) (simplVariants tl)
    return .tSum (SortedMap.ofList lst)

def simplTypeExpressions : List TypeExpr → Raising (List TypeExpression)
  | [] => pure []
  | t :: lst => consRev (simplTypeExpression t) (simplTypeExpressions lst)

/-- `simpl_list_type_expression` on a list that is not empty. -/
def simplListTypeExpression : Nseq TypeExpr → Raising TypeExpression
  | ⟨hd, []⟩ => simplTypeExpression hd
  | ⟨hd, tl⟩ => do
    let lst ← consRev (simplTypeExpression hd) (simplTypeExpressions tl)
    return .tTuple lst

def simplFieldDecl : FieldDecl → Raising (String × TypeExpression)
  | .mk x y => do
    let y ← simplTypeExpression y
    return (x, y)

def simplFieldDecls : List FieldDecl → Raising (List (String × TypeExpression))
  | [] => pure []
  | x :: lst => consRev (simplFieldDecl x) (simplFieldDecls lst)

def simplVariant : Variant → Raising (String × TypeExpression)
  | .mk _ none => assertFalse -- `simpl_list_type_expression []`
  | .mk constr (some product) => do
    let te ← simplListTypeExpression product
    return (constr, te)

def simplVariants : List Variant → Raising (List (String × TypeExpression))
  | [] => pure []
  | v :: lst => consRev (simplVariant v) (simplVariants lst)

end

/-- `bind_map_option` on an annotation. -/
def simplTypeAnnotation : Option TypeAnnotation → Raising (Option TypeExpression)
  | none => pure none
  | some typeExpr => do
    let te ← simplTypeExpression typeExpr.value
    return some te

/-! ### Patterns -/

def getVar : Pattern → Raising String
  | .pVar v => pure v
  | _ => lift (simpleFail "not a var")

def getTuple : Pattern → List Pattern
  | .pTuple v => v.toList
  | x => [x]

def getSingle (t : Pattern) : Raising Pattern := do
  assertSingle "not single" (getTuple t)
  head (getTuple t)

def getConstr : Pattern → Raising (String × String)
  | .pConstr const patOpt => do
    let pat ← lift (traceOption "No constructor without variable yet" patOpt)
    let singlePat ← getSingle pat
    let var ← getVar singlePat
    return (const, var)
  | _ => lift (simpleFail "not a constr")

/-- A pattern of a clause has one component. -/
def clausePattern {α : Type} (x : Pattern × α) : Raising (Pattern × α) := do
  assertSingle "no tuple in patterns yet" (getTuple x.1)
  let p ← head (getTuple x.1)
  return (p, x.2)

def clauseConstr {α : Type} (x : Pattern × α) : Raising ((String × String) × α) := do
  let x' ← Raising.trace "Pattern" (getConstr x.1)
  return (x', x.2)

/-- The match on a list that two clauses make. -/
def matchListOf (sugarNil : List Pattern) (nil' : Expression) (a b : Pattern)
    (cons' : Expression) : Raising MatchingExpr := do
  lift (traceStrong "Only empty list patterns and cons are allowed yet"
    (if sugarNil.length = 0 then .ok () else simpleFail "lst isn't empty"))
  let a ← getVar a
  let b ← getVar b
  return .matchList nil' a b cons'

/-- The match that clauses of one pattern each make. -/
def matchPatterns : List (Pattern × Expression) → Raising MatchingExpr
  | [(.pFalse, f), (.pTrue, t)]
  | [(.pTrue, t), (.pFalse, f)] => pure (.matchBool t f)
  | [(.pCons a b, cons'), (.pSugar sugarNil, nil')]
  | [(.pSugar sugarNil, nil'), (.pCons a b, cons')] => matchListOf sugarNil nil' a b cons'
  | lst => Raising.trace "weird patterns not supported yet" do
    let constrs ← mapList clauseConstr lst
    return .matchVariant constrs

def simplCases (t : List (Pattern × Expression)) : Raising MatchingExpr := do
  let patterns ← mapList clausePattern t
  matchPatterns patterns

/-! ### Expressions -/

def simplProjection (teAnnot : Option TypeExpression) (p : Projection) : Raising Expression := do
  let e ← Simplify.Pascaligo.simplProjection p
  return makeOptionTyped e teAnnot

mutual

def simplExpression (teAnnot : Option TypeExpression) : Expr → Raising Expression
  | .eLetIn var lhsType letRhs body => do
    let typeAnnotation ← simplTypeAnnotation lhsType
    let rhs ← simplExpression typeAnnotation letRhs
    let body ← simplExpression none body
    return makeOptionTyped (.eLetIn var none rhs body) teAnnot
  | .eAnnot expr typeExpr =>
    match teAnnot with
    | none => do
      let teAnnot ← simplTypeExpression typeExpr
      simplExpression (some teAnnot) expr
    | some _ => lift (simpleFail "no double annotation")
  | .eVar c =>
    match constants.lookup c with
    | none => return makeOptionTyped (.eVariable c) teAnnot
    | some s => return makeOptionTyped (.eConstant s []) teAnnot
  | .eCall (.eVar f) ⟨hd, tl⟩ => do
    let args ← cons (simplExpression none hd) (simplElements tl)
    match constants.lookup f with
    | none => do
      let arg ← simplTupleExpression none ⟨hd, tl⟩
      return makeOptionTyped (.eApplication (.eVariable f) arg) teAnnot
    | some s => return makeOptionTyped (.eConstant s args) teAnnot
  | .eCall e1 ⟨hd, tl⟩ => do
    let _ ← cons (simplExpression none hd) (simplElements tl)
    let e1' ← simplExpression none e1
    let arg ← simplTupleExpression none ⟨hd, tl⟩
    return makeOptionTyped (.eApplication e1' arg) teAnnot
  | .ePar inside => simplExpression teAnnot inside
  | .eUnit => return makeOptionTyped (.eLiteral .unit) teAnnot
  | .eBytes x => return makeOptionTyped (.eLiteral (.bytes x)) teAnnot
  | .eTuple tpl => simplTupleExpression teAnnot tpl
  | .eRecord elements => do
    let fields ← simplFields elements
    return makeOptionTyped (.eRecord (SortedMap.ofList fields)) teAnnot
  | .eProj p => simplProjection teAnnot p
  | .eConstr c none => return makeOptionTyped (.eConstructor c (.eLiteral .unit)) teAnnot
  | .eConstr c (some arg) => do
    let arg ← simplExpression none arg
    return makeOptionTyped (.eConstructor c arg) teAnnot
  | .eArith op a b => do
    let a ← simplExpression none a
    let b ← simplExpression none b
    return makeOptionTyped (.eConstant (arithName op) [a, b]) teAnnot
  | .eInt n => do
    let n ← zToInt n
    return makeOptionTyped (.eLiteral (.int n)) teAnnot
  | .eNat n => do
    let n ← zToInt n
    return makeOptionTyped (.eLiteral (.nat n)) teAnnot
  | .eMtz n => do
    let n ← zToInt n
    return makeOptionTyped (.eLiteral (.tez n)) teAnnot
  | .eNeg _ => lift (simpleFail "arith: not supported yet")
  | .eString s => do
    let s' ← stringSub s.value 1 (s.value.length - 2)
    return makeOptionTyped (.eLiteral (.string s')) teAnnot
  | .eCat _ _ => lift (simpleFail "string: not supported yet")
  | .eLogic op a b => do
    let a ← simplExpression none a
    let b ← simplExpression none b
    return makeOptionTyped (.eConstant (logicName op) [a, b]) teAnnot
  | .eNot a => do
    let a ← simplExpression none a
    return makeOptionTyped (.eConstant "NOT" [a]) teAnnot
  | .eBool b => return makeOptionTyped (.eLiteral (.bool b)) teAnnot
  | .eCons a b => do
    let a ← simplExpression none a
    let b ← simplExpression none b
    return makeOptionTyped (.eConstant "CONS" [a, b]) teAnnot
  | .eList elements => do
    let lst' ← simplElements elements
    return makeOptionTyped (.eList lst') teAnnot
  | .eCase expr ⟨hd, tl⟩ => do
    let e ← simplExpression none expr
    let lst ← consRev (simplClause hd) (simplClauses tl)
    let cases' ← simplCases lst
    return makeOptionTyped (.eMatching e cases') teAnnot
  | .eFun param pAnnot (.eAnnot expr typeExpr) => do
    let inputType ← simplTypeAnnotation pAnnot
    let outputType ← simplTypeExpression typeExpr
    let result ← simplExpression none expr
    return makeOptionTyped (.eLambda param inputType inputType (some outputType) result) teAnnot
  | .eFun param pAnnot body => do
    let inputType ← simplTypeAnnotation pAnnot
    let result ← simplExpression none body
    return makeOptionTyped (.eLambda param inputType inputType none result) teAnnot
  | .eSeq [] => return makeOptionTyped .eSkip teAnnot
  | .eSeq (expr :: more) => simplMore teAnnot (simplExpression none expr) more
  | .eCond test ifso ifnot => do
    let expr ← simplExpression none test
    let matchTrue ← simplExpression none ifso
    let matchFalse ← simplExpression none ifnot
    return makeOptionTyped (.eMatching expr (.matchBool matchTrue matchFalse)) teAnnot

/-- `simpl_tuple_expression` on a list that is not empty. -/
def simplTupleExpression (teAnnot : Option TypeExpression) : Nseq Expr → Raising Expression
  | ⟨hd, []⟩ => simplExpression teAnnot hd
  | ⟨hd, tl⟩ => do
    let lst ← consRev (simplExpression none hd) (simplExpressions tl)
    return makeOptionTyped (.eTuple lst) teAnnot

def simplExpressions : List Expr → Raising (List Expression)
  | [] => pure []
  | e :: lst => consRev (simplExpression none e) (simplExpressions lst)

/-- `bind_map_list simpl_expression`. -/
def simplElements : List Expr → Raising (List Expression)
  | [] => pure []
  | e :: lst => cons (simplExpression none e) (simplElements lst)

/-- The expressions of a sequence after its first one, which is simplified already. -/
def simplMore (teAnnot : Option TypeExpression) (expr' : Raising Expression) :
    List Expr → Raising Expression
  | [] => expr'
  | e1 :: more => do
    let (a, e2') ← pair (simplExpression none e1) (simplMore teAnnot expr' more)
    return makeOptionTyped (.eSequence a e2') teAnnot

def simplField : String × Expr → Raising (String × Expression)
  | (k, v) => do
    let v ← simplExpression none v
    return (k, v)

def simplFields : List (String × Expr) → Raising (List (String × Expression))
  | [] => pure []
  | x :: lst => consRev (simplField x) (simplFields lst)

def simplClause : CaseClause Expr → Raising (Pattern × Expression)
  | ⟨pattern, rhs⟩ => do
    let expr ← simplExpression none rhs
    return (pattern, expr)

def simplClauses : List (CaseClause Expr) → Raising (List (Pattern × Expression))
  | [] => pure []
  | x :: lst => consRev (simplClause x) (simplClauses lst)

end

/-! ### Declarations -/

def simplDeclaration (t : Reg Declaration) : Raising (Reg AstSimplified.Declaration) :=
  match t.value with
  | .typeDecl name typeExpr => do
    let typeExpression ← simplTypeExpression typeExpr
    return ⟨t.region, .declarationType name typeExpression⟩
  | .letEntry _ => lift (simpleFail "no entry point yet")
  | .let' binding => do
    let typeAnnotation ← simplTypeAnnotation binding.lhsType
    let rhs ← simplExpression typeAnnotation binding.letRhs
    return ⟨t.region, .declarationConstant binding.var typeAnnotation rhs⟩

def simplProgram (t : Ast) : Raising (List (Reg AstSimplified.Declaration)) :=
  Raising.mapListRev simplDeclaration t.decl.toList

end Ligo.Simplify.Ligodity
