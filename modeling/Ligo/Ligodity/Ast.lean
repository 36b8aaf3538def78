import Ligo.Pascaligo.Ast

/-!
# The syntax tree of Ligodity

What the semantic actions of the parser build and the simplifier reads. Keywords, separators
and terminators are left out, the groups of the constructors of expressions are flattened, and
a construct that neither the parser nor the simplifier looks into has no content. Types,
projections and the operators are the ones of PascaLIGO.

A region is kept where it is read: a declaration has the location of its `let`, and the types
of two annotations are the same when they stand at the same place (`TypeAnnotation`).
-/

namespace Ligo.Ligodity

open Pascaligo (Nseq Reg Region StringLexeme Text)

namespace Raw

open Pascaligo.Raw (TypeExpr LogicOp ArithOp Projection)

/-- A type with its region. -/
abbrev TypeAnnotation := Reg TypeExpr

/-! ### Patterns -/

inductive Pattern where
  | pTuple (p : Nseq Pattern)
  | pSugar (elements : List Pattern)
  | pCons (a b : Pattern)
  | pVar (v : String)
  | pUnit
  | pInt
  | pTrue
  | pFalse
  | pString
  | pWild
  | pPar (inside : Pattern)
  | pConstr (constr : String) (p : Option Pattern)
  | pRecord
  | pTyped (pattern : Pattern) (typeExpr : TypeAnnotation)

/-- `'a case_clause`. -/
structure CaseClause (α : Type) where
  pattern : Pattern
  rhs : α

/-! ### Expressions -/

inductive Expr where
  | eCase (expr : Expr) (cases' : Nseq (CaseClause Expr))
  | eAnnot (expr : Expr) (typeExpr : TypeExpr)
  | eLogic (op : LogicOp) (arg1 arg2 : Expr)
  | eNot (arg : Expr)
  | eBool (b : Bool)
  | eArith (op : ArithOp) (arg1 arg2 : Expr)
  | eNeg (arg : Expr)
  | eInt (n : ℤ)
  | eNat (n : ℤ)
  | eMtz (n : ℤ)
  | eCat (arg1 arg2 : Expr)
  | eString (s : StringLexeme)
  | eCons (arg1 arg2 : Expr)
  | eList (elements : List Expr)
  | eConstr (constr : String) (arg : Option Expr)
  | eRecord (elements : List (String × Expr))
  | eProj (p : Projection)
  | eVar (v : String)
  | eCall (f : Expr) (args : Nseq Expr)
  | eBytes (lexeme : Text)
  | eUnit
  | eTuple (elements : Nseq Expr)
  | ePar (inside : Expr)
  | eLetIn (var : String) (lhsType : Option TypeAnnotation) (letRhs body : Expr)
  | eFun (param : String) (pAnnot : Option TypeAnnotation) (body : Expr)
  | eCond (test ifso ifnot : Expr)
  | eSeq (elements : List Expr)

/-! ### Declarations -/

structure LetBinding where
  var : String
  lhsType : Option TypeAnnotation
  letRhs : Expr

inductive Declaration where
  | let' (binding : LetBinding)
  | letEntry (binding : LetBinding)
  | typeDecl (name : String) (typeExpr : TypeExpr)

/-- `ast`: the declarations of a contract, with their regions. -/
structure Ast where
  decl : Nseq (Reg Declaration)

end Raw

end Ligo.Ligodity
