import Ligo.Pascaligo.Region

/-!
# The syntax tree of PascaLIGO

What the parser hands to the simplifier. Regions, keywords, separators and terminators are
left out, the groups of the constructors of expressions (`logic_expr`, `arith_expr`,
`list_expr`, …) are flattened, and a construct that the simplifier rejects without looking
into it has no content. A sequence that may be empty (`sepseq`, the elements of an
injection) is a list.

A lexeme of a string literal has its quotes (`StringLexeme`).
-/

namespace Ligo.Pascaligo

/-- `nseq` and `nsepseq`: a sequence of at least one element. -/
structure Nseq (α : Type) where
  hd : α
  tl : List α

/-- `nseq_to_list` and `npseq_to_list`. -/
def Nseq.toList {α : Type} (s : Nseq α) : List α := s.hd :: s.tl

/-- The lexeme of a string literal. -/
structure StringLexeme where
  value : String
  quoted : ∃ body : List Char, value.toList = '"' :: body ++ ['"']

namespace Raw

/-! ### Types -/

mutual

inductive TypeExpr where
  | tProd (cartesian : Nseq TypeExpr)
  | tSum (variants : Nseq Variant)
  | tRecord (elements : List FieldDecl)
  | tApp (name : String) (tuple : Nseq TypeExpr)
  | tFun (a b : TypeExpr)
  | tPar (inside : TypeExpr)
  | tAlias (v : String)

inductive Variant where
  | mk (constr : String) (args : Option (Nseq TypeExpr))

inductive FieldDecl where
  | mk (fieldName : String) (fieldType : TypeExpr)

end

/-! ### Patterns -/

inductive Pattern where
  | pCons (p : Nseq Pattern)
  | pConstr (constr : String) (p : Pattern)
  | pVar (v : String)
  | pWild
  | pInt
  | pBytes
  | pString
  | pUnit
  | pFalse
  | pTrue
  | pNone
  | pSome (inside : Pattern)
  | pSugar
  | pNil
  | pRaw
  | pTuple (p : Nseq Pattern)

/-- `'a case_clause`. -/
structure CaseClause (α : Type) where
  pattern : Pattern
  rhs : α

/-! ### Expressions -/

/-- The binary operators of `bool_expr` and `comp_expr`. -/
inductive LogicOp where
  | or | and | lt | leq | gt | geq | equal | neq

/-- The binary operators of `arith_expr`. -/
inductive ArithOp where
  | add | sub | mult | div | mod

inductive Selection where
  | fieldName (property : String)
  | component (index : ℤ)

structure Projection where
  structName : String
  fieldPath : Nseq Selection

inductive Path where
  | name (v : String)
  | path (p : Projection)

inductive Expr where
  | eCase (expr : Expr) (cases : Nseq (CaseClause Expr))
  | eAnnot (expr : Expr) (typeExpr : TypeExpr)
  | eLogic (op : LogicOp) (arg1 arg2 : Expr)
  | eNot (arg : Expr)
  | eBool (b : Bool)
  | eArith (op : ArithOp) (arg1 arg2 : Expr)
  | eNeg (arg : Expr)
  | eInt (n : ℤ)
  | eNat (n : ℤ)
  | eMtz (n : ℤ)
  | eCat (arg1 arg2 : Expr)
  | eString (s : StringLexeme)
  | eCons (arg1 arg2 : Expr)
  | eList (elements : List Expr)
  | eNil
  | eSet
  | eConstrApp (constr : String) (args : Nseq Expr)
  | eSomeApp (args : Nseq Expr)
  | eNoneExpr
  | eRecord (elements : List (String × Expr))
  | eProj (p : Projection)
  | eMapLookUp (path : Path) (index : Expr)
  | eMapInj (elements : List (Expr × Expr))
  | eVar (v : String)
  | eCall (name : String) (args : Nseq Expr)
  | eBytes (lexeme : Text)
  | eUnit
  | eTuple (inside : Nseq Expr)
  | ePar (inside : Expr)

/-! ### Statements -/

structure ConstDecl where
  name : String
  constType : TypeExpr
  init : Expr

structure VarDecl where
  name : String
  varType : TypeExpr
  init : Expr

inductive DataDecl where
  | localConst (x : ConstDecl)
  | localVar (x : VarDecl)

inductive Lhs where
  | path (p : Path)
  | mapPath (path : Path) (index : Expr)

inductive Rhs where
  | expr (e : Expr)
  | noneExpr

mutual

inductive Statement where
  | instr (i : Instruction)
  | data (d : DataDecl)

inductive Instruction where
  | single (s : SingleInstr)
  | block (statements : Nseq Statement)

inductive SingleInstr where
  | cond (test : Expr) (ifso ifnot : IfClause)
  | caseInstr (expr : Expr) (cases : Nseq (CaseClause Instruction))
  | assign (lhs : Lhs) (rhs : Rhs)
  | whileLoop (cond : Expr) (block : Nseq Statement)
  | forLoop
  | procCall
  | fail (failExpr : Expr)
  | skip
  | recordPatch (path : Path) (recordInj : List (String × Expr))
  | mapPatch
  | setPatch
  | mapRemove (key : Expr) (map : Path)
  | setRemove

inductive IfClause where
  | clauseInstr (i : Instruction)
  | clauseBlock (inside : Nseq Statement)

end

/-! ### Declarations -/

structure ParamConst where
  var : String
  paramType : TypeExpr

structure ParamVar where
  var : String
  paramType : TypeExpr

inductive ParamDecl where
  | paramConst (c : ParamConst)
  | paramVar (v : ParamVar)

mutual

inductive FunDecl where
  | mk (name : String) (param : Nseq ParamDecl) (retType : TypeExpr)
      (localDecls : List LocalDecl) (block : Nseq Statement) (return' : Expr)

inductive LocalDecl where
  | localLam (l : LambdaDecl)
  | localData (d : DataDecl)

inductive LambdaDecl where
  | funDecl (f : FunDecl)
  | procDecl
  | entryDecl

end

inductive Declaration where
  | typeDecl (name : String) (typeExpr : TypeExpr)
  | constDecl (x : ConstDecl)
  | lambdaDecl (l : LambdaDecl)

/-- `ast`: the declarations of a contract. -/
structure Ast where
  decl : Nseq Declaration

end Raw

end Ligo.Pascaligo
