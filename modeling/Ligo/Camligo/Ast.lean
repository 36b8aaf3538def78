import Ligo.AstTyped.Types

/-!
# The syntax tree of Camligo

What the generated parser of Camligo produces. Source locations are left out. The expressions
that may not be a sequence (`expression_no_seq`) or a match (`expression_no_match`) are
expressions here, since `of_no_seq` and `of_no_match` embed them.
-/

namespace Ligo.Camligo.Ast

inductive TypeExpression where
  | tRecord (elements : List (String × TypeExpression))
  | tTuple (lst : List TypeExpression)
  | tApplication (arg f : TypeExpression)
  | tVariable (v : String)
  | tParen (te : TypeExpression)

inductive RestrictedTypeExpression where
  | trApplication (arg f : RestrictedTypeExpression)
  | trVariable (v : String)
  | trParen (te : TypeExpression)

inductive Pattern where
  | pRecord (elements : List (String × Pattern))
  | pTypeAnnotated (p : Pattern) (te : RestrictedTypeExpression)
  | pPair (a b : Pattern)
  | pDataStructure (kind : String) (content : List Pattern)
  | pApplication (a b : Pattern)
  | pVariable (v : String)
  | pConstructor (c : String)
  | pModuleIdent (lst : List String) (v : String)
  | pUnit
  | pParen (p : Pattern)

inductive RestrictedPattern where
  | prVariable (v : String)
  | prUnit
  | prRestrict (p : Pattern)

inductive Param where
  | paramRestrictedPattern (p : RestrictedPattern)
  | paramImplicitNamedParam (v : String)

/-- The binary operators of `expression_main`. -/
inductive Binop where
  | lt | le | gt | eq | neq | assign | cons | addition | substraction | multiplication | division

/-- `e_match_clause`. -/
structure MatchClause (α : Type) where
  pattern : Pattern
  rhs : α

mutual

inductive Expression where
  | eSequence (lst : List Expression)
  | eLetIn (pattern : Pattern) (expr body : Expression)
  | eFun (pattern : Pattern) (expr : Expression)
  | eRecord (elements : List RecordElement)
  | eIfthenelse (cond branchTrue branchFalse : Expression)
  | eIfthen (cond branchTrue : Expression)
  | eMatch (expr : Expression) (clauses : List (MatchClause Expression))
  | eMain (em : ExpressionMain)

inductive RecordElement where
  | recordExplicit (s : String) (e : Expression)
  | recordImplicit (s : String)

inductive ExpressionMain where
  | ehTuple (lst : List ExpressionMain)
  | ehTypeAnnotated (e : ExpressionMain) (te : RestrictedTypeExpression)
  | ehBinop (op : Binop) (a b : ExpressionMain)
  | ehApplication (f arg : ExpressionMain)
  | ehDataStructure (kind : String) (content : List ExpressionMain)
  | ehName (e : ExpressionMain)
  | ehVariable (v : String)
  | ehConstructor (c : String)
  | ehModuleIdent (lst : List String) (v : String)
  | ehAccessor (src : String) (path : List String)
  | ehInt (n : OInt)
  | ehUnit
  | ehString (s : String)
  | ehTz (n : OInt)
  | ehBottom (e : Expression)

end

structure LetContent where
  name : String
  args : List Param
  tyOpt : Option TypeExpression
  expr : Expression

inductive Statement where
  | variableDeclaration (l : LetContent)
  | initDeclaration (l : LetContent)
  | entryDeclaration (l : LetContent)
  | typeDeclaration (n : String) (te : TypeExpression)

end Ligo.Camligo.Ast
