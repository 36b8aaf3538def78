import Ligo.AstTyped.Types

/-!
# Clauses of matches

`Covered` says of an expression that each of its matches on variants has a clause for every
constructor of its sum. It is stated of an expression and of its parts (`parts`), which are
the expressions that a translation of the expression looks at: neither the keys of map
accesses in assignments nor the environments are among them.
-/

namespace Ligo.AstTyped

/-- The expressions of the branches of a match. -/
def MatchingExpr.bodies : MatchingExpr → List AnnotatedExpression
  | .matchBool t f => [t, f]
  | .matchList n _ _ c => [n, c]
  | .matchOption n _ _ s => [n, s]
  | .matchTuple _ b => [b]
  | .matchVariant lst _ => lst.map Prod.snd

/-- The immediate parts of an expression. -/
def Expression.parts : Expression → List AnnotatedExpression
  | .eLiteral _ | .eVariable _ => []
  | .eConstant _ lst | .eTuple lst | .eList lst => lst
  | .eApplication f arg => [f, arg]
  | .eLambda (.mk _ _ _ result) => [result]
  | .eLetIn _ rhs result => [rhs, result]
  | .eTupleAccessor ae _ | .eRecordAccessor ae _ | .eConstructor _ ae | .eFailwith ae => [ae]
  | .eRecord m => m.map Prod.snd
  | .eMap m => m.map Prod.fst ++ m.map Prod.snd
  | .eLookUp ds i => [ds, i]
  | .eMatching ae m => ae :: m.bodies
  | .eSequence a b | .eLoop a b => [a, b]
  | .eAssign _ _ ae => [ae]

/-- A match on variants has a clause for every constructor of its sum. -/
def MatchingExpr.Covers : MatchingExpr → Prop
  | .matchVariant lst (.tSum m) => ∀ x ∈ m, x.1 ∈ lst.map fun c => c.1.1
  | _ => True

/-- The match at the head of an expression, if there is one, has all its clauses. -/
def Expression.CoversHere : Expression → Prop
  | .eMatching _ m => m.Covers
  | _ => True

/-- Every match on variants in the expression has all its clauses. -/
inductive Covered : AnnotatedExpression → Prop
  | mk {e t env} (here : e.CoversHere) (parts : ∀ ae ∈ e.parts, Covered ae) :
    Covered (.mk e t env)

/-- Whether the matches have all their clauses does not depend on the annotations. -/
theorem Covered.retype {e : Expression} {t t' : TypeValue} {env env' : FullEnvironment}
    (h : Covered (.mk e t env)) : Covered (.mk e t' env') := by
  cases h with
  | mk here parts => exact .mk here parts

end Ligo.AstTyped
