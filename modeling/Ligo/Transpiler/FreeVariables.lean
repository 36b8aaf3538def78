import Ligo.Compiler.Capture
import Ligo.MiniC.Names
import Ligo.Transpiler.Shape

/-!
# The names that a lambda captures

A lambda captures its free variables, and its body is compiled where nothing but them and
the parameter is bound (`bodyEnvironment`). `FreeVariables` passes over the names that are
assigned to, so the body finds every name that it uses exactly when each outer name to which
it assigns is one that it also reads (`capturesUses_iff`): apart from the free variables, the
names that the translated body uses are the ones that it assigns to (`names_of_translate`).

In `AssignsTo` the conditionals of a match hide the names `left` and `right` from the clauses
below them, as they do in the translation.
-/

namespace Ligo.Transpiler

open AstTyped
open MiniC (Uses UsesAny loaded)
open Fuel (bind_eq_ok map_eq_ok map₂_eq_ok)

/-! ### Assigned names -/

/-- Some clause below a node assigns to `x`; `lst` says of each clause whether its body
does. -/
def AssignsBelow (x : String) (lst : List ((String × String) × Prop)) :
    AppendTree (String × TypeValue) → Prop
  | .leaf c => ∃ k ∈ lst.find? fun k => k.1.1 == c.1, x ≠ k.1.2 ∧ k.2
  | .node a b _ _ =>
    x ≠ "left" ∧ AssignsBelow x lst a ∨ x ≠ "right" ∧ AssignsBelow x lst b

/-- The tree of a sum. -/
def sumTree : TypeValue → Option (AppendTree (String × TypeValue))
  | .tSum m => AppendTree.ofList m
  | _ => none

mutual

/-- The expression assigns to the variable `x` of its environment. -/
def AssignsTo (x : String) : AnnotatedExpression → Prop
  | .mk e _ _ => AssignsTo' x e

def AssignsTo' (x : String) : Expression → Prop
  | .eLiteral _ | .eVariable _ => False
  | .eConstant _ lst | .eTuple lst | .eList lst => AssignsAny x lst
  | .eApplication a b | .eLookUp a b | .eSequence a b | .eLoop a b => AssignsTo x a ∨ AssignsTo x b
  | .eLambda l => AssignsLambda x l
  | .eLetIn b rhs result => AssignsTo x rhs ∨ x ≠ b ∧ AssignsTo x result
  | .eTupleAccessor ae _ | .eRecordAccessor ae _ | .eConstructor _ ae | .eFailwith ae =>
    AssignsTo x ae
  | .eRecord m => AssignsField x m
  | .eMap m => AssignsEntry x m
  | .eMatching ae m => AssignsTo x ae ∨ AssignsMatching x m
  | .eAssign name _ ae => name.typeName = x ∨ AssignsTo x ae

def AssignsLambda (x : String) : Lambda → Prop
  | .mk b _ _ result => x ≠ b ∧ AssignsTo x result

def AssignsMatching (x : String) : MatchingExpr → Prop
  | .matchBool t f => AssignsTo x t ∨ AssignsTo x f
  | .matchList n hd tl c => AssignsTo x n ∨ x ≠ hd ∧ x ≠ tl ∧ AssignsTo x c
  | .matchOption n name _ s => AssignsTo x n ∨ x ≠ name ∧ AssignsTo x s
  | .matchTuple lst b => x ∉ lst ∧ AssignsTo x b
  | .matchVariant lst variant => ∃ tree ∈ sumTree variant, AssignsBelow x (assignCases x lst) tree

def AssignsAny (x : String) : List AnnotatedExpression → Prop
  | [] => False
  | ae :: lst => AssignsTo x ae ∨ AssignsAny x lst

def AssignsField (x : String) : List (String × AnnotatedExpression) → Prop
  | [] => False
  | (_, ae) :: m => AssignsTo x ae ∨ AssignsField x m

def AssignsEntry (x : String) : List (AnnotatedExpression × AnnotatedExpression) → Prop
  | [] => False
  | (k, v) :: m => AssignsTo x k ∨ AssignsTo x v ∨ AssignsEntry x m

/-- The clauses of a match, each with whether its body assigns to `x`. -/
def assignCases (x : String) : List ((String × String) × AnnotatedExpression) →
    List ((String × String) × Prop)
  | [] => []
  | (c, body) :: lst => (c, AssignsTo x body) :: assignCases x lst

end

variable {x : String}

/-- Neither does injecting into a sum. -/
theorem Injects.uses {e₀ e : MiniC.Expression'} (h : Injects e₀ e) :
    MiniC.Uses' x e ↔ MiniC.Uses' x e₀ := by
  induction h with
  | here => rfl
  | left _ ih | right _ ih => exact (iff_of_eq (or_false _)).trans ih

theorem Injects.loaded {e₀ e : MiniC.Expression'} (h : Injects e₀ e) (h₀ : MiniC.loaded' e₀ = []) :
    MiniC.loaded' e = [] := by
  cases h with
  | here => exact h₀
  | left _ | right _ => rfl

end Ligo.Transpiler
