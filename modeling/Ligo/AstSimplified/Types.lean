import Ligo.AstTyped.Types
import Ligo.Library.SortedMap
import Mathlib.Data.String.Basic

/-!
# The simplified source language

What the type checker reads: expressions with the type annotations of the program, whose
types may be names of declared types. The literals are those of the typed language.
-/

namespace Ligo.AstSimplified

open AstTyped (Literal)

/-- `type_expression`. -/
inductive TypeExpression where
  | tTuple (lst : List TypeExpression)
  | tSum (m : List (String × TypeExpression))
  | tRecord (m : List (String × TypeExpression))
  | tFunction (a b : TypeExpression)
  | tVariable (name : String)
  | tConstant (name : String) (lst : List TypeExpression)

mutual

inductive Expression where
  | eLiteral (l : Literal)
  | eConstant (name : String) (lst : List Expression)
  | eVariable (name : String)
  | eLambda (binder : String) (binderType inputType outputType : Option TypeExpression)
      (result : Expression)
  | eApplication (f arg : Expression)
  | eLetIn (binder : String) (binderType : Option TypeExpression) (rhs result : Expression)
  | eTuple (lst : List Expression)
  | eConstructor (name : String) (expr : Expression)
  | eRecord (m : List (String × Expression))
  | eAccessor (expr : Expression) (path : List Access)
  | eMap (lst : List (Expression × Expression))
  | eList (lst : List Expression)
  | eLookUp (ds ind : Expression)
  | eMatching (expr : Expression) (m : MatchingExpr)
  | eFailwith (expr : Expression)
  | eSequence (a b : Expression)
  | eLoop (expr body : Expression)
  | eAssign (name : String) (path : List Access) (expr : Expression)
  | eSkip
  | eAnnotated (expr : Expression) (te : TypeExpression)

inductive Access where
  | tuple (index : ℤ)
  | record (property : String)
  | map (expr : Expression)

inductive MatchingExpr where
  | matchBool (matchTrue matchFalse : Expression)
  | matchList (matchNil : Expression) (hd tl : String) (matchCons : Expression)
  | matchOption (matchNone : Expression) (name : String) (matchSome : Expression)
  | matchTuple (lst : List String) (body : Expression)
  | matchVariant (lst : List ((String × String) × Expression))

end

/-- `make_option_typed`. -/
def makeOptionTyped (e : Expression) : Option TypeExpression → Expression
  | none => e
  | some t => .eAnnotated e t

inductive Declaration where
  | declarationType (name : String) (te : TypeExpression)
  | declarationConstant (name : String) (te : Option TypeExpression) (expr : Expression)

abbrev Program := List Declaration

/-- The bindings of every sum and record ascend in their keys. -/
inductive TypeExpression.Wf : TypeExpression → Prop
  | tuple {lst} (h : ∀ t ∈ lst, Wf t) : Wf (.tTuple lst)
  | sum {m : List (String × TypeExpression)} (hm : SortedMap.Sorted m) (h : ∀ x ∈ m, Wf x.2) :
    Wf (.tSum m)
  | record {m : List (String × TypeExpression)} (hm : SortedMap.Sorted m)
    (h : ∀ x ∈ m, Wf x.2) : Wf (.tRecord m)
  | function {a b} (ha : Wf a) (hb : Wf b) : Wf (.tFunction a b)
  | variable' {name} : Wf (.tVariable name)
  | constant {name lst} (h : ∀ t ∈ lst, Wf t) : Wf (.tConstant name lst)

/-! ### Induction -/

/-- Induction on an expression. The type checker looks into a `failwith` in the true branch
of a match on a boolean. -/
@[elab_as_elim]
theorem Expression.ind {P : Expression → Prop}
    (literal : ∀ l, P (.eLiteral l))
    (constant : ∀ name lst, (∀ e ∈ lst, P e) → P (.eConstant name lst))
    (variable' : ∀ name, P (.eVariable name))
    (lambda : ∀ b bt it ot r, P r → P (.eLambda b bt it ot r))
    (application : ∀ f arg, P f → P arg → P (.eApplication f arg))
    (letIn : ∀ b bt rhs r, P rhs → P r → P (.eLetIn b bt rhs r))
    (tuple : ∀ lst, (∀ e ∈ lst, P e) → P (.eTuple lst))
    (constructor' : ∀ name e, P e → P (.eConstructor name e))
    (record : ∀ m : List (String × Expression), (∀ x ∈ m, P x.2) → P (.eRecord m))
    (accessor : ∀ e path, P e → (∀ key, Access.map key ∈ path → P key) → P (.eAccessor e path))
    (map : ∀ m : List (Expression × Expression), (∀ x ∈ m, P x.1 ∧ P x.2) → P (.eMap m))
    (list : ∀ lst, (∀ e ∈ lst, P e) → P (.eList lst))
    (lookUp : ∀ ds i, P ds → P i → P (.eLookUp ds i))
    (matchBool : ∀ e a b, P e → P a → (∀ fw, a = .eFailwith fw → P fw) → P b →
      P (.eMatching e (.matchBool a b)))
    (matchList : ∀ e n hd tl c, P e → P n → P c → P (.eMatching e (.matchList n hd tl c)))
    (matchOption : ∀ e n name s, P e → P n → P s → P (.eMatching e (.matchOption n name s)))
    (matchTuple : ∀ e lst b, P e → P b → P (.eMatching e (.matchTuple lst b)))
    (matchVariant : ∀ e lst, P e → (∀ x ∈ lst, P x.2) → P (.eMatching e (.matchVariant lst)))
    (failwith : ∀ e, P e → P (.eFailwith e))
    (sequence : ∀ a b, P a → P b → P (.eSequence a b))
    (loop : ∀ e b, P e → P b → P (.eLoop e b))
    (assign : ∀ name path e, P e → P (.eAssign name path e))
    (skip : P .eSkip)
    (annotated : ∀ e te, P e → P (.eAnnotated e te)) (e : Expression) : P e :=
  (@Expression.rec (fun e => P e ∧ ∀ fw, e = .eFailwith fw → P fw)
    (fun a => ∀ key, a = .map key → P key) (fun m => ∀ e, P e → P (.eMatching e m))
    (fun lst => ∀ e ∈ lst, P e) (fun m => ∀ x ∈ m, P x.2)
    (fun path => ∀ key, Access.map key ∈ path → P key)
    (fun m => ∀ x ∈ m, P x.1 ∧ P x.2) (fun lst => ∀ x ∈ lst, P x.2)
    (fun x => P x.2) (fun x => P x.1 ∧ P x.2) (fun x => P x.2)
    (fun l => ⟨literal l, nofun⟩) (fun name lst h => ⟨constant name lst h, nofun⟩)
    (fun name => ⟨variable' name, nofun⟩)
    (fun b bt it ot r h => ⟨lambda b bt it ot r h.1, nofun⟩)
    (fun f arg hf harg => ⟨application f arg hf.1 harg.1, nofun⟩)
    (fun b bt rhs r hrhs hr => ⟨letIn b bt rhs r hrhs.1 hr.1, nofun⟩)
    (fun lst h => ⟨tuple lst h, nofun⟩) (fun name e h => ⟨constructor' name e h.1, nofun⟩)
    (fun m h => ⟨record m h, nofun⟩) (fun e path he hpath => ⟨accessor e path he.1 hpath, nofun⟩)
    (fun m h => ⟨map m h, nofun⟩) (fun lst h => ⟨list lst h, nofun⟩)
    (fun ds i hds hi => ⟨lookUp ds i hds.1 hi.1, nofun⟩) (fun e _ he hm => ⟨hm e he.1, nofun⟩)
    (fun e h => ⟨failwith e h.1, fun _ heq => Expression.eFailwith.inj heq ▸ h.1⟩)
    (fun a b ha hb => ⟨sequence a b ha.1 hb.1, nofun⟩)
    (fun e b he hb => ⟨loop e b he.1 hb.1, nofun⟩)
    (fun name path e _ h => ⟨assign name path e h.1, nofun⟩) ⟨skip, nofun⟩
    (fun e te h => ⟨annotated e te h.1, nofun⟩)
    (fun _ _ h => nomatch h) (fun _ _ h => nomatch h)
    (fun _ hkey _ h => Access.map.inj h ▸ hkey.1)
    (fun a b ha hb e he => matchBool e a b he ha.1 ha.2 hb.1)
    (fun n hd tl c hn hc e he => matchList e n hd tl c he hn.1 hc.1)
    (fun n name s hn hs e he => matchOption e n name s he hn.1 hs.1)
    (fun lst b hb e he => matchTuple e lst b he hb.1)
    (fun lst h e he => matchVariant e lst he h)
    (by simp) (fun _ _ h hs => List.forall_mem_cons.2 ⟨h.1, hs⟩)
    (by simp) (fun _ _ h hs => List.forall_mem_cons.2 ⟨h, hs⟩)
    (by simp) (fun a path ha hpath key h => by
      obtain h | h := List.mem_cons.1 h
      · exact ha key h.symm
      · exact hpath key h)
    (by simp) (fun _ _ h hs => List.forall_mem_cons.2 ⟨h, hs⟩)
    (by simp) (fun _ _ h hs => List.forall_mem_cons.2 ⟨h, hs⟩)
    (fun _ _ h => h.1) (fun _ _ h₁ h₂ => ⟨h₁.1, h₂.1⟩) (fun _ _ h => h.1) e).1

end Ligo.AstSimplified
