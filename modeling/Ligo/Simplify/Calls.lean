import Ligo.Ligodity.Parser
import Ligo.Simplify.Captures
import Ligo.Simplify.Ligodity

/-!
# Functions and calls in Ligodity

The parser nests the functions of several parameters, one in the other, and the simplifier
gathers the arguments of a call in a tuple; a call of a name that is reserved for a constant
is this constant, and so is a reserved name that occurs in a body. So a call comes to the body
of its function, with the parameters bound to the arguments (`CallsBind`), exactly when there
is one parameter, the name of the function is not reserved and no reserved name that occurs in
the body is the parameter (`callsBind_iff`).

The names that occur in a body are collected from the source (`exprUses`), as they are for the
functions of the other front ends. An annotation that is handed down to an expression does not
change its value (`sameValue_simplExpression`), which is why a function may leave out the one
on its body.
-/

namespace Ligo.Simplify.Ligodity

open Ligo.Pascaligo (Nseq)
open Ligo.Ligodity (normFunExpr funExpr)
open Ligo.Ligodity.Raw
open AstSimplified (Expression TypeExpression Value Env Enters Interpretation eval evalList
  makeOptionTyped applyClosure)
open Operators.Simplify.Pascaligo (constants)
open Raising (bind_eq_pure pair_eq_pure consRev_eq_pure)
open Scope (lookup)

/-! ### Annotations and values -/

/-- When the first computation returns an expression, the second one returns an expression of
the same value. -/
def SameValue (x y : Raising Expression) : Prop :=
  ∀ a, x = pure a → ∃ b, y = pure b ∧ ∀ I ρ, eval I a ρ = eval I b ρ

section SameValue

variable {α : Type} {e : Expression} {te te' : Option TypeExpression}

/-- Annotations do not change what an expression evaluates to. -/
theorem eval_makeOptionTyped (I : Interpretation) (ρ : Env) :
    eval I (makeOptionTyped e te) ρ = eval I e ρ := by
  cases te <;> rfl

theorem sameValue_annotated :
    SameValue (pure (makeOptionTyped e te)) (pure (makeOptionTyped e te')) := by
  rintro _ ⟨⟩
  refine ⟨_, rfl, fun I ρ => ?_⟩
  rw [eval_makeOptionTyped, eval_makeOptionTyped]

/-- Simplifications that differ in annotations only, one after another. -/
theorem sameValue_bind {x : Raising α} {f g : α → Raising Expression}
    (h : ∀ a, SameValue (f a) (g a)) : SameValue (x >>= f) (x >>= g) := by
  intro a ha
  obtain ⟨c, rfl, ha⟩ := bind_eq_pure.1 ha
  exact h c a ha

theorem SameValue.refl (x : Raising Expression) : SameValue x x :=
  fun a ha => ⟨a, ha, fun _ _ => rfl⟩

/-- The nodes of a sequence may be annotated. -/
theorem sameValue_simplMore (expr' : Raising Expression) (more : List Expr) :
    SameValue (simplMore te expr' more) (simplMore te' expr' more) := by
  induction more with
  | nil => exact .refl expr'
  | cons e1 more ih =>
    intro a ha
    obtain ⟨⟨c, d⟩, hcd, ha⟩ := bind_eq_pure.1 ha
    cases ha
    obtain ⟨hc, hd⟩ := pair_eq_pure.1 hcd
    obtain ⟨d', hd', heval⟩ := ih d hd
    refine ⟨_, bind_eq_pure.2 ⟨(c, d'), pair_eq_pure.2 ⟨hc, hd'⟩, rfl⟩, fun I ρ => ?_⟩
    rw [eval_makeOptionTyped, eval_makeOptionTyped]
    show (eval I c ρ >>= fun r => eval I d r.2) = eval I c ρ >>= fun r => eval I d' r.2
    exact congrArg _ (funext fun r => heval I r.2)

/-- The annotation of an expression does not change its value. -/
theorem sameValue_simplExpression (te : Option TypeExpression) :
    ∀ e : Expr, SameValue (simplExpression te e) (simplExpression none e)
  | .eLetIn _ _ _ _ => sameValue_bind fun _ => sameValue_bind fun _ => sameValue_bind fun _ =>
    sameValue_annotated
  | .eAnnot e t => by
    cases te with
    | none => exact .refl _
    | some _ => exact fun a ha => nomatch ha
  | .eVar c => by
    rw [simplExpression, simplExpression]
    split <;> exact sameValue_annotated
  | .eCall f ⟨hd, tl⟩ => by
    cases f with
    | eVar f =>
      rw [simplExpression, simplExpression]
      refine sameValue_bind fun _ => ?_
      split
      · exact sameValue_bind fun _ => sameValue_annotated
      · exact sameValue_annotated
    | _ => exact sameValue_bind fun _ => sameValue_bind fun _ => sameValue_bind fun _ =>
        sameValue_annotated
  | .ePar inside => sameValue_simplExpression te inside
  | .eUnit | .eBytes _ | .eConstr _ none | .eBool _ | .eSeq [] => sameValue_annotated
  | .eTuple ⟨hd, []⟩ => sameValue_simplExpression te hd
  | .eTuple ⟨hd, e :: tl⟩ => sameValue_bind fun _ => sameValue_annotated
  | .eRecord _ | .eProj _ | .eConstr _ (some _) | .eInt _ | .eNat _ | .eMtz _ | .eString _ | .eNot _
  | .eList _ => sameValue_bind fun _ => sameValue_annotated
  | .eArith _ _ _ | .eLogic _ _ _ | .eCons _ _ =>
    sameValue_bind fun _ => sameValue_bind fun _ => sameValue_annotated
  | .eNeg _ | .eCat _ _ => .refl _
  | .eCase _ ⟨_, _⟩ | .eCond _ _ _ => sameValue_bind fun _ => sameValue_bind fun _ =>
    sameValue_bind fun _ => sameValue_annotated
  | .eFun _ _ body => by
    cases body with
    | eAnnot _ _ => exact sameValue_bind fun _ => sameValue_bind fun _ => sameValue_bind fun _ =>
        sameValue_annotated
    | _ => exact sameValue_bind fun _ => sameValue_bind fun _ => sameValue_annotated
  | .eSeq (_ :: more) => sameValue_simplMore _ more

end SameValue

/-! ### Names in Ligodity -/

open Use (removing)

mutual

def patternNames : Pattern → List String
  | .pVar v => [v]
  | .pTuple ⟨hd, tl⟩ => patternNames hd ++ patternsNames tl
  | .pSugar elements => patternsNames elements
  | .pCons a b => patternNames a ++ patternNames b
  | .pPar p | .pConstr _ (some p) | .pTyped p _ => patternNames p
  | _ => []

def patternsNames : List Pattern → List String
  | [] => []
  | p :: lst => patternNames p ++ patternsNames lst

end

mutual

/-- The names that are free in an expression. -/
def exprUses : Expr → List Use
  | .eVar c => [Pascaligo.identifierUse c]
  | .eCall f ⟨hd, tl⟩ => exprUses f ++ exprUses hd ++ exprsUses tl
  | .eProj p => [.variable' p.structName]
  | .eCase expr ⟨hd, tl⟩ => exprUses expr ++ clauseUses hd ++ clausesUses tl
  | .eLetIn var _ letRhs body => exprUses letRhs ++ removing [var] (exprUses body)
  | .eFun param _ body => removing [param] (exprUses body)
  | .eAnnot e _ | .ePar e | .eNot e | .eNeg e | .eConstr _ (some e) => exprUses e
  | .eLogic _ a b | .eArith _ a b | .eCons a b | .eCat a b => exprUses a ++ exprUses b
  | .eCond test ifso ifnot => exprUses test ++ exprUses ifso ++ exprUses ifnot
  | .eTuple ⟨hd, tl⟩ => exprUses hd ++ exprsUses tl
  | .eList elements | .eSeq elements => exprsUses elements
  | .eRecord elements => fieldsUses elements
  | .eUnit | .eBytes _ | .eConstr _ none | .eInt _ | .eNat _ | .eMtz _ | .eString _ | .eBool _ => []

def exprsUses : List Expr → List Use
  | [] => []
  | e :: lst => exprUses e ++ exprsUses lst

def fieldUses : String × Expr → List Use
  | (_, e) => exprUses e

def fieldsUses : List (String × Expr) → List Use
  | [] => []
  | x :: lst => fieldUses x ++ fieldsUses lst

def clauseUses : CaseClause Expr → List Use
  | ⟨pattern, rhs⟩ => removing (patternNames pattern) (exprUses rhs)

def clausesUses : List (CaseClause Expr) → List Use
  | [] => []
  | x :: lst => clauseUses x ++ clausesUses lst

end

/-! ### Functions -/

/-- The body of a function, without its type. -/
def untyped : Expr → Expr
  | .eAnnot expr _ => expr
  | expr => expr

/-- Evaluating a call in `ρ` comes, through the function and the argument, to evaluating `e'`
in `ρ'`, one level of calls below. -/
inductive EntersCall (constant : String → List Value → AstSimplified.Answer Value) (depth : ℕ) :
    Expression → Env → Expression → Env → Prop
  | application {f arg : Expression} {ρ ρ₀ ρ₁ ρ₂ : Env} {binder : String} {result : Expression}
      {w : Value} {e' : Expression} {ρ' : Env}
      (hf : eval (.ofDepth constant (depth + 1)) f ρ = .ok (.closure ρ₀ binder result, ρ₁))
      (harg : eval (.ofDepth constant (depth + 1)) arg ρ₁ = .ok (w, ρ₂))
      (h : Enters (.ofDepth constant depth) result ((binder, w) :: ρ₀) e' ρ') :
      EntersCall constant depth (.eApplication f arg) ρ e' ρ'

/-- A call of `f`, where `f` is bound to the function of the parameters `ps` and a body, comes
to the body with each parameter bound to the value of its own argument, and every other name
that occurs as outside of the function. Its value is the one of the body there. -/
def CallsBind (f : String) (ps : Nseq String) (body : Expr) (body' : Expression) : Prop :=
  ∀ (n : ℕ) (args : Nseq Expr) (args' : List Expression),
    args.toList.length = ps.toList.length →
    List.Forall₂ (fun a e => simplExpression none a = pure e) args.toList args' →
    ∃ fn n' fn' call result,
      normFunExpr ⟨.pVar ps.hd, ps.tl.map .pVar⟩ body n = .ok (fn, n') ∧
      simplExpression none fn = pure fn' ∧
      simplExpression none (.eCall (.eVar f) args) = pure call ∧
      simplExpression none (untyped body) = pure result ∧
      ∀ constant depth ρ₀ w ρ vs ρ₁,
        eval (.ofDepth constant (depth + 1)) fn' ρ₀ = .ok (w, ρ₀) → lookup f ρ = some w →
        evalList (.ofDepth constant (depth + 1)) args' ρ = .ok (vs, ρ₁) →
        ∃ ρ', EntersCall constant depth call ρ result ρ' ∧
          eval (.ofDepth constant (depth + 1)) call ρ =
            (eval (.ofDepth constant depth) body' ρ').map (fun r => (r.1, ρ₁)) ∧
          ∀ u ∈ exprUses body, u.Means ps.toList ρ' (ps.toList.zip vs ++ ρ₀)

/-- The function of one parameter. -/
theorem simplExpression_eFun {body : Expr} {body' : Expression} (param : String)
    (h : simplExpression none body = pure body') :
    ∃ outputType result, simplExpression none (.eFun param none body) =
        pure (.eLambda param none none outputType result) ∧
      simplExpression none (untyped body) = pure result ∧
      ∀ I ρ, eval I result ρ = eval I body' ρ := by
  cases body with
  | eAnnot e t =>
    -- the function keeps the type of the body and leaves out the annotation
    obtain ⟨te, hte, h⟩ := bind_eq_pure.1 h
    obtain ⟨result, hresult, heval⟩ := sameValue_simplExpression (some te) e body' h
    refine ⟨some te, result, ?_, hresult, fun I ρ => (heval I ρ).symm⟩
    refine bind_eq_pure.2 ⟨none, rfl, bind_eq_pure.2 ⟨te, hte, ?_⟩⟩
    exact bind_eq_pure.2 ⟨result, hresult, rfl⟩
  | _ => exact ⟨none, body', bind_eq_pure.2 ⟨none, rfl, bind_eq_pure.2 ⟨body', h, rfl⟩⟩, h,
      fun _ _ => rfl⟩

/-- A function of one variable. -/
theorem normFunExpr_single (x : String) (body : Expr) (n : ℕ) :
    normFunExpr ⟨.pVar x, []⟩ body n = .ok (.eFun x none body, n) := rfl

/-- The value of a call is the value of the body that it comes to. -/
theorem EntersCall.eval {constant : String → List Value → AstSimplified.Answer Value} {depth : ℕ}
    {f arg result e' : Expression} {ρ ρ₀ ρ₁ ρ₂ ρ' : Env} {binder : String} {w : Value}
    (hf : AstSimplified.eval (.ofDepth constant (depth + 1)) f ρ =
      .ok (.closure ρ₀ binder result, ρ₁))
    (harg : AstSimplified.eval (.ofDepth constant (depth + 1)) arg ρ₁ = .ok (w, ρ₂))
    (h : Enters (.ofDepth constant depth) result ((binder, w) :: ρ₀) e' ρ') :
    AstSimplified.eval (.ofDepth constant (depth + 1)) (.eApplication f arg) ρ =
      (AstSimplified.eval (.ofDepth constant depth) e' ρ').map fun r => (r.1, ρ₂) := by
  rw [AstSimplified.eval, hf]
  show (AstSimplified.eval _ arg ρ₁ >>= fun r => _) = _
  rw [harg]
  show (applyClosure (.ofDepth constant depth) (.closure ρ₀ binder result) w >>= fun v => _) = _
  rw [applyClosure_of_enters h]
  cases AstSimplified.eval (.ofDepth constant depth) e' ρ' <;> rfl

/-- A function of one parameter that is called by a name of its own, and in whose body the
parameter is a variable. -/
theorem callsBind_single {f x : String} {body : Expr} {body' : Expression}
    (hbody : simplExpression none body = pure body') (hf : constants.lookup f = none)
    (hx : .predefined x ∉ exprUses body) : CallsBind f ⟨x, []⟩ body body' := by
  intro n args args' hlen hargs
  obtain ⟨arg, tl⟩ := args
  obtain rfl : tl = [] := List.eq_nil_of_length_eq_zero (Nat.succ.inj hlen)
  obtain ⟨arg', l, harg, hl, rfl⟩ := List.forall₂_cons_left_iff.1 hargs
  obtain rfl := List.forall₂_nil_left_iff.1 hl
  obtain ⟨outputType, result, hfn, hresult, heval⟩ := simplExpression_eFun x hbody
  have hcall : simplExpression none (.eCall (.eVar f) ⟨arg, []⟩) =
      pure (.eApplication (.eVariable f) arg') := by
    rw [simplExpression]
    refine bind_eq_pure.2 ⟨[arg'], Raising.cons_eq_pure.2 ⟨arg', [], harg, rfl, rfl⟩, ?_⟩
    rw [hf]
    exact bind_eq_pure.2 ⟨arg', harg, rfl⟩
  refine ⟨_, n, _, _, result, normFunExpr_single x body n, hfn, hcall, hresult, ?_⟩
  intro constant depth ρ₀ w ρ vs ρ₁ hw hlookup hvs
  cases hw
  obtain ⟨⟨us, ρ₂⟩, hus, hvs⟩ := Fuel.bind_eq_ok.1 hvs
  cases hus
  obtain ⟨⟨u, ρ₂⟩, hu, hvs⟩ := Fuel.bind_eq_ok.1 hvs
  cases hvs
  have hclosure : eval (.ofDepth constant (depth + 1)) (.eVariable f) ρ =
      .ok (.closure ρ₀ x result, ρ) := by rw [eval, AstSimplified.readVariable, hlookup]
  have henters : Enters (.ofDepth constant depth) result ((x, u) :: ρ₀) result ((x, u) :: ρ₀) :=
    .here
  refine ⟨(x, u) :: ρ₀, .application hclosure hu henters, ?_, fun use huse => ?_⟩
  · rw [EntersCall.eval hclosure hu henters, heval]
  · -- a variable is read where the argument is bound, a reserved name is not the parameter
    cases use with
    | variable' y => exact rfl
    | predefined y =>
      intro hy
      obtain rfl := List.mem_singleton.1 hy
      exact hx huse

/-! ### Several parameters -/

/-- A function of several variables is nested. -/
theorem normFunExpr_pVars (ps : Nseq String) (body : Expr) (n : ℕ) :
    normFunExpr ⟨.pVar ps.hd, ps.tl.map .pVar⟩ body n =
      .ok (ps.toList.foldr (fun x e => .eFun x none e) body, n) := by
  have hfold : ∀ xs : List String,
      (xs.map Pattern.pVar).foldr (fun pattern acc => acc >>= funExpr pattern) (pure body) =
        pure (xs.foldr (fun x e => .eFun x none e) body) := by
    intro xs
    induction xs with
    | nil => rfl
    | cons x xs ih =>
      rw [List.map_cons, List.foldr_cons, ih]
      rfl
  exact congrFun (hfold ps.toList) n

/-- What the simplifier makes of a function contains what it makes of the body. -/
theorem simplExpression_eFun_inv {param : String} {body : Expr} {e : Expression}
    (h : simplExpression none (.eFun param none body) = pure e) :
    ∃ outputType result, e = .eLambda param none none outputType result ∧
      simplExpression none (untyped body) = pure result := by
  cases body with
  | eAnnot e t =>
    obtain ⟨_, hin, h⟩ := bind_eq_pure.1 h
    cases hin
    obtain ⟨te, -, h⟩ := bind_eq_pure.1 h
    obtain ⟨result, hresult, h⟩ := bind_eq_pure.1 h
    cases h
    exact ⟨some te, result, rfl, hresult⟩
  | _ =>
    obtain ⟨_, hin, h⟩ := bind_eq_pure.1 h
    cases hin
    obtain ⟨result, hresult, h⟩ := bind_eq_pure.1 h
    cases h
    exact ⟨none, result, rfl, hresult⟩

/-- A function of several parameters is larger than its body. -/
theorem sizeOf_lt_of_foldr {l : List String} {x : String} {body : Expr} {e result : Expression}
    (h : simplExpression none ((x :: l).foldr (fun x e => .eFun x none e) body) = pure e)
    (hresult : simplExpression none (untyped body) = pure result) : sizeOf result < sizeOf e := by
  induction l generalizing x e with
  | nil =>
    obtain ⟨outputType, r, rfl, hr⟩ := simplExpression_eFun_inv h
    obtain rfl := Except.ok.inj (Except.ok.inj (hr.symm.trans hresult))
    simp only [Expression.eLambda.sizeOf_spec]
    omega
  | cons y l ih =>
    obtain ⟨outputType, r, rfl, hr⟩ := simplExpression_eFun_inv h
    have hlt := ih hr
    simp only [Expression.eLambda.sizeOf_spec]
    omega

/-- Units for the arguments of a call. -/
def unitArgs (ps : Nseq String) : Nseq Expr := ⟨.eUnit, ps.tl.map fun _ => .eUnit⟩

/-- Arguments that are units. -/
theorem evalList_units (I : Interpretation) (l : List String) (ρ : Env) :
    evalList I (l.map fun _ => .eLiteral .unit) ρ =
      .ok (l.map fun _ => AstSimplified.unit, ρ) := by
  induction l with
  | nil => rfl
  | cons x l ih =>
    rw [List.map_cons, evalList, ih]
    rfl

/-- A constant has no value. -/
def noConstant : String → List Value → AstSimplified.Answer Value := fun _ _ => .error .stuck

/-- The call with units. -/
theorem CallsBind.onUnits {f : String} {ps : Nseq String} {body : Expr} {body' : Expression}
    (h : CallsBind f ps body body') :
    ∃ outputType inner result call ρ',
      simplExpression none (ps.toList.foldr (fun x e => .eFun x none e) body) =
        pure (.eLambda ps.hd none none outputType inner) ∧
      simplExpression none (.eCall (.eVar f) (unitArgs ps)) = pure call ∧
      simplExpression none (untyped body) = pure result ∧
      EntersCall noConstant 0 call [(f, .closure [] ps.hd inner)] result ρ' ∧
      ∀ u ∈ exprUses body, u.Means ps.toList ρ'
        (ps.toList.zip (ps.toList.map fun _ => AstSimplified.unit)) := by
  have hargs : List.Forall₂ (fun a e => simplExpression none a = pure e) (unitArgs ps).toList
      (ps.toList.map fun _ => .eLiteral .unit) := by
    show List.Forall₂ _ (ps.toList.map fun _ => Expr.eUnit) _
    rw [List.forall₂_map_left_iff, List.forall₂_map_right_iff, List.forall₂_same]
    exact fun _ _ => rfl
  obtain ⟨fn, n', fn', call, result, hfn, hfn', hcall, hresult, hbind⟩ :=
    h 0 (unitArgs ps) _ (by simp [unitArgs, Nseq.toList]) hargs
  rw [normFunExpr_pVars] at hfn
  cases hfn
  obtain ⟨outputType, inner, rfl, -⟩ := simplExpression_eFun_inv hfn'
  have hlookup : lookup f [(f, Value.closure [] ps.hd inner)] = some (.closure [] ps.hd inner) :=
    if_pos rfl
  obtain ⟨ρ', henters, -, hmeans⟩ :=
    hbind noConstant 0 [] _ _ _ _ rfl hlookup (evalList_units _ ps.toList _)
  rw [List.append_nil] at hmeans
  exact ⟨outputType, inner, result, call, ρ', hfn', hcall, hresult, henters, hmeans⟩

/-- A call of a function of several parameters comes to a function, not to the body. -/
theorem not_callsBind_several {f x y : String} {l : List String} {body : Expr}
    {body' : Expression} (hf : constants.lookup f = none) :
    ¬ CallsBind f ⟨x, y :: l⟩ body body' := by
  intro h
  obtain ⟨outputType, inner, result, call, ρ', hfn, hcall, hresult, henters, -⟩ := h.onUnits
  obtain ⟨_, inner', heq, hinner⟩ := simplExpression_eFun_inv hfn
  cases heq
  -- the body is smaller than the function inside
  have hlt : sizeOf result < sizeOf inner := sizeOf_lt_of_foldr hinner hresult
  obtain ⟨_, r, hr, -⟩ := simplExpression_eFun_inv hinner
  rw [unitArgs, simplExpression] at hcall
  obtain ⟨_, -, hcall⟩ := bind_eq_pure.1 hcall
  rw [hf] at hcall
  obtain ⟨arg, -, hcall⟩ := bind_eq_pure.1 hcall
  cases hcall
  cases henters with
  | application hclosure _ henters =>
    rw [eval, AstSimplified.readVariable, lookup, if_pos rfl] at hclosure
    cases hclosure
    subst hr
    cases henters
    exact Nat.lt_irrefl _ hlt

/-- A call of a reserved name is a constant. -/
theorem not_callsBind_reserved {f s : String} {ps : Nseq String} {body : Expr}
    {body' : Expression} (hf : constants.lookup f = some s) : ¬ CallsBind f ps body body' := by
  intro h
  obtain ⟨outputType, inner, result, call, ρ', -, hcall, -, henters, -⟩ := h.onUnits
  rw [unitArgs, simplExpression] at hcall
  obtain ⟨args', hargs', hcall⟩ := bind_eq_pure.1 hcall
  rw [hf] at hcall
  cases hcall
  cases henters

/-- A call binds the parameters of its function exactly when there is one, the name of the
function is not reserved, and the parameter is not a reserved name that occurs in the body. -/
theorem callsBind_iff {f : String} {ps : Nseq String} {body : Expr} {body' : Expression}
    (hbody : simplExpression none body = pure body') :
    CallsBind f ps body body' ↔
      ps.tl = [] ∧ constants.lookup f = none ∧ ∀ x ∈ ps.toList, .predefined x ∉ exprUses body := by
  constructor
  · intro h
    -- a reserved name is never called, and one argument reaches one parameter
    have hf : constants.lookup f = none := by
      cases hf : constants.lookup f with
      | none => rfl
      | some s => exact (not_callsBind_reserved hf h).elim
    refine ⟨?_, hf, fun x hx huse => ?_⟩
    · obtain ⟨x, tl⟩ := ps
      cases tl with
      | nil => rfl
      | cons y l => exact (not_callsBind_several hf h).elim
    · obtain ⟨_, _, _, _, ρ', -, -, -, -, hmeans⟩ := h.onUnits
      exact hmeans _ huse hx
  · obtain ⟨x, tl⟩ := ps
    rintro ⟨rfl, hf, hx⟩
    exact callsBind_single hbody hf (hx x List.mem_cons_self)

/-- `let succ n = n + 1` -/
theorem callsBind_succ :
    CallsBind "succ" ⟨"n", []⟩ (.eArith .add (.eVar "n") (.eInt 1))
      (.eConstant "ADD" [.eVariable "n", .eLiteral (.int ⟨1, by decide⟩)]) :=
  (callsBind_iff rfl).2 ⟨rfl, by decide, by decide⟩

/-- `f 1 2`, for `let f x y = x`, does not bind `x` and `y`; and `f 1`, for
`let f amount = amount`, is the amount of the transaction. -/
theorem not_callsBind_pair :
    ¬ CallsBind "f" ⟨"x", ["y"]⟩ (.eVar "x") (.eVariable "x") ∧
      ¬ CallsBind "f" ⟨"amount", []⟩ (.eVar "amount") (.eConstant "AMOUNT" []) := by
  constructor
  · rw [callsBind_iff rfl]
    rintro ⟨htl, -⟩
    cases htl
  · rw [callsBind_iff rfl]
    rintro ⟨-, -, hx⟩
    exact hx "amount" List.mem_cons_self List.mem_cons_self

end Ligo.Simplify.Ligodity
