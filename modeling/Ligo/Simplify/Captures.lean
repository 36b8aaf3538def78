import Ligo.Simplify.Blocks
import Ligo.Simplify.Camligo
import Ligo.Simplify.Parameters

/-!
# Functions of several parameters

The lambdas that the front ends make of functions of several parameters: functions of
PascaLIGO, and entry points of Camligo with their two parameters. Both are a chain of `let`s
around the simplified body, so `bindsParameters_iff` says when they bind the parameters, and
nothing else, in the body (`bindsParameters_iff_apart`). The names that occur in the body are
collected from the source (`bodyUses`, `expressionUses`).
-/

namespace Ligo.Simplify

/-! ### Names in PascaLIGO -/

namespace Pascaligo

open AstSimplified (Expression TypeExpression)
open Ligo.Pascaligo (Nseq)
open Ligo.Pascaligo.Raw hiding Declaration
open Operators.Simplify.Pascaligo (constants)
open Raising
open Use (removing)

mutual

def patternNames : Pattern → List String
  | .pVar x => [x]
  | .pConstr _ p | .pSome p => patternNames p
  | .pCons ⟨hd, tl⟩ | .pTuple ⟨hd, tl⟩ => patternNames hd ++ patternsNames tl
  | _ => []

def patternsNames : List Pattern → List String
  | [] => []
  | p :: lst => patternNames p ++ patternsNames lst

end

/-- An identifier that is an expression, or is called. -/
def identifierUse (c : String) : Use :=
  match constants.lookup c with
  | none => .variable' c
  | some _ => .predefined c

def pathUse : Path → Use
  | .name v => .variable' v
  | .path p => .variable' p.structName

mutual

def exprUses : Expr → List Use
  | .eVar c => [identifierUse c]
  | .eCall f ⟨hd, tl⟩ => identifierUse f :: exprUses hd ++ exprsUses tl
  | .eProj p => [.variable' p.structName]
  | .eMapLookUp path index => pathUse path :: exprUses index
  | .eCase expr ⟨hd, tl⟩ => exprUses expr ++ clauseUses hd ++ clausesUses tl
  | .eAnnot e _ | .ePar e | .eNot e | .eNeg e => exprUses e
  | .eLogic _ a b | .eArith _ a b | .eCons a b | .eCat a b => exprUses a ++ exprUses b
  | .eConstrApp _ ⟨hd, tl⟩ | .eSomeApp ⟨hd, tl⟩ | .eTuple ⟨hd, tl⟩ => exprUses hd ++ exprsUses tl
  | .eList elements => exprsUses elements
  | .eRecord elements => fieldsUses elements
  | .eMapInj elements => bindingsUses elements
  | .eUnit | .eBytes _ | .eNoneExpr | .eInt _ | .eNat _ | .eMtz _ | .eString _ | .eBool _
  | .eNil | .eSet => []

def exprsUses : List Expr → List Use
  | [] => []
  | e :: lst => exprUses e ++ exprsUses lst

def fieldUses : String × Expr → List Use
  | (_, e) => exprUses e

def fieldsUses : List (String × Expr) → List Use
  | [] => []
  | x :: lst => fieldUses x ++ fieldsUses lst

def bindingUses : Expr × Expr → List Use
  | (source, image) => exprUses source ++ exprUses image

def bindingsUses : List (Expr × Expr) → List Use
  | [] => []
  | x :: lst => bindingUses x ++ bindingsUses lst

def clauseUses : CaseClause Expr → List Use
  | ⟨pattern, rhs⟩ => removing (patternNames pattern) (exprUses rhs)

def clausesUses : List (CaseClause Expr) → List Use
  | [] => []
  | x :: lst => clauseUses x ++ clausesUses lst

end

def lhsUses : Lhs → List Use
  | .path p => [pathUse p]
  | .mapPath path index => pathUse path :: exprUses index

def rhsUses : Rhs → List Use
  | .expr e => exprUses e
  | .noneExpr => []

/-- The scope of a declaration is what follows it. -/
def dataUses (d : DataDecl) (rest : List Use) : List Use :=
  match d with
  | .localConst x => exprUses x.init ++ removing [x.name] rest
  | .localVar x => exprUses x.init ++ removing [x.name] rest

mutual

def statementUses : Statement → List Use → List Use
  | .instr i, rest => instructionUses i ++ rest
  | .data d, rest => dataUses d rest

def instructionUses : Instruction → List Use
  | .single s => singleUses s
  | .block ⟨hd, tl⟩ => statementUses hd (statementsUses tl [])

def singleUses : SingleInstr → List Use
  | .cond test ifso ifnot => exprUses test ++ ifUses ifso ++ ifUses ifnot
  | .caseInstr expr ⟨hd, tl⟩ => exprUses expr ++ instrClauseUses hd ++ instrClausesUses tl
  | .assign lhs rhs => lhsUses lhs ++ rhsUses rhs
  | .whileLoop cond ⟨hd, tl⟩ => exprUses cond ++ statementUses hd (statementsUses tl [])
  | .fail e => exprUses e
  | .recordPatch path recordInj => pathUse path :: fieldsUses recordInj
  | .mapRemove key map => pathUse map :: exprUses key
  | .skip | .forLoop | .procCall | .mapPatch | .setPatch | .setRemove => []

def ifUses : IfClause → List Use
  | .clauseInstr i => instructionUses i
  | .clauseBlock ⟨hd, tl⟩ => statementUses hd (statementsUses tl [])

def instrClauseUses : CaseClause Instruction → List Use
  | ⟨pattern, rhs⟩ => removing (patternNames pattern) (instructionUses rhs)

def instrClausesUses : List (CaseClause Instruction) → List Use
  | [] => []
  | x :: lst => instrClauseUses x ++ instrClausesUses lst

def statementsUses : List Statement → List Use → List Use
  | [], rest => rest
  | s :: lst, rest => statementUses s (statementsUses lst rest)

end

def funName : FunDecl → String
  | .mk name _ _ _ _ _ => name

def funParams : FunDecl → List String
  | .mk _ param _ _ _ _ => param.toList.map paramName

mutual

/-- The names that are free in the body of a function. -/
def bodyUses : FunDecl → List Use
  | .mk _ _ _ localDecls block return' =>
    localsUses localDecls (statementsUses block.toList (exprUses return'))

def localUses : LocalDecl → List Use → List Use
  | .localData d, rest => dataUses d rest
  | .localLam l, rest => lambdaUses l rest

def lambdaUses : LambdaDecl → List Use → List Use
  | .funDecl f, rest => removing (funParams f) (bodyUses f) ++ removing [funName f] rest
  | .procDecl, rest | .entryDecl, rest => rest

def localsUses : List LocalDecl → List Use → List Use
  | [], rest => rest
  | d :: lst, rest => localUses d (localsUses lst rest)

end

/-- The expression of a body by itself, in which no parameter is declared. -/
def simplBody : FunDecl → Raising Expression
  | .mk _ _ _ localDecls block return' => do
    let localDeclarations ← simplLocalDeclarations localDecls
    let instructions ← mapListRev simplStatement block.toList
    let result ← simplExpression return'
    foldRightList (fun prec (cur : Continuation) => cur (some prec)) result
      (localDeclarations ++ instructions)

/-- The later elements are folded first. -/
theorem foldRightList_append {α β : Type} (f : α → β → Raising α) (init : α) (l₁ l₂ : List β) :
    foldRightList f init (l₁ ++ l₂) = foldRightList f init l₂ >>= fun a => foldRightList f a l₁ := by
  induction l₁ with
  | nil =>
    rw [List.nil_append]
    exact (bind_pure _).symm
  | cons x l₁ ih =>
    rw [List.cons_append, foldRightList_cons, ih, bind_assoc]
    congr 1
    funext a
    rw [foldRightList_cons]

/-- The declarations of the components go around the body. -/
theorem foldRightList_tplDeclarations {argumentsName : String} {i : ℕ}
    {params : List (String × TypeExpression)} {tpls : List Continuation} {body : Expression}
    (h : mapListRev id (params.mapIdx fun j => tplDeclaration argumentsName (j + i)) = pure tpls) :
    foldRightList (fun prec (cur : Continuation) => cur (some prec)) body tpls =
      pure (tplChain argumentsName i params body) := by
  induction params generalizing i tpls with
  | nil =>
    cases h
    rfl
  | cons x params ih =>
    rw [List.mapIdx_cons] at h
    obtain ⟨k, ks, hk, hks, rfl⟩ := consRev_eq_pure.1 h
    have hshift : (fun j => tplDeclaration argumentsName (j + 1 + i)) =
        fun j => tplDeclaration argumentsName (j + (i + 1)) := by
      funext j
      rw [Nat.add_assoc, Nat.add_comm 1 i]
    rw [hshift] at hks
    cases hk
    rw [foldRightList_cons, ih hks, Nat.zero_add]
    rfl

/-- The parameters keep their names. -/
theorem map_fst_params {lst : List ParamDecl} {params : List (String × TypeExpression)}
    (h : mapList simplParam lst = pure params) : params.map Prod.fst = lst.map paramName := by
  have hlst := mapList_eq_pure.1 h
  clear h
  induction hlst with
  | nil => rfl
  | cons hp _ ih => rw [List.map_cons, List.map_cons, simplParam_eq_pure hp, ih]

/-- The lambda of a function of several parameters. -/
theorem simplFunDeclaration_eq_tplChain {f : FunDecl} {b : Binding}
    (hf : 2 ≤ (funParams f).length) (h : simplFunDeclaration f = pure b) :
    ∃ inputType outputType params body, b.2 = .eLambda "arguments" (some inputType)
        (some inputType) (some outputType) (tplChain "arguments" 0 params body) ∧
      params.map Prod.fst = funParams f ∧ simplBody f = pure body := by
  obtain ⟨name, ⟨p, ps⟩, retType, localDecls, block, return'⟩ := f
  cases ps with
  | nil => simp [funParams, Nseq.toList] at hf
  | cons q ps =>
    rw [simplFunDeclaration] at h
    · obtain ⟨params, hparams, h⟩ := bind_eq_pure.1 h
      obtain ⟨tpls, htpls, h⟩ := bind_eq_pure.1 h
      obtain ⟨locals, hlocals, h⟩ := bind_eq_pure.1 h
      obtain ⟨instructions, hinstr, h⟩ := bind_eq_pure.1 h
      obtain ⟨result, hresult, h⟩ := bind_eq_pure.1 h
      obtain ⟨outputType, -, h⟩ := bind_eq_pure.1 h
      obtain ⟨e, he, h⟩ := bind_eq_pure.1 h
      cases h
      rw [List.append_assoc, foldRightList_append] at he
      obtain ⟨body, hbody, he⟩ := bind_eq_pure.1 he
      rw [foldRightList_tplDeclarations (i := 0) htpls] at he
      cases he
      refine ⟨_, outputType, params, body, rfl, map_fst_params hparams, ?_⟩
      rw [simplBody, hlocals, hinstr, hresult]
      exact hbody
    · simp

end Pascaligo

/-! ### Names in Camligo -/

namespace Camligo

open AstSimplified (Declaration)
open Ligo.Camligo.Ast hiding Expression TypeExpression
open Operators.Simplify.Camligo (constants)
open Fuel (bind_eq_ok map_eq_ok map₂_eq_ok)
open Use (removing)

mutual

def patternNames : Pattern → List String
  | .pVariable v => [v]
  | .pTypeAnnotated p _ | .pParen p => patternNames p
  | .pPair a b | .pApplication a b => patternNames a ++ patternNames b
  | .pDataStructure _ content => patternsNames content
  | .pRecord elements => elementsNames elements
  | .pConstructor _ | .pModuleIdent _ _ | .pUnit => []

def patternsNames : List Pattern → List String
  | [] => []
  | p :: lst => patternNames p ++ patternsNames lst

def elementNames : String × Pattern → List String
  | (_, p) => patternNames p

def elementsNames : List (String × Pattern) → List String
  | [] => []
  | x :: lst => elementNames x ++ elementsNames lst

end

/-- An identifier by itself. -/
def identifierUse (v : String) : Use :=
  match constants.lookup v with
  | none => .variable' v
  | some _ => .predefined v

/-- An identifier that is applied. -/
def appliedUse (v : String) : Use :=
  if v = "failwith" then .predefined v else identifierUse v

mutual

def expressionUses : Ligo.Camligo.Ast.Expression → List Use
  | .eSequence lst => expressionsUses lst
  | .eLetIn pattern expr body =>
    expressionUses expr ++ removing (patternNames pattern) (expressionUses body)
  | .eFun pattern expr => removing (patternNames pattern) (expressionUses expr)
  | .eRecord elements => elementsUses elements
  | .eIfthenelse cond branchTrue branchFalse =>
    expressionUses cond ++ expressionUses branchTrue ++ expressionUses branchFalse
  | .eIfthen cond branchTrue => expressionUses cond ++ expressionUses branchTrue
  | .eMatch expr clauses => expressionUses expr ++ clausesUses clauses
  | .eMain em => mainUses em

def expressionsUses : List Ligo.Camligo.Ast.Expression → List Use
  | [] => []
  | e :: lst => expressionUses e ++ expressionsUses lst

def elementUses : RecordElement → List Use
  | .recordExplicit _ e => expressionUses e
  | .recordImplicit s => [identifierUse s]

def elementsUses : List RecordElement → List Use
  | [] => []
  | x :: lst => elementUses x ++ elementsUses lst

def clauseUses : MatchClause Ligo.Camligo.Ast.Expression → List Use
  | ⟨pattern, rhs⟩ => removing (patternNames pattern) (expressionUses rhs)

def clausesUses : List (MatchClause Ligo.Camligo.Ast.Expression) → List Use
  | [] => []
  | x :: lst => clauseUses x ++ clausesUses lst

def mainUses : ExpressionMain → List Use
  | .ehTuple lst | .ehDataStructure _ lst => mainsUses lst
  | .ehTypeAnnotated e _ | .ehName e => mainUses e
  | .ehBinop _ a b => mainUses a ++ mainUses b
  | .ehApplication (.ehVariable v) arg => appliedUse v :: mainUses arg
  | .ehApplication f arg => mainUses f ++ mainUses arg
  | .ehVariable v => [identifierUse v]
  | .ehAccessor src _ => [.variable' src]
  | .ehBottom e => expressionUses e
  -- the name of a module is no name of a parameter
  | .ehModuleIdent _ _ | .ehConstructor _ | .ehInt _ | .ehUnit | .ehString _ | .ehTz _ => []

def mainsUses : List ExpressionMain → List Use
  | [] => []
  | e :: lst => mainUses e ++ mainsUses lst

end

/-- The name that a parameter declares. -/
def paramNames : Param → List String
  | .paramRestrictedPattern (.prVariable v) => [v]
  | .paramRestrictedPattern (.prRestrict p) => patternNames p
  | .paramRestrictedPattern .prUnit => []
  | .paramImplicitNamedParam v => [v]

def entryParams (l : LetContent) : List String := l.args.flatMap paramNames

/-- The helpers for parameters return the name that the pattern binds. -/
theorem getPVariable_eq_ok {p : Pattern} {v : String} (h : getPVariable p = .ok v) :
    patternNames p = [v] := by
  cases p with
  | pVariable v =>
    cases h
    rfl
  | _ => cases h

theorem getPTypedVariable_eq_ok {p : Pattern} {r : String × RestrictedTypeExpression}
    (h : getPTypedVariable p = .ok r) : patternNames p = [r.1] := by
  obtain ⟨⟨p', te⟩, hp, h⟩ := bind_eq_ok.1 h
  obtain ⟨v, hv, rfl⟩ := map_eq_ok.1 h
  have hp := trace_eq_ok.1 hp
  cases p with
  | pTypeAnnotated p te' =>
    cases hp
    have hnames := getPVariable_eq_ok hv
    exact hnames
  | _ => cases hp

theorem getTypedVariableParam_eq_ok {arg : Param} {r : String × RestrictedTypeExpression}
    (h : getTypedVariableParam arg = .ok r) : paramNames arg = [r.1] := by
  obtain ⟨rp, hrp, h⟩ := bind_eq_ok.1 h
  obtain ⟨up, hup, h⟩ := bind_eq_ok.1 h
  cases arg with
  | paramImplicitNamedParam v => cases hrp
  | paramRestrictedPattern p =>
    cases hrp
    cases rp with
    | prRestrict p =>
      cases hup
      exact getPTypedVariable_eq_ok h
    | _ => cases hup

theorem getUntypedVariableParam_eq_ok {arg : Param} {v : String}
    (h : getUntypedVariableParam arg = .ok v) : paramNames arg = [v] := by
  obtain ⟨rp, hrp, h⟩ := bind_eq_ok.1 h
  cases arg with
  | paramImplicitNamedParam v => cases hrp
  | paramRestrictedPattern p =>
    cases hrp
    cases rp with
    | prVariable v =>
      cases h
      rfl
    | _ => cases h

/-- The lambda of an entry point. -/
theorem letEntry_eq_tplChain {l : LetContent} {d : Declaration} (h : letEntry l = .ok d) :
    ∃ te inputType outputType params body, d = .declarationConstant l.name te (.eLambda "arguments"
        (some inputType) (some inputType) (some outputType) (tplChain "arguments" 0 params body)) ∧
      params.map Prod.fst = entryParams l ∧ expression l.expr = .ok body := by
  obtain ⟨_, -, h⟩ := bind_eq_ok.1 h
  obtain ⟨⟨param, storage⟩, hpair, h⟩ := bind_eq_ok.1 h
  obtain ⟨⟨paramName, rte⟩, hparam, h⟩ := bind_eq_ok.1 h
  obtain ⟨paramTy, -, h⟩ := bind_eq_ok.1 h
  obtain ⟨storageName, body, hstorage, hbody, rfl⟩ := map₂_eq_ok.1 h
  have hargs : l.args = [param, storage] := by
    have hpair := traceOption_eq_ok.1 hpair
    unfold toPair at hpair
    split at hpair
    · rename_i a b heq
      cases hpair
      exact heq
    · cases hpair
  refine ⟨_, _, _, [(paramName, paramTy), (storageName, .tVariable "storage")], body, rfl, ?_, hbody⟩
  rw [entryParams, hargs, List.flatMap_cons, List.flatMap_cons, getTypedVariableParam_eq_ok hparam,
    getUntypedVariableParam_eq_ok hstorage]
  rfl

end Camligo

/-! ### Both front ends -/

open AstSimplified (Expression Value applyClosure stuck)
open Ligo.Pascaligo.Raw (FunDecl Expr TypeExpr)
open Ligo.Camligo.Ast (LetContent)
open Simplify.Pascaligo (simplFunDeclaration simplBody)
open Simplify.Camligo (letEntry)

/-- The source of a function that may have several parameters. -/
inductive Source where
  | declaration (f : FunDecl)
  | entry (l : LetContent)

namespace Source

def params : Source → List String
  | .declaration f => Pascaligo.funParams f
  | .entry l => Camligo.entryParams l

/-- The names that are free in the body. -/
def uses : Source → List Use
  | .declaration f => Pascaligo.bodyUses f
  | .entry l => Camligo.expressionUses l.expr

/-- The simplifier makes `e` of the function. -/
def Simplifies : Source → Expression → Prop
  | .declaration f, e => ∃ name, simplFunDeclaration f = pure (name, e)
  | .entry l, e => ∃ name te, letEntry l = .ok (.declarationConstant name te e)

/-- The simplifier makes `body` of the body. -/
def SimplifiesBody : Source → Expression → Prop
  | .declaration f, body => simplBody f = pure body
  | .entry l, body => Camligo.expression l.expr = .ok body

end Source

/-- A function of several parameters is a chain around its body. -/
theorem Source.simplifies_tplChain {F : Source} {e : Expression} (hF : 2 ≤ F.params.length)
    (h : F.Simplifies e) :
    ∃ inputType outputType params body,
      e = .eLambda "arguments" (some inputType) (some inputType) (some outputType)
        (tplChain "arguments" 0 params body) ∧
      params.map Prod.fst = F.params ∧ F.SimplifiesBody body := by
  cases F with
  | declaration f =>
    obtain ⟨name, h⟩ := h
    exact Pascaligo.simplFunDeclaration_eq_tplChain hF h
  | entry l =>
    obtain ⟨name, te, h⟩ := h
    obtain ⟨te', inputType, outputType, params, body, hd, hparams, hbody⟩ :=
      Camligo.letEntry_eq_tplChain h
    cases hd
    exact ⟨inputType, outputType, params, body, rfl, hparams, hbody⟩

/-- **Several parameters.** The lambda of a function of two or more parameters, a function of
PascaLIGO or an entry point of Camligo, binds the parameters in the body, and no other name
that occurs, exactly when the parameters and the body keep apart from the names that the
simplifiers use. -/
theorem bindsParameters_iff_apart {F : Source} {e : Expression} (hlength : 2 ≤ F.params.length)
    (hnodup : F.params.Nodup) (h : F.Simplifies e) :
    ∃ inputType outputType result body,
      e = .eLambda "arguments" (some inputType) (some inputType) (some outputType) result ∧
      F.SimplifiesBody body ∧
      (BindsParameters F.params "arguments" result body F.uses ↔
        Apart F.params "arguments" F.uses) := by
  obtain ⟨inputType, outputType, params, body, he, hparams, hbody⟩ :=
    Source.simplifies_tplChain hlength h
  refine ⟨inputType, outputType, _, body, he, hbody, ?_⟩
  rw [← hparams] at hnodup ⊢
  exact bindsParameters_iff hnodup

/-- `function ab (const a : int ; const b : int) : int is begin skip end with r`, where the
names of the parameters and `r` are given. -/
def twoParameters (a b : String) (r : Expr) : FunDecl :=
  let int : TypeExpr := .tProd ⟨.tAlias "int", []⟩
  .mk "ab" ⟨.paramConst ⟨a, int⟩, [.paramConst ⟨b, int⟩]⟩ int [] ⟨.instr (.single .skip), []⟩ r

/-- `let%entry main (p : int) storage = p + storage` -/
def addEntry : LetContent :=
  let p : Ligo.Camligo.Ast.Pattern := .pTypeAnnotated (.pVariable "p") (.trVariable "int")
  ⟨"main", [.paramRestrictedPattern (.prRestrict p),
    .paramRestrictedPattern (.prVariable "storage")], none,
    .eMain (.ehBinop .addition (.ehVariable "p") (.ehVariable "storage"))⟩

theorem sum_bindsParameters :
    let sum := Source.declaration (twoParameters "a" "b" (.eArith .add (.eVar "a") (.eVar "b")))
    (∃ e, sum.Simplifies e ∧ ∃ t t' result body,
      e = .eLambda "arguments" (some t) (some t) (some t') result ∧ sum.SimplifiesBody body ∧
      BindsParameters ["a", "b"] "arguments" result body sum.uses) ∧
    ∃ e, (Source.entry addEntry).Simplifies e ∧ ∃ t t' result body,
      e = .eLambda "arguments" (some t) (some t) (some t') result ∧
      (Source.entry addEntry).SimplifiesBody body ∧
      BindsParameters ["p", "storage"] "arguments" result body (Source.entry addEntry).uses := by
  constructor
  · have h : ∃ e, (Source.declaration (twoParameters "a" "b"
        (.eArith .add (.eVar "a") (.eVar "b")))).Simplifies e := ⟨_, _, rfl⟩
    obtain ⟨e, h⟩ := h
    obtain ⟨t, t', result, body, he, hbody, hiff⟩ :=
      bindsParameters_iff_apart (by decide) (by decide) h
    exact ⟨e, h, t, t', result, body, he, hbody, hiff.2 (by decide)⟩
  · have h : ∃ e, (Source.entry addEntry).Simplifies e := ⟨_, _, _, rfl⟩
    obtain ⟨e, h⟩ := h
    obtain ⟨t, t', result, body, he, hbody, hiff⟩ :=
      bindsParameters_iff_apart (by decide) (by decide) h
    exact ⟨e, h, t, t', result, body, he, hbody, hiff.2 (by decide)⟩

/-- The second component is read from the first one. -/
theorem arguments_not_bound : ∃ name t t' result,
    simplFunDeclaration (twoParameters "arguments" "b" (.eVar "b")) =
      pure (name, .eLambda "arguments" t t t' result) ∧
    ∀ I, applyClosure I (.closure [] "arguments" result)
      (.tuple [.literal (.int ⟨1, by decide⟩), .literal (.int ⟨2, by decide⟩)]) = stuck :=
  ⟨_, _, _, _, rfl, fun _ => rfl⟩

end Ligo.Simplify
