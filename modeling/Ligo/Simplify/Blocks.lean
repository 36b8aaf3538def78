import Ligo.AstSimplified.Semantics
import Ligo.Simplify.Pascaligo

/-!
# Blocks of statements

An imperative semantics for the statements of PascaLIGO, and what the simplifier makes of
them. A statement takes an environment to an environment: a declaration puts a binding on top,
an instruction updates bindings, and at its end a block leaves what it has declared
(`leave`). Statements are executed from the first to the last. An expression means what its
simplification means, so names that are reserved for constants denote the constants.

`Runs` relates the continuation of a statement to its execution: with an expression after it,
it executes the statement, evaluates the expression in the environment that results, and
leaves the bindings of the statement; with nothing after it, it executes the statement.
`simplStatement_runs` goes through the statements, and `simplFunDeclaration_runs` is the result
for the body of a function.
-/

namespace Ligo.Simplify.Pascaligo

open AstSimplified (Expression TypeExpression Access MatchingExpr Value Env Answer Halt
  Interpretation stuck unit assignPath readVariable asBool eval evalList evalMatching evalVariant
  dropping)
open Ligo.Pascaligo (Nseq)
open Ligo.Pascaligo.Raw hiding Declaration
open Fuel (bind_eq_ok)
open Raising

/-! ### Execution -/

/-- The value that a computation returns. -/
def value {α : Type} (x : Raising α) : Option α :=
  match x.run with
  | .ok (.ok a) => some a
  | _ => none

/-- Drop the bindings above those of `ρ`. -/
def leave (ρ ρ' : Env) : Env := ρ'.drop (ρ'.length - ρ.length)

/-- What a pattern binds, if the value matches. No pattern of another form is in a clause that
is simplified. -/
def matchPattern : Pattern → Value → Option Env
  | .pVar x, v => some [(x, v)]
  | .pWild, _ => some []
  | .pUnit, .literal .unit => some []
  | .pFalse, .literal (.bool false) => some []
  | .pTrue, .literal (.bool true) => some []
  | .pNone, .none' => some []
  | .pSome p, .some' v => matchPattern p v
  | .pNil, .list [] => some []
  | .pCons ⟨p, []⟩, v | .pTuple ⟨p, []⟩, v => matchPattern p v
  | .pCons ⟨p, [q]⟩, .list (v :: vs) => do
    let T ← matchPattern p v
    let T' ← matchPattern q (.list vs)
    return T' ++ T
  | .pConstr constr p, .constructor' name v => if constr = name then matchPattern p v else none
  | _, _ => none

/-- A variable and a path into its value. -/
def pathAccess : Path → String × List Access
  | .name v => (v, [])
  | .path p => (p.structName, p.fieldPath.toList.map selectionAccess)

section Exec

variable (I : Interpretation)

def evalExpr (e : Expr) (ρ : Env) : Answer (Value × Env) :=
  match value (simplExpression e) with
  | some e' => eval I e' ρ
  | none => stuck

/-- A declaration binds its name to the value of its expression. -/
def declare (d : DataDecl) (ρ : Env) : Answer Env :=
  match d with
  | .localConst x => do
    let (v, ρ) ← evalExpr I x.init ρ
    return (x.name, v) :: ρ
  | .localVar x => do
    let (v, ρ) ← evalExpr I x.init ρ
    return (x.name, v) :: ρ

/-- Update a variable at a path, or a map at a key. -/
def execAssign (lhs : Lhs) (rhs : Rhs) (ρ : Env) : Answer Env :=
  match lhs, rhs with
  | .path path, .expr e => do
    let (v, ρ) ← evalExpr I e ρ
    assignPath (pathAccess path).1 (pathAccess path).2 v ρ
  | .mapPath (.name m) index, .expr e => do
    let (old, ρ) ← readVariable m ρ
    let (v, ρ) ← evalExpr I e ρ
    let (k, ρ) ← evalExpr I index ρ
    let new ← I.constant "MAP_UPDATE" [k, v, old]
    assignPath m [] new ρ
  | _, _ => stuck

/-- Update the fields of a record, one after the other. -/
def execPatch (name : String) (path : List Access) : List (String × Expr) → Env → Answer Env
  | [], ρ => .ok ρ
  | (field, e) :: lst, ρ => do
    let (v, ρ) ← evalExpr I e ρ
    let ρ ← assignPath name (path ++ [.record field]) v ρ
    execPatch name path lst ρ

def execRemove (key : Expr) (map : Path) (ρ : Env) : Answer Env :=
  match map with
  | .name m => do
    let (old, ρ) ← readVariable m ρ
    let (k, ρ) ← evalExpr I key ρ
    let new ← I.constant "MAP_REMOVE" [k, old]
    assignPath m [] new ρ
  | .path _ => stuck

mutual

def execStatement : Statement → Env → Answer Env
  | .instr i, ρ => execInstruction i ρ
  | .data d, ρ => declare I d ρ

def execInstruction : Instruction → Env → Answer Env
  | .single s, ρ => execSingle s ρ
  | .block b, ρ => execBlock b ρ

def execSingle : SingleInstr → Env → Answer Env
  | .cond test ifso ifnot, ρ => do
    let (b, ρ) ← evalExpr I test ρ >>= asBool
    if b then execIf ifso ρ else execIf ifnot ρ
  | .caseInstr expr ⟨hd, tl⟩, ρ => do
    let (v, ρ) ← evalExpr I expr ρ
    execClause hd v ρ (execClauses tl v ρ)
  | .assign lhs rhs, ρ => execAssign I lhs rhs ρ
  | .whileLoop cond block, ρ =>
    Fuel.iterate (fun ρ => evalExpr I cond ρ >>= asBool) (execBlock block) .exhausted I.rounds ρ
  | .fail e, ρ => do
    let (v, _) ← evalExpr I e ρ
    .error (.failed v)
  | .skip, ρ => .ok ρ
  | .recordPatch path recordInj, ρ =>
    execPatch I (pathAccess path).1 (pathAccess path).2 recordInj ρ
  | .mapRemove key map, ρ => execRemove I key map ρ
  | .forLoop, _ | .procCall, _ | .mapPatch, _ | .setPatch, _ | .setRemove, _ => stuck

def execIf : IfClause → Env → Answer Env
  | .clauseInstr i, ρ => execInstruction i ρ
  | .clauseBlock b, ρ => execBlock b ρ

/-- Run a clause if the value matches its pattern, in the scope of what the pattern binds;
otherwise do what `next` says. -/
def execClause : CaseClause Instruction → Value → Env → Answer Env → Answer Env
  | ⟨pattern, rhs⟩, v, ρ, next =>
    match matchPattern pattern v with
    | some T => do
      let ρ' ← execInstruction rhs (T ++ ρ)
      return leave ρ ρ'
    | none => next

def execClauses : List (CaseClause Instruction) → Value → Env → Answer Env
  | [], _, _ => stuck
  | x :: lst, v, ρ => execClause x v ρ (execClauses lst v ρ)

/-- The statements of a block, and the end of their scope. -/
def execBlock : Nseq Statement → Env → Answer Env
  | ⟨hd, tl⟩, ρ => do
    let ρ₁ ← execStatement hd ρ
    let ρ₂ ← execStatements tl ρ₁
    return leave ρ ρ₂

def execStatements : List Statement → Env → Answer Env
  | [], ρ => .ok ρ
  | s :: lst, ρ => do
    let ρ₁ ← execStatement s ρ
    execStatements lst ρ₁

end

/-- A local function is bound to its closure. -/
def execLocal (d : LocalDecl) (ρ : Env) : Answer Env :=
  match d with
  | .localData d => declare I d ρ
  | .localLam (.funDecl f) =>
    match value (simplFunDeclaration f) with
    | some ((name, _), e) => do
      let (v, ρ) ← eval I e ρ
      return (name, v) :: ρ
    | none => stuck
  | .localLam _ => stuck

def paramName : ParamDecl → String
  | .paramConst c => c.var
  | .paramVar v => v.var

/-- The name of the argument of the lambda of a function. -/
def binderName : FunDecl → String
  | .mk _ ⟨p, []⟩ _ _ _ _ => paramName p
  | .mk _ _ _ _ _ _ => "arguments"

/-- Bind a parameter to its component of the tuple of the arguments. -/
def bindParam (i : ℕ) (p : ParamDecl) (ρ : Env) : Answer Env := do
  let (v, ρ) ← eval I (.eAccessor (.eVariable "arguments") [.tuple i]) ρ
  return (paramName p, v) :: ρ

/-- A single parameter is bound by the call. -/
def paramSteps : Nseq ParamDecl → List (Env → Answer Env)
  | ⟨_, []⟩ => []
  | lst => lst.toList.mapIdx (bindParam I)

def execAll : List (Env → Answer Env) → Env → Answer Env
  | [], ρ => .ok ρ
  | f :: fs, ρ => do
    let ρ₁ ← f ρ
    execAll fs ρ₁

/-- The body of a function: its local declarations, its statements, and its result in the
environment after them. -/
def execBody : FunDecl → Env → Answer (Value × Env)
  | .mk _ param _ localDecls block return', ρ => do
    let ρ₁ ← execAll (paramSteps I param ++ localDecls.map (execLocal I) ++
      block.toList.map (execStatement I)) ρ
    let (v, ρ₂) ← evalExpr I return' ρ₁
    return (v, leave ρ ρ₂)

end Exec

/-! ### Leaving a scope -/

section Leave

variable {ρ ρ₁ ρ₂ : Env}

/-- A block that declares nothing leaves the environment as it is. -/
theorem leave_of_length (h : ρ₁.length = ρ.length) : leave ρ ρ₁ = ρ₁ := by
  rw [leave, h, Nat.sub_self, List.drop_zero]

/-- Leaving a block drops what it has declared. -/
theorem leave_append {T : Env} (h : ρ₁.length = T.length + ρ.length) :
    leave ρ ρ₁ = ρ₁.drop T.length := by
  rw [leave, h, Nat.add_sub_cancel]

/-- Leaving two scopes at once. -/
theorem leave_leave (h : ρ.length ≤ ρ₁.length) (h₁ : ρ₁.length ≤ ρ₂.length) :
    leave ρ (leave ρ₁ ρ₂) = leave ρ ρ₂ := by
  have hlength : (ρ₂.drop (ρ₂.length - ρ₁.length)).length = ρ₁.length := by
    rw [List.length_drop]
    omega
  rw [leave, leave, leave, hlength, List.drop_drop]
  congr 1
  omega

end Leave

section Runs

variable (I : Interpretation)

theorem map_eq_ok {α β : Type} {x : Answer α} {f : α → β} {b : β} :
    x.map f = .ok b ↔ ∃ a, x = .ok a ∧ f a = b := by
  cases x <;> simp [Except.map]

/-- What evaluation keeps, as a length. -/
theorem eval_length {e : Expression} {ρ : Env} {r : Value × Env} (h : eval I e ρ = .ok r) :
    r.2.length = ρ.length := by
  have hnames := AstSimplified.eval_names I e ρ r h
  rw [← Scope.length_names r.2, hnames, Scope.length_names]

/-- `e` executes `f`, evaluates `e'` in the scope of what `f` declares, and leaves it. -/
def Executes (f : Env → Answer Env) (e' e : Expression) : Prop :=
  ∀ ρ, eval I e ρ = (do
    let ρ₁ ← f ρ
    let (v, ρ₂) ← eval I e' ρ₁
    return (v, leave ρ ρ₂))

/-- Bindings are only put on top. -/
def Extending (f : Env → Answer Env) : Prop :=
  ∀ {ρ ρ₁}, f ρ = .ok ρ₁ → ρ.length ≤ ρ₁.length

/-- The continuation `k` runs `f`. -/
structure Runs (f : Env → Answer Env) (k : Continuation) : Prop where
  before : ∀ {e' e}, k (some e') = pure e → Executes I f e' e
  alone : ∀ {e}, k none = pure e → ∀ ρ, (eval I e ρ).map Prod.snd = (f ρ).map (leave ρ)
  extending : Extending f

variable {I} in
/-- Two steps that only add bindings in front, one after the other. -/
theorem Extending.bind {f g : Env → Answer Env} (hf : Extending f) (hg : Extending g) :
    Extending (fun ρ => f ρ >>= g) := by
  intro ρ ρ₂ h
  obtain ⟨ρ₁, hρ₁, hρ₂⟩ := bind_eq_ok.1 h
  exact (hf hρ₁).trans (hg hρ₂)

/-- The scope of what `f` declares goes to the end of `g`. -/
theorem Executes.trans {f g : Env → Answer Env} {e'' e' e : Expression}
    (hf : Executes I f e' e) (hg : Executes I g e'' e') (hfρ : Extending f)
    (hgρ : Extending g) : Executes I (fun ρ => f ρ >>= g) e'' e := by
  intro ρ
  -- the environment that is left at the end is the same, in one step or in two
  rw [hf ρ]
  beta_reduce
  cases hρ₁ : f ρ with
  | error _ => rfl
  | ok ρ₁ =>
    show (eval I e' ρ₁ >>= fun r => pure (r.1, leave ρ r.2)) =
      (g ρ₁ >>= fun ρ₂ => eval I e'' ρ₂ >>= fun r => pure (r.1, leave ρ r.2))
    rw [hg ρ₁]
    cases hρ₂ : g ρ₁ with
    | error _ => rfl
    | ok ρ₂ =>
      show ((eval I e'' ρ₂ >>= fun r => pure (r.1, leave ρ₁ r.2)) >>= fun r =>
        pure (r.1, leave ρ r.2)) = (eval I e'' ρ₂ >>= fun r => pure (r.1, leave ρ r.2))
      cases he : eval I e'' ρ₂ with
      | error _ => rfl
      | ok r =>
        -- what the second part leaves reaches back below the first one
        have hr : ρ₁.length ≤ r.2.length := (hgρ hρ₂).trans (eval_length I he).ge
        show Except.ok (r.1, leave ρ (leave ρ₁ r.2)) = Except.ok (r.1, leave ρ r.2)
        rw [leave_leave (hfρ hρ₁) hr]

/-- An instruction whose expression does `f`. -/
theorem runs_ret {f : Env → Answer Env} {e : Expression} {k : Continuation}
    (hk : ret e = pure k) (hf : ∀ ρ, (eval I e ρ).map Prod.snd = f ρ) : Runs I f k := by
  cases hk
  have hlength : ∀ {ρ ρ₁}, f ρ = .ok ρ₁ → ρ₁.length = ρ.length := by
    intro ρ ρ₁ h
    rw [← hf] at h
    obtain ⟨r, hr, rfl⟩ := map_eq_ok.1 h
    exact eval_length I hr
  refine ⟨?_, ?_, fun h => (hlength h).ge⟩
  · intro e' _ hseq ρ
    cases hseq
    have hfρ := hf ρ
    show (eval I e ρ >>= fun r => eval I e' r.2) = _
    cases he : eval I e ρ with
    | error _ =>
      rw [he] at hfρ
      rw [← hfρ]
      rfl
    | ok r =>
      rw [he] at hfρ
      rw [← hfρ]
      show eval I e' r.2 = (eval I e' r.2 >>= fun r' => pure (r'.1, leave ρ r'.2))
      cases he' : eval I e' r.2 with
      | error _ => rfl
      | ok r' =>
        -- nothing has been declared
        have hρ : r'.2.length = ρ.length := (eval_length I he').trans (eval_length I he)
        show Except.ok r' = Except.ok (r'.1, leave ρ r'.2)
        rw [leave_of_length hρ]
  · intro _ hnone ρ
    cases hnone
    rw [hf]
    cases hρ₁ : f ρ with
    | error _ => rfl
    | ok ρ₁ =>
      show Except.ok ρ₁ = Except.ok (leave ρ ρ₁)
      rw [leave_of_length (hlength hρ₁)]

/-- A declaration whose expression has the value that is bound. -/
theorem runs_returnLetIn {f : Env → Answer Env} {x : String} {t : Option TypeExpression}
    {rhs : Expression} {k : Continuation} (hk : returnLetIn (x, t) rhs = pure k)
    (hf : ∀ ρ, f ρ = (do
      let (v, ρ) ← eval I rhs ρ
      return (x, v) :: ρ)) : Runs I f k := by
  cases hk
  refine ⟨?_, nofun, ?_⟩
  -- the `let` binds one name, which is dropped at its end
  · intro e' _ hlet ρ
    cases hlet
    rw [hf]
    show (eval I rhs ρ >>= fun r => eval I e' ((x, r.1) :: r.2) >>= fun r' =>
      pure (dropping 1 r')) = _
    cases hrhs : eval I rhs ρ with
    | error _ => rfl
    | ok r =>
      show (eval I e' ((x, r.1) :: r.2) >>= fun r' => pure (dropping 1 r')) =
        (eval I e' ((x, r.1) :: r.2) >>= fun r' => pure (r'.1, leave ρ r'.2))
      cases he' : eval I e' ((x, r.1) :: r.2) with
      | error _ => rfl
      | ok r' =>
        have hlength : r'.2.length = [(x, r.1)].length + ρ.length := by
          rw [eval_length I he', List.length_cons, eval_length I hrhs, List.length_singleton]
          omega
        show Except.ok (r'.1, r'.2.drop 1) = Except.ok (r'.1, leave ρ r'.2)
        rw [leave_append hlength]
        rfl
  -- and what follows sees one more binding
  · intro ρ ρ₁ h
    rw [hf] at h
    obtain ⟨r, hr, h⟩ := bind_eq_ok.1 h
    cases h
    rw [List.length_cons, eval_length I hr]
    omega

variable {I}

/-- A continuation may be replaced by one that succeeds less often, with the same results. -/
theorem Runs.congr {f : Env → Answer Env} {k k' : Continuation} (h : Runs I f k)
    (hk : ∀ {o e}, k' o = pure e → k o = pure e) : Runs I f k' :=
  ⟨fun he => h.before (hk he), fun he => h.alone (hk he), h.extending⟩

/-- A statement before others: the scope of what it declares are the others. -/
theorem Runs.cons {f g : Env → Answer Env} {k k' : Continuation} (hf : Runs I f k)
    (hg : Runs I g k') : Runs I (fun ρ => f ρ >>= g) (fun o => do
      let e ← k' o
      k (some e)) := by
  refine ⟨?_, ?_, ?_⟩
  · intro e' e he
    obtain ⟨e₁, he₁, he⟩ := bind_eq_pure.1 he
    exact (hf.before he).trans I (hg.before he₁) hf.extending hg.extending
  · intro e he ρ
    obtain ⟨e₁, he₁, he⟩ := bind_eq_pure.1 he
    -- the first step is simplified around the expression of the second
    rw [hf.before he]
    cases hρ₁ : f ρ with
    | error _ => rfl
    | ok ρ₁ =>
      have halone := hg.alone he₁ ρ₁
      show (eval I e₁ ρ₁ >>= fun r => pure (r.1, leave ρ r.2)).map Prod.snd =
        (g ρ₁).map (leave ρ)
      cases hr : eval I e₁ ρ₁ with
      | error _ =>
        rw [hr] at halone
        cases hρ₂ : g ρ₁ with
        | error _ =>
          rw [hρ₂] at halone
          cases halone
          rfl
        | ok _ =>
          rw [hρ₂] at halone
          cases halone
      | ok r =>
        rw [hr] at halone
        cases hρ₂ : g ρ₁ with
        | error _ =>
          rw [hρ₂] at halone
          cases halone
        | ok ρ₂ =>
          rw [hρ₂] at halone
          -- leaving the scope of both steps is leaving one after the other
          have hleave : r.2 = leave ρ₁ ρ₂ := Except.ok.inj halone
          show Except.ok (leave ρ r.2) = Except.ok (leave ρ ρ₂)
          rw [hleave, leave_leave (hf.extending hρ₁) (hg.extending hρ₂)]
  · exact Extending.bind hf.extending hg.extending

/-- The fold of `joinStatements`. -/
theorem joinStatements_eq_pure {fs : List Continuation} {o : Option Expression} {e : Expression} :
    joinStatements fs o = pure e ↔ foldRightList (fun prec (cur : Continuation) => do
      let res ← cur prec
      return some res) o fs = pure (some e) := by
  rw [joinStatements, bind_eq_pure]
  constructor
  · rintro ⟨_ | a, ha, h⟩
    · cases h
    · cases h
      exact ha
  · exact fun h => ⟨some e, h, rfl⟩

/-- The statements of a block, joined, run one after the other. -/
theorem joinStatements_runs {ss : List Statement} {fs : List Continuation} (hne : ss ≠ [])
    (h : List.Forall₂ (fun s k => Runs I (execStatement I s) k) ss fs) :
    Runs I (execStatements I ss) (joinStatements fs) := by
  induction h with
  | nil => exact absurd rfl hne
  | @cons s k ss fs hk hks ih =>
    cases hks with
    | nil =>
      -- the last statement has what comes after the block after it
      have hexec : execStatements I [s] = execStatement I s := by
        funext ρ
        rw [execStatements]
        cases execStatement I s ρ <;> rfl
      rw [hexec]
      refine hk.congr fun {o e} he => ?_
      rw [joinStatements_eq_pure, foldRightList_cons] at he
      obtain ⟨a, ha, hcur⟩ := bind_eq_pure.1 he
      obtain ⟨e₁, he₁, hres⟩ := bind_eq_pure.1 hcur
      obtain rfl : o = a := Except.ok.inj (Except.ok.inj ha)
      obtain rfl : e₁ = e := Option.some.inj (Except.ok.inj (Except.ok.inj hres))
      exact he₁
    | @cons s' _ ss =>
      have hexec : execStatements I (s :: s' :: ss) = fun ρ => execStatement I s ρ >>=
          execStatements I (s' :: ss) := by
        funext ρ
        rw [execStatements]
      rw [hexec]
      refine (hk.cons (ih (List.cons_ne_nil _ _))).congr fun {o e} he => ?_
      rw [joinStatements_eq_pure, foldRightList_cons] at he
      obtain ⟨a, ha, he⟩ := bind_eq_pure.1 he
      obtain ⟨e₁, he₁, he⟩ := bind_eq_pure.1 he
      obtain rfl : e₁ = e := Option.some.inj (Except.ok.inj (Except.ok.inj he))
      rw [foldRightList_cons] at ha
      obtain ⟨a', ha', ha⟩ := bind_eq_pure.1 ha
      obtain ⟨e₂, he₂, ha⟩ := bind_eq_pure.1 ha
      obtain rfl : some e₂ = a := Except.ok.inj (Except.ok.inj ha)
      refine bind_eq_pure.2 ⟨e₂, ?_, he₁⟩
      rw [joinStatements_eq_pure, foldRightList_cons]
      exact bind_eq_pure.2 ⟨a', ha', bind_eq_pure.2 ⟨e₂, he₂, rfl⟩⟩

end Runs

/-! ### Declarations and instructions -/

section Single

variable (I : Interpretation)

/-- The continuation is the one of an instruction whose expression does `f`. -/
def Does (f : Env → Answer Env) (k : Continuation) : Prop :=
  ∃ e, ret e = pure k ∧ ∀ ρ, (eval I e ρ).map Prod.snd = f ρ

variable {I}

/-- An instruction can stand anywhere in a block. -/
theorem Does.runs {f : Env → Answer Env} {k : Continuation} (h : Does I f k) : Runs I f k := by
  obtain ⟨e, hk, hf⟩ := h
  exact runs_ret I hk hf

/-- An instruction at the end of a block is the value that is left, of which only the
environment counts. -/
theorem Does.alone {f : Env → Answer Env} {k : Continuation} {e : Expression} (h : Does I f k)
    (he : k none = pure e) (ρ : Env) : (eval I e ρ).map Prod.snd = f ρ := by
  obtain ⟨e', hk, hf⟩ := h
  cases hk
  cases he
  exact hf ρ

/-- An expression of the source means what its simplification evaluates to. -/
theorem evalExpr_eq {e : Expr} {e' : Expression} (h : simplExpression e = pure e') :
    evalExpr I e = eval I e' := by
  funext ρ
  rw [evalExpr, h]
  rfl

/-- A declaration binds its name for the rest of the block. -/
theorem simplDataDeclaration_runs {d : DataDecl} {k : Continuation}
    (h : simplDataDeclaration d = pure k) : Runs I (declare I d) k := by
  cases d with
  | localConst x | localVar x =>
    obtain ⟨t, -, h⟩ := bind_eq_pure.1 h
    obtain ⟨e, he, h⟩ := bind_eq_pure.1 h
    refine runs_returnLetIn I h fun ρ => ?_
    rw [declare, evalExpr_eq he]

/-- The components of a path keep their order. -/
theorem simplPath_eq_pure {p : Path} {r : String × List Access} (h : simplPath p = pure r) :
    r = pathAccess p := by
  cases p with
  | name v =>
    cases h
    rfl
  | path p =>
    obtain ⟨path', hpath', h⟩ := bind_eq_pure.1 h
    cases h
    rw [simplSelections_eq_pure (mapListRev_eq_pure.1 hpath')]
    rfl

/-- What an assignment does, after its right side. -/
theorem eval_eAssign {name : String} {path : List Access} {e : Expression} {ρ : Env} :
    (eval I (.eAssign name path e) ρ).map Prod.snd =
      eval I e ρ >>= fun r => assignPath name path r.1 r.2 := by
  rw [eval]
  cases eval I e ρ with
  | error _ => rfl
  | ok r =>
    show (assignPath name path r.1 r.2 >>= fun ρ => pure (unit, ρ)).map Prod.snd =
      assignPath name path r.1 r.2
    cases assignPath name path r.1 r.2 <;> rfl

/-- An assignment to a variable, to a component or to an entry of a map. -/
theorem simplAssignment_does {lhs : Lhs} {rhs : Rhs} {k : Continuation}
    (h : simplAssignment lhs rhs = pure k) : Does I (execAssign I lhs rhs) k := by
  cases rhs with
  | noneExpr => cases h
  | expr e =>
    obtain ⟨valueExpr, he, h⟩ := bind_eq_pure.1 h
    cases lhs with
    | path path =>
      obtain ⟨⟨name, path'⟩, hpath, h⟩ := bind_eq_pure.1 h
      refine ⟨_, h, fun ρ => ?_⟩
      rw [eval_eAssign, execAssign, evalExpr_eq he, ← simplPath_eq_pure hpath]
    | mapPath path index =>
      cases path with
      | path p => cases h
      | name m =>
        obtain ⟨name, hname, h⟩ := bind_eq_pure.1 h
        obtain ⟨keyExpr, hkey, h⟩ := bind_eq_pure.1 h
        cases hname
        refine ⟨_, h, fun ρ => ?_⟩
        rw [eval_eAssign, execAssign, evalExpr_eq he, evalExpr_eq hkey]
        -- the arguments of the constant are evaluated from the last one on
        simp only [eval, evalList, bind_assoc, pure_bind]
        rfl

/-- Removing an entry is an assignment of the map without it. -/
theorem simplMapRemove_does {key : Expr} {map : Path} {k : Continuation}
    (h : simplMapRemove key map = pure k) : Does I (execRemove I key map) k := by
  cases map with
  | path p => cases h
  | name m =>
    obtain ⟨name, hname, h⟩ := bind_eq_pure.1 h
    obtain ⟨key', hkey, h⟩ := bind_eq_pure.1 h
    cases hname
    refine ⟨_, h, fun ρ => ?_⟩
    rw [eval_eAssign, execRemove, evalExpr_eq hkey]
    simp only [eval, evalList, bind_assoc, pure_bind]
    rfl

/-- The assignments of a patch. -/
def patchAssigns (name : String) (path : List Access) (inj : List (String × Expression)) :
    List Expression :=
  inj.map fun x => .eAssign name (path ++ [.record x.1]) x.2

/-- The fields of a record keep their names and their order. -/
theorem simplFields_eq_pure {lst : List (String × Expr)} {inj : List (String × Expression)}
    (h : simplFields lst = pure inj) :
    List.Forall₂ (fun x y => x.1 = y.1 ∧ simplExpression x.2 = pure y.2) lst inj := by
  induction lst generalizing inj with
  | nil =>
    cases h
    exact .nil
  | cons x lst ih =>
    obtain ⟨k, v⟩ := x
    obtain ⟨y, ys, hy, hys, rfl⟩ := consRev_eq_pure.1 h
    obtain ⟨e, he, hy⟩ := bind_eq_pure.1 hy
    cases hy
    exact .cons ⟨rfl, he⟩ (ih hys)

/-- A sequence of assignments does what the first one does, and then the others. -/
theorem eval_foldl_eSequence (e : Expression) (es : List Expression) (ρ : Env) :
    (eval I (es.foldl .eSequence e) ρ).map Prod.snd = (eval I e ρ).map Prod.snd >>=
      fun ρ => es.foldlM (fun ρ e => (eval I e ρ).map Prod.snd) ρ := by
  induction es generalizing e ρ with
  | nil =>
    show (eval I e ρ).map Prod.snd = _
    cases eval I e ρ <;> rfl
  | cons e₁ es ih =>
    rw [List.foldl_cons, ih, eval]
    cases eval I e ρ <;> rfl

/-- A patch assigns its fields one after the other, each evaluated in what the ones before have
left. -/
theorem execPatch_eq {name : String} {path : List Access} {lst : List (String × Expr)}
    {inj : List (String × Expression)}
    (h : List.Forall₂ (fun x y => x.1 = y.1 ∧ simplExpression x.2 = pure y.2) lst inj) (ρ : Env) :
    execPatch I name path lst ρ = (patchAssigns name path inj).foldlM
      (fun ρ e => (eval I e ρ).map Prod.snd) ρ := by
  induction h generalizing ρ with
  | nil => rfl
  | @cons x y lst inj hxy _ ih =>
    obtain ⟨field, e⟩ := x
    obtain ⟨hfield, he⟩ := hxy
    rw [patchAssigns, List.map_cons, List.foldlM_cons, eval_eAssign, bind_assoc, ← hfield]
    show (evalExpr I e ρ >>= fun r => assignPath name (path ++ [.record field]) r.1 r.2 >>=
      execPatch I name path lst) = _
    rw [evalExpr_eq he, funext ih]
    rfl

/-- A patch of a record is the sequence of the assignments of its fields. -/
theorem simplRecordPatch_does {path : Path} {recordInj : List (String × Expr)} {k : Continuation}
    (h : simplRecordPatch path recordInj = pure k) :
    Does I (execPatch I (pathAccess path).1 (pathAccess path).2 recordInj) k := by
  obtain ⟨⟨name, accessPath⟩, hpath, h⟩ := bind_eq_pure.1 h
  obtain ⟨inj, hinj, h⟩ := bind_eq_pure.1 h
  rw [← simplPath_eq_pure hpath]
  cases inj with
  | nil => cases h
  | cons y inj =>
    refine ⟨_, h, fun ρ => ?_⟩
    rw [eval_foldl_eSequence, execPatch_eq (simplFields_eq_pure hinj)]
    rfl

end Single

/-! ### Cases -/

section Clauses

variable (I : Interpretation)

/-- Evaluate the first clause whose pattern the value matches. -/
def evalClauses : List (Pattern × Expression) → Value → Env → Answer (Value × Env)
  | [], _, _ => stuck
  | x :: lst, v, ρ =>
    match matchPattern x.1 v with
    | some T => do
      let r ← eval I x.2 (T ++ ρ)
      return dropping T.length r
    | none => evalClauses lst v ρ

/-- Clauses with patterns that match the same values, and with the same bodies, mean the same.
-/
theorem evalClauses_congr {t t' : List (Pattern × Expression)}
    (h : List.Forall₂ (fun x y => matchPattern x.1 = matchPattern y.1 ∧ x.2 = y.2) t t')
    (v : Value) (ρ : Env) : evalClauses I t v ρ = evalClauses I t' v ρ := by
  induction h with
  | nil => rfl
  | cons hxy _ ih => rw [evalClauses, evalClauses, hxy.1, hxy.2, ih]

variable {I}

theorem assertSingle_eq_pure {α : Type} {title : String} {lst : List α} {u : Unit}
    (h : assertSingle title lst = pure u) : ∃ a, lst = [a] := by
  rw [assertSingle, lift_eq_pure] at h
  split at h
  · rename_i hlength
    exact List.length_eq_one_iff.1 hlength
  · cases h

/-- A pattern with one component matches what the component matches. -/
theorem matchPattern_getTuple {p q : Pattern} (h : getTuple p = [q]) :
    matchPattern p = matchPattern q := by
  cases p with
  | pCons l | pTuple l =>
    obtain ⟨hd, tl⟩ := l
    cases h
    funext v
    rw [matchPattern]
  | _ =>
    cases h
    rfl

/-- Taking the pattern out of its tuple does not change what it matches. -/
theorem clausePattern_eq_pure {x y : Pattern × Expression} (h : clausePattern x = pure y) :
    matchPattern x.1 = matchPattern y.1 ∧ x.2 = y.2 := by
  obtain ⟨_, hu, h⟩ := bind_eq_pure.1 h
  obtain ⟨p, hp, h⟩ := bind_eq_pure.1 h
  cases h
  obtain ⟨q, hq⟩ := assertSingle_eq_pure hu
  rw [hq] at hp
  cases hp
  exact ⟨matchPattern_getTuple hq, rfl⟩

theorem getVar_eq_pure {p : Pattern} {x : String} (h : getVar p = pure x) : p = .pVar x := by
  cases p with
  | pVar v =>
    cases h
    rfl
  | _ => cases h

/-- A pattern for a list that is not empty is made of two variables. -/
theorem getConsVars_eq_pure {c : Nseq Pattern} {r : String × String}
    (h : getConsVars c = pure r) : c = ⟨.pVar r.1, [.pVar r.2]⟩ := by
  unfold getConsVars at h
  split at h
  · obtain ⟨a, ha, h⟩ := bind_eq_pure.1 h
    obtain ⟨b, hb, h⟩ := bind_eq_pure.1 h
    cases h
    rw [getVar_eq_pure ha, getVar_eq_pure hb]
  · cases h

/-- A constructor pattern binds its variable. -/
theorem clauseConstr_eq_pure {x : Pattern × Expression} {y : (String × String) × Expression}
    (h : clauseConstr x = pure y) : x.2 = y.2 ∧ ∀ name v, matchPattern x.1 (.constructor' name v) =
      if y.1.1 = name then some [(y.1.2, v)] else none := by
  obtain ⟨p, e⟩ := x
  obtain ⟨c, hc, h⟩ := bind_eq_pure.1 h
  cases h
  have hc := trace_eq_pure.1 hc
  cases p with
  -- the pattern of a constructor has one variable, behind any parentheses
  | pConstr constr p =>
    obtain ⟨q, hq, hc⟩ := bind_eq_pure.1 hc
    obtain ⟨var, hvar, hc⟩ := bind_eq_pure.1 hc
    cases hc
    obtain ⟨_, hu, hq⟩ := bind_eq_pure.1 hq
    obtain ⟨q', hq'⟩ := assertSingle_eq_pure hu
    rw [hq'] at hq
    cases hq
    refine ⟨rfl, fun name v => ?_⟩
    rw [matchPattern, matchPattern_getTuple hq', getVar_eq_pure hvar]
    rfl
  | _ => cases hc

/-- A clause that binds nothing. -/
theorem eval_dropping_nil (e : Expression) (ρ : Env) :
    (do
      let r ← eval I e (([] : Env) ++ ρ)
      return dropping ([] : Env).length r) = eval I e ρ := by
  show (eval I e ρ >>= fun r => pure (dropping 0 r)) = eval I e ρ
  cases eval I e ρ <;> rfl

/-- Looking a constructor up among the clauses of a match finds the first clause whose pattern
matches it. -/
theorem evalVariant_eq {lst : List (Pattern × Expression)}
    {constrs : List ((String × String) × Expression)}
    (h : List.Forall₂ (fun x y => clauseConstr x = pure y) lst constrs) (name : String)
    (v : Value) (ρ : Env) :
    evalVariant I constrs name v ρ = evalClauses I lst (.constructor' name v) ρ := by
  induction h with
  | nil => rfl
  | @cons x y lst constrs hxy _ ih =>
    obtain ⟨he, hmatch⟩ := clauseConstr_eq_pure hxy
    obtain ⟨⟨constr, var⟩, e⟩ := y
    rw [evalVariant, evalClauses, hmatch, ih, he]
    by_cases hname : constr = name
    · rw [if_pos hname, if_pos hname]
      rfl
    · rw [if_neg hname, if_neg hname]

/-- A value that is not of a variant matches no constructor pattern. -/
theorem evalClauses_eq_stuck {lst : List (Pattern × Expression)}
    {constrs : List ((String × String) × Expression)}
    (h : List.Forall₂ (fun x y => clauseConstr x = pure y) lst constrs) {v : Value}
    (hv : ∀ name w, v ≠ .constructor' name w) (ρ : Env) : evalClauses I lst v ρ = stuck := by
  induction h with
  | nil => rfl
  | @cons x y lst constrs hxy _ ih =>
    obtain ⟨p, e⟩ := x
    -- the pattern of a clause is one of a constructor, which no other value matches
    have hp : matchPattern p v = none := by
      cases p with
      | pConstr constr p =>
        cases v with
        | constructor' name w => exact absurd rfl (hv name w)
        | _ => rfl
      | _ =>
        obtain ⟨c, hc, -⟩ := bind_eq_pure.1 hxy
        cases trace_eq_pure.1 hc
    rw [evalClauses, hp]
    exact ih

/-- The match that is put together from the clauses, a match on booleans, options, lists, tuples
or a sum, means what the clauses mean, tried in their order. By the kinds of the patterns, in
the order in which the simplifier looks for them. -/
theorem matchPatterns_eval {t : List (Pattern × Expression)} {m : MatchingExpr}
    (h : matchPatterns t = pure m) (v : Value) (ρ : Env) :
    evalMatching I m v ρ = evalClauses I t v ρ := by
  -- the shapes of matches that the simplifier knows, in its order
  unfold matchPatterns at h
  split at h
  · cases h
    cases v with
    | literal l =>
      cases l with
      | bool b => cases b <;> exact (eval_dropping_nil _ ρ).symm
      | _ => rfl
    | _ => rfl
  · cases h
    cases v with
    | literal l =>
      cases l with
      | bool b => cases b <;> exact (eval_dropping_nil _ ρ).symm
      | _ => rfl
    | _ => rfl
  -- options: the variable of the pattern is bound in the branch of `Some`
  · split at h
    · cases h
      cases v with
      | none' => exact (eval_dropping_nil _ ρ).symm
      | _ => rfl
    · cases h
  · split at h
    · cases h
      cases v with
      | none' => exact (eval_dropping_nil _ ρ).symm
      | _ => rfl
    · cases h
  -- lists: the two variables are bound in the branch of the cons
  · obtain ⟨⟨a, b⟩, hc, h⟩ := bind_eq_pure.1 h
    cases h
    rw [getConsVars_eq_pure hc]
    cases v with
    | list vs =>
      cases vs with
      | nil => exact (eval_dropping_nil _ ρ).symm
      | cons v vs => rfl
    | _ => rfl
  · obtain ⟨⟨a, b⟩, hc, h⟩ := bind_eq_pure.1 h
    cases h
    rw [getConsVars_eq_pure hc]
    cases v with
    | list vs =>
      cases vs with
      | nil => exact (eval_dropping_nil _ ρ).symm
      | cons v vs => rfl
    | _ => rfl
  -- anything else has to be a match on constructors
  · obtain ⟨constrs, hconstrs, h⟩ := bind_eq_pure.1 (trace_eq_pure.1 h)
    cases h
    have hlst := mapList_eq_pure.1 hconstrs
    cases v with
    | constructor' name v => exact evalVariant_eq hlst name v ρ
    | _ => exact (evalClauses_eq_stuck hlst (by simp) ρ).symm

/-- The match evaluates the first clause that applies. -/
theorem simplCases_eval {t : List (Pattern × Expression)} {m : MatchingExpr}
    (h : simplCases t = pure m) (v : Value) (ρ : Env) :
    evalMatching I m v ρ = evalClauses I t v ρ := by
  obtain ⟨patterns, hpatterns, h⟩ := bind_eq_pure.1 h
  rw [matchPatterns_eval h]
  refine (evalClauses_congr I ?_ v ρ).symm
  exact (mapList_eq_pure.1 hpatterns).imp fun _ _ => clausePattern_eq_pure

end Clauses

/-! ### Statements -/

section Statements

variable (I : Interpretation)

/-- The expression of a clause does what its instruction does. -/
def ClauseDoes (c : CaseClause Instruction) (x : Pattern × Expression) : Prop :=
  c.pattern = x.1 ∧ ∀ ρ, (eval I x.2 ρ).map Prod.snd = execInstruction I c.rhs ρ

/-- The clauses of a case instruction, whose bodies are blocks of their own. -/
theorem execClauses_eq {lst : List (CaseClause Instruction)} {t : List (Pattern × Expression)}
    (h : List.Forall₂ (ClauseDoes I) lst t) (v : Value) (ρ : Env) :
    (evalClauses I t v ρ).map Prod.snd = execClauses I lst v ρ := by
  induction h with
  | nil => rfl
  | @cons c x lst t hcx _ ih =>
    obtain ⟨pattern, rhs⟩ := c
    obtain ⟨hpattern, hexec⟩ := hcx
    rw [execClauses, execClause, evalClauses, ← hpattern]
    -- a pattern that does not match leaves the clause to the rest
    cases matchPattern pattern v with
    | none => exact ih
    | some T =>
      show (eval I x.2 (T ++ ρ) >>= fun r => pure (dropping T.length r)).map Prod.snd =
        (execInstruction I rhs (T ++ ρ) >>= fun ρ' => pure (leave ρ ρ'))
      rw [← hexec]
      cases hr : eval I x.2 (T ++ ρ) with
      | error _ => rfl
      | ok r =>
        -- the variables of the pattern are dropped after the clause
        have hlength : r.2.length = T.length + ρ.length := by
          rw [eval_length I hr, List.length_append]
        show Except.ok (r.2.drop T.length) = Except.ok (leave ρ r.2)
        rw [leave_append hlength]

/-- A block runs its statements and leaves their declarations. -/
theorem execBlock_eq (b : Nseq Statement) (ρ : Env) :
    execBlock I b ρ = (execStatements I b.toList ρ).map (leave ρ) := by
  obtain ⟨hd, tl⟩ := b
  rw [execBlock, Nseq.toList, execStatements]
  -- the block leaves as many bindings as it has found
  cases execStatement I hd ρ with
  | error _ => rfl
  | ok ρ₁ =>
    show (execStatements I tl ρ₁ >>= fun ρ₂ => pure (leave ρ ρ₂)) = _
    cases h : execStatements I tl ρ₁ with
    | error _ =>
      show _ = (execStatements I tl ρ₁).map (leave ρ)
      rw [h]
      rfl
    | ok _ =>
      show _ = (execStatements I tl ρ₁).map (leave ρ)
      rw [h]
      rfl

mutual

/-- Statements, instructions and blocks are simplified together, so this and the next results
are one recursion on the source. -/
theorem simplStatement_runs : ∀ s k, simplStatement s = pure k → Runs I (execStatement I s) k
  | .instr i, k, h => by
    have hexec : execStatement I (.instr i) = execInstruction I i := by
      funext ρ
      rw [execStatement]
    rw [hexec]
    exact simplInstruction_runs i k h
  | .data d, k, h => by
    have hexec : execStatement I (.data d) = declare I d := by
      funext ρ
      rw [execStatement]
    rw [hexec]
    exact simplDataDeclaration_runs h

theorem simplInstruction_runs :
    ∀ i k, simplInstruction i = pure k → Runs I (execInstruction I i) k
  | .single s, k, h => by
    have hexec : execInstruction I (.single s) = execSingle I s := by
      funext ρ
      rw [execInstruction]
    rw [hexec]
    exact (simplSingleInstruction_does s k (trace_eq_pure.1 h)).runs
  | .block _, _, h => by
    rw [simplInstruction, trace_eq_pure] at h
    cases h

/-- A block at the end of another one: what is left of it is its environment without its
declarations. -/
theorem simplInstructionBlock_alone : ∀ i k e, simplInstructionBlock i = pure k →
    k none = pure e → ∀ ρ, (eval I e ρ).map Prod.snd = execInstruction I i ρ
  | .single s, k, e, h, he, ρ => by
    rw [execInstruction]
    exact (simplSingleInstruction_does s k h).alone he ρ
  | .block b, k, e, h, he, ρ => by
    rw [execInstruction, execBlock_eq]
    exact (simplStatements_runs b k h).alone he ρ

/-- Conditionals, loops and matches do what their blocks do. -/
theorem simplSingleInstruction_does :
    ∀ s k, simplSingleInstruction s = pure k → Does I (execSingle I s) k
  | .procCall, _, h | .forLoop, _, h | .mapPatch, _, h | .setPatch, _, h | .setRemove, _, h => by
    cases h
  | .fail e, k, h => by
    obtain ⟨expr, he, h⟩ := bind_eq_pure.1 h
    refine ⟨_, h, fun ρ => ?_⟩
    rw [eval, execSingle, evalExpr_eq he]
    cases eval I expr ρ <;> rfl
  | .skip, k, h => ⟨_, h, fun ρ => by rw [eval, execSingle]; rfl⟩
  | .whileLoop cond block, k, h => by
    obtain ⟨cond', hcond, h⟩ := bind_eq_pure.1 h
    obtain ⟨kbody, hkbody, h⟩ := bind_eq_pure.1 h
    obtain ⟨body, hbody, h⟩ := bind_eq_pure.1 h
    refine ⟨_, h, fun ρ => ?_⟩
    -- the body is simplified on its own, and does what the block does
    have hblock : (fun ρ => (eval I body ρ).map Prod.snd) = execBlock I block := by
      funext ρ
      rw [execBlock_eq]
      exact (simplStatements_runs block kbody hkbody).alone hbody ρ
    rw [eval, execSingle, evalExpr_eq hcond, hblock]
    cases Fuel.iterate (fun ρ => eval I cond' ρ >>= asBool) (execBlock I block) .exhausted
      I.rounds ρ <;> rfl
  | .cond test ifso ifnot, k, h => by
    obtain ⟨expr, he, h⟩ := bind_eq_pure.1 h
    obtain ⟨kt, hkt, h⟩ := bind_eq_pure.1 h
    obtain ⟨kf, hkf, h⟩ := bind_eq_pure.1 h
    obtain ⟨matchTrue, ht, h⟩ := bind_eq_pure.1 h
    obtain ⟨matchFalse, hf, h⟩ := bind_eq_pure.1 h
    refine ⟨_, h, fun ρ => ?_⟩
    rw [eval, execSingle, evalExpr_eq he]
    cases eval I expr ρ with
    | error _ => rfl
    | ok r =>
      obtain ⟨v, ρ⟩ := r
      cases v with
      | literal l =>
        cases l with
        | bool b =>
          cases b with
          | true => exact simplIfClause_alone ifso kt matchTrue hkt ht ρ
          | false => exact simplIfClause_alone ifnot kf matchFalse hkf hf ρ
        | _ => rfl
      | _ => rfl
  | .assign lhs rhs, k, h => by
    have hexec : execSingle I (.assign lhs rhs) = execAssign I lhs rhs := by
      funext ρ
      rw [execSingle]
    rw [hexec]
    exact simplAssignment_does h
  | .caseInstr expr ⟨hd, tl⟩, k, h => by
    obtain ⟨expr', he, h⟩ := bind_eq_pure.1 h
    obtain ⟨clauses, hcases, h⟩ := bind_eq_pure.1 h
    obtain ⟨m, hm, hret⟩ := bind_eq_pure.1 h
    obtain ⟨x, t, hx, ht, rfl⟩ := consRev_eq_pure.1 hcases
    -- the clauses are simplified from the last one to the first
    have hclauses := List.Forall₂.cons (simplInstrClause_does hd x hx)
      (simplInstrClauses_does tl t ht)
    refine ⟨_, hret, fun ρ => ?_⟩
    rw [eval, execSingle, evalExpr_eq he]
    cases eval I expr' ρ with
    | error _ => rfl
    | ok r =>
      show (evalMatching I m r.1 r.2).map Prod.snd =
        execClause I hd r.1 r.2 (execClauses I tl r.1 r.2)
      rw [simplCases_eval hm, execClauses_eq I hclauses, execClauses]
  | .recordPatch path recordInj, k, h => by
    have hexec : execSingle I (.recordPatch path recordInj) =
        execPatch I (pathAccess path).1 (pathAccess path).2 recordInj := by
      funext ρ
      rw [execSingle]
    rw [hexec]
    exact simplRecordPatch_does h
  | .mapRemove key map, k, h => by
    have hexec : execSingle I (.mapRemove key map) = execRemove I key map := by
      funext ρ
      rw [execSingle]
    rw [hexec]
    exact simplMapRemove_does h

/-- The branches of a conditional are blocks of their own. -/
theorem simplIfClause_alone : ∀ c k e, simplIfClause c = pure k → k none = pure e →
    ∀ ρ, (eval I e ρ).map Prod.snd = execIf I c ρ
  | .clauseInstr i, k, e, h, he, ρ => by
    rw [execIf]
    exact simplInstructionBlock_alone i k e h he ρ
  | .clauseBlock b, k, e, h, he, ρ => by
    rw [execIf, execBlock_eq]
    exact (simplStatements_runs b k h).alone he ρ

theorem simplInstrClause_does : ∀ c x, simplInstrClause c = pure x → ClauseDoes I c x
  | ⟨pattern, rhs⟩, x, h => by
    obtain ⟨k, hk, h⟩ := bind_eq_pure.1 h
    obtain ⟨e, he, h⟩ := bind_eq_pure.1 h
    cases h
    exact ⟨rfl, simplInstructionBlock_alone rhs k e hk he⟩

theorem simplInstrClauses_does :
    ∀ lst t, simplInstrClauses lst = pure t → List.Forall₂ (ClauseDoes I) lst t
  | [], t, h => by
    cases h
    exact .nil
  | c :: lst, t, h => by
    obtain ⟨x, t, hx, ht, rfl⟩ := consRev_eq_pure.1 h
    exact .cons (simplInstrClause_does c x hx) (simplInstrClauses_does lst t ht)

theorem simplStatements_runs :
    ∀ b k, simplStatements b = pure k → Runs I (execStatements I b.toList) k
  | ⟨hd, tl⟩, k, h => by
    obtain ⟨_, hlst, h⟩ := bind_eq_pure.1 h
    cases h
    obtain ⟨f, fs, hf, hfs, rfl⟩ := cons_eq_pure.1 hlst
    exact joinStatements_runs (List.cons_ne_nil _ _)
      (.cons (simplStatement_runs hd f hf) (simplStatementList_runs tl fs hfs))

theorem simplStatementList_runs : ∀ lst fs, simplStatementList lst = pure fs →
    List.Forall₂ (fun s k => Runs I (execStatement I s) k) lst fs
  | [], fs, h => by
    cases h
    exact .nil
  | s :: lst, fs, h => by
    obtain ⟨f, fs, hf, hfs, rfl⟩ := cons_eq_pure.1 h
    exact .cons (simplStatement_runs s f hf) (simplStatementList_runs lst fs hfs)

end

end Statements

/-! ### Functions -/

section Functions

variable (I : Interpretation)

/-- The fold over the continuations, from the last to the first, executes them from the first to
the last. -/
theorem foldRightList_executes {fs : List (Env → Answer Env)} {ks : List Continuation}
    {e' e : Expression} (h : List.Forall₂ (Runs I) fs ks)
    (he : foldRightList (fun prec (cur : Continuation) => cur (some prec)) e' ks = pure e) :
    Executes I (execAll fs) e' e ∧ Extending (execAll fs) := by
  -- the fold starts from the last continuation, so the first one is run before all others
  induction h generalizing e with
  | nil =>
    cases he
    refine ⟨fun ρ => ?_, fun h => ?_⟩
    · show eval I e' ρ = (eval I e' ρ >>= fun r => pure (r.1, leave ρ r.2))
      cases hr : eval I e' ρ with
      | error _ => rfl
      | ok r =>
        show Except.ok r = Except.ok (r.1, leave ρ r.2)
        rw [leave_of_length (eval_length I hr)]
    · cases h
      exact Nat.le_refl _
  | @cons f k fs ks hk _ ih =>
    rw [foldRightList_cons] at he
    obtain ⟨e₁, he₁, he⟩ := bind_eq_pure.1 he
    obtain ⟨hexec, hext⟩ := ih he₁
    -- what the first statement binds is in scope of the others
    have hall : execAll (f :: fs) = fun ρ => f ρ >>= execAll fs := by
      funext ρ
      rw [execAll]
    rw [hall]
    exact ⟨(hk.before he).trans I hexec hk.extending hext, Extending.bind hk.extending hext⟩

variable {I}

theorem simplParam_eq_pure {p : ParamDecl} {x : String × TypeExpression}
    (h : simplParam p = pure x) : x.1 = paramName p := by
  cases p with
  | paramConst c | paramVar v =>
    obtain ⟨t, -, h⟩ := bind_eq_pure.1 h
    cases h
    rfl

/-- A parameter is declared as a component of the tuple of arguments. -/
theorem tplDeclaration_runs {i : ℕ} {p : ParamDecl} {x : String × TypeExpression}
    {k : Continuation} (hp : simplParam p = pure x) (h : tplDeclaration "arguments" i x = pure k) :
    Runs I (bindParam I i p) k :=
  runs_returnLetIn I h fun ρ => by rw [bindParam, simplParam_eq_pure hp]

/-- The declarations of the parameters bind them in their order. -/
theorem tplDeclarations_run {lst : List ParamDecl} {params : List (String × TypeExpression)}
    {tplDeclarations : List Continuation} (hparams : mapList simplParam lst = pure params)
    (h : mapListRev id (params.mapIdx (tplDeclaration "arguments")) = pure tplDeclarations) :
    List.Forall₂ (Runs I) (lst.mapIdx (bindParam I)) tplDeclarations := by
  have hp := List.forall₂_iff_get.1 (mapList_eq_pure.1 hparams)
  have ht := List.forall₂_iff_get.1 (mapListRev_eq_pure.1 h)
  refine List.forall₂_iff_get.2 ⟨?_, fun i hi hi' => ?_⟩
  · rw [List.length_mapIdx, hp.1, ← ht.1, List.length_mapIdx]
  · rw [List.length_mapIdx] at hi
    have hparam := hp.2 i hi (hp.1 ▸ hi)
    have htpl := ht.2 i (by rw [List.length_mapIdx]; exact hp.1 ▸ hi) hi'
    simp only [List.get_eq_getElem, List.getElem_mapIdx, id] at hparam htpl ⊢
    exact tplDeclaration_runs hparam htpl

/-- Local functions are declarations like the others. -/
theorem simplLocalDeclaration_runs {d : LocalDecl} {k : Continuation}
    (h : simplLocalDeclaration d = pure k) : Runs I (execLocal I d) k := by
  -- a local declaration binds data or a function
  cases d with
  | localData d =>
    have hexec : execLocal I (.localData d) = declare I d := by
      funext ρ
      rw [execLocal]
    rw [hexec]
    exact simplDataDeclaration_runs h
  | localLam l =>
    cases l with
    | funDecl f =>
      obtain ⟨⟨⟨name, t⟩, e⟩, hf, h⟩ := bind_eq_pure.1 h
      refine runs_returnLetIn I h fun ρ => ?_
      rw [execLocal, hf]
      rfl
    | procDecl => cases h
    | entryDecl => cases h

theorem simplLocalDeclarations_run {lst : List LocalDecl} {ks : List Continuation}
    (h : simplLocalDeclarations lst = pure ks) :
    List.Forall₂ (Runs I) (lst.map (execLocal I)) ks := by
  induction lst generalizing ks with
  | nil =>
    cases h
    exact .nil
  | cons d lst ih =>
    obtain ⟨k, ks, hk, hks, rfl⟩ := cons_eq_pure.1 h
    exact .cons (simplLocalDeclaration_runs hk) (ih hks)

theorem simplStatementsOf_run {lst : List Statement} {ks : List Continuation}
    (h : mapListRev simplStatement lst = pure ks) :
    List.Forall₂ (Runs I) (lst.map (execStatement I)) ks :=
  List.forall₂_map_left_iff.2 ((mapListRev_eq_pure.1 h).imp fun s k => simplStatement_runs I s k)

/-- The lambda of a function, from the parts of its body. -/
theorem funBinding_eq_pure {name binder : String} {inputType outputType : TypeExpression}
    {fs : Interpretation → List (Env → Answer Env)} {body : List Continuation} {return' : Expr}
    {result : Expression} {b : Binding} (hbody : ∀ I, List.Forall₂ (Runs I) (fs I) body)
    (hreturn : simplExpression return' = pure result)
    (h : funBinding name binder inputType outputType body result = pure b) :
    ∃ e, b.2 = .eLambda binder (some inputType) (some inputType) (some outputType) e ∧
      ∀ I ρ, eval I e ρ = (do
        let ρ₁ ← execAll (fs I) ρ
        let (v, ρ₂) ← evalExpr I return' ρ₁
        return (v, leave ρ ρ₂)) := by
  obtain ⟨e, he, h⟩ := bind_eq_pure.1 h
  cases h
  refine ⟨e, rfl, fun I ρ => ?_⟩
  rw [evalExpr_eq hreturn]
  exact (foldRightList_executes I (hbody I) he).1 ρ

/-- **Blocks.** The expression of a function executes its body: the local declarations and the
statements in the order of the source, each declaration in scope for what follows it in its
block, and then the result, in the environment that they leave. -/
theorem simplFunDeclaration_executes {f : FunDecl} {b : Binding}
    (h : simplFunDeclaration f = pure b) :
    ∃ inputType outputType e, b.2 =
        .eLambda (binderName f) (some inputType) (some inputType) (some outputType) e ∧
      ∀ I ρ, eval I e ρ = execBody I f ρ := by
  obtain ⟨name, ⟨p, ps⟩, retType, localDecls, block, return'⟩ := f
  cases ps with
  | nil =>
    rw [simplFunDeclaration] at h
    obtain ⟨⟨binder, inputType⟩, hp, h⟩ := bind_eq_pure.1 h
    obtain ⟨locals, hlocals, h⟩ := bind_eq_pure.1 h
    obtain ⟨instructions, hinstr, h⟩ := bind_eq_pure.1 h
    obtain ⟨result, hresult, h⟩ := bind_eq_pure.1 h
    obtain ⟨outputType, -, h⟩ := bind_eq_pure.1 h
    obtain rfl : binder = paramName p := simplParam_eq_pure hp
    -- the simplified steps run as the declarations and the block do, one by one
    have hbody : ∀ I, List.Forall₂ (Runs I) (localDecls.map (execLocal I) ++
        block.toList.map (execStatement I)) (locals ++ instructions) := fun I =>
      List.rel_append (simplLocalDeclarations_run hlocals) (simplStatementsOf_run hinstr)
    obtain ⟨e, hb, he⟩ := funBinding_eq_pure hbody hresult h
    exact ⟨inputType, outputType, e, hb, he⟩
  | cons q ps =>
    rw [simplFunDeclaration] at h
    · obtain ⟨params, hparams, h⟩ := bind_eq_pure.1 h
      obtain ⟨tpls, htpls, h⟩ := bind_eq_pure.1 h
      obtain ⟨locals, hlocals, h⟩ := bind_eq_pure.1 h
      obtain ⟨instructions, hinstr, h⟩ := bind_eq_pure.1 h
      obtain ⟨result, hresult, h⟩ := bind_eq_pure.1 h
      obtain ⟨outputType, -, h⟩ := bind_eq_pure.1 h
      -- several parameters are components of the one argument, which are bound first
      have hbody : ∀ I, List.Forall₂ (Runs I) ((p :: q :: ps).mapIdx (bindParam I) ++
          localDecls.map (execLocal I) ++ block.toList.map (execStatement I))
          (tpls ++ locals ++ instructions) := fun I =>
        List.rel_append (List.rel_append (tplDeclarations_run hparams htpls)
          (simplLocalDeclarations_run hlocals)) (simplStatementsOf_run hinstr)
      obtain ⟨e, hb, he⟩ := funBinding_eq_pure hbody hresult h
      exact ⟨_, outputType, e, hb, he⟩
    · simp

/-- ```
function f (const x : int) : int is
  var y : int := 1 ;
  function g (const z : int) : int is begin skip end with z + y
  begin
    const k : int = 2 ;
    while x < k begin const j : int = 3 ; y := y + j end ;
    if x = k then y := g(5) else begin var y : int := 7 ; y := y + k end
  end with y
``` -/
def nested : FunDecl :=
  let int : TypeExpr := .tProd ⟨.tAlias "int", []⟩
  let param (x : String) : Nseq ParamDecl := ⟨.paramConst ⟨x, int⟩, []⟩
  let assign (x : String) (e : Expr) : Statement :=
    .instr (.single (.assign (.path (.name x)) (.expr e)))
  let loop : SingleInstr := .whileLoop (.eLogic .lt (.eVar "x") (.eVar "k"))
    ⟨.data (.localConst ⟨"j", int, .eInt 3⟩),
      [assign "y" (.eArith .add (.eVar "y") (.eVar "j"))]⟩
  let ifnot : IfClause := .clauseBlock ⟨.data (.localVar ⟨"y", int, .eInt 7⟩),
    [assign "y" (.eArith .add (.eVar "y") (.eVar "k"))]⟩
  let test : SingleInstr := .cond (.eLogic .equal (.eVar "x") (.eVar "k"))
    (.clauseInstr (.single (.assign (.path (.name "y")) (.expr (.eCall "g" ⟨.eInt 5, []⟩)))))
    ifnot
  let g : FunDecl := .mk "g" (param "z") int [] ⟨.instr (.single .skip), []⟩
    (.eArith .add (.eVar "z") (.eVar "y"))
  .mk "f" (param "x") int
    [.localData (.localVar ⟨"y", int, .eInt 1⟩), .localLam (.funDecl g)]
    ⟨.data (.localConst ⟨"k", int, .eInt 2⟩), [.instr (.single loop), .instr (.single test)]⟩
    (.eVar "y")

/-- A function with a block inside a block. -/
theorem nested_executes : ∃ b, simplFunDeclaration nested = pure b ∧
    ∃ inputType outputType e,
      b.2 = .eLambda "x" (some inputType) (some inputType) (some outputType) e ∧
      ∀ I ρ, eval I e ρ = execBody I nested ρ :=
  ⟨_, rfl, simplFunDeclaration_executes (f := nested) rfl⟩

/-- `function f (const x : tez) : tez is const amount : tez = x begin skip end with amount` -/
def declaresAmount : FunDecl :=
  let tez : TypeExpr := .tProd ⟨.tAlias "tez", []⟩
  .mk "f" ⟨.paramConst ⟨"x", tez⟩, []⟩ tez
    [.localData (.localConst ⟨"amount", tez, .eVar "x"⟩)] ⟨.instr (.single .skip), []⟩
    (.eVar "amount")

/-- The result is the predefined constant, whatever the value of the local one. -/
theorem declaresAmount_reads_constant : ∃ name t e,
    simplFunDeclaration declaresAmount = pure (name, .eLambda "x" t t t e) ∧
      ∀ I v, (eval I e [("x", v)]).map Prod.fst = I.constant "AMOUNT" [] := by
  refine ⟨_, _, _, rfl, fun I v => ?_⟩
  show ((I.constant "AMOUNT" [] >>= fun u => pure (u, [("amount", v), ("x", v)])) >>=
    fun r => pure (dropping 1 r)).map Prod.fst = I.constant "AMOUNT" []
  cases I.constant "AMOUNT" [] <;> rfl

end Functions

end Ligo.Simplify.Pascaligo
