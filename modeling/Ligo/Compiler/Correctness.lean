import Ligo.Compiler.ConstantRun
import Ligo.Compiler.EnvironmentRun
import Ligo.Compiler.Literal

/-!
# Correctness of the code generator

The code of a plain expression computes its value (`step_translateExpression`): run on a
stack that starts with the values of the environment, it ends with the value of the
expression, the values the reference semantics leaves in the environment, and the
same rest. The statement is an equation between outcomes, at every depth of calls, so
failures and loops that run out of rounds correspond as well.

The reference semantics is taken here over the functions of the target (`compileQuote`):
a function value is its code.
-/

namespace Ligo.CompilerProgram

open MiniC Michelson
open Fuel (bind_eq_ok bind_bimap iterate_bimap)
open Scope (names vals)

variable {ctx : Michelson.Context}

/-- What a successful `return` of `translate_expression` went through. -/
theorem finish_eq_ok {env env' : Environment} {ty : TypeValue} {code : Node}
    {r : Node × Environment} (h : finish ctx env ty env' code = .ok r) :
    r = (code, env') ∧ ∃ s s', CompilerType.Ty.environment env = .ok s ∧
      CompilerType.Ty.environment env' = .ok s' ∧ parseMichelson ctx code s s' = true := by
  obtain ⟨s, hs, h⟩ := bind_eq_ok.1 h
  obtain ⟨_, -, h⟩ := bind_eq_ok.1 h
  obtain ⟨s', hs', h⟩ := bind_eq_ok.1 h
  obtain ⟨_, hcheck, h⟩ := bind_eq_ok.1 h
  cases h
  unfold CompilerEnvironment.check at hcheck
  split at hcheck
  · exact ⟨rfl, s, s', hs, hs', by assumption⟩
  · cases hcheck

/-- The type of an expression that compiles is a Michelson type. -/
theorem type_of_environment_tmp {ty : TypeValue} {env : Environment} {s : StackTy}
    (h : CompilerType.Ty.environment (tmp ty env) = .ok s) :
    ∃ t, CompilerType.Ty.type_ ty = .ok t := by
  rw [CompilerType.Ty.environment, tmp, Environment.add, List.mapM_cons] at h
  obtain ⟨t, ht, -⟩ := bind_eq_ok.1 h
  exact ⟨t, ht⟩

/-- The stack that an evaluation leaves. -/
def resultStack (rest : Michelson.Stack) (r : Michelson.Value Node × Env Node) :
    Michelson.Stack :=
  r.1 :: (vals r.2 ++ rest)

/-- `e` compiles, in every environment, to code that computes it. -/
def Compiles (ctx : Michelson.Context) (e : Expression) : Prop :=
  ∀ {env : Environment} {code : Node} {env' : Environment},
    translateExpression ctx e env = .ok (code, env') →
    (∃ t, env' = tmp t env) ∧
    ∀ (exec : Node → Michelson.Value Node → Outcome Node (Michelson.Value Node)) (n : ℕ)
      {ρ : Env Node} (_ : names ρ = names env) (rest : Michelson.Stack),
      step ctx exec n code (vals ρ ++ rest) =
        Fuel.bimap id (resultStack rest) (eval ctx (compileQuote ctx) exec n e ρ)

/-! ### Leaves -/

/-- Expressions without parts are compiled to one instruction. -/
theorem compiles_skip (ty : TypeValue) : Compiles ctx (.mk .eSkip ty) := by
  intro env code env' h
  obtain ⟨hr, -⟩ := finish_eq_ok (trace_eq_ok.1 h)
  cases hr
  exact ⟨⟨_, rfl⟩, fun _ _ _ _ _ => rfl⟩

theorem compiles_makeEmptyMap (k v ty : TypeValue) :
    Compiles ctx (.mk (.eMakeEmptyMap k v) ty) := by
  intro env code env' h
  obtain ⟨_, -, h⟩ := bind_eq_ok.1 (trace_eq_ok.1 h)
  obtain ⟨_, -, h⟩ := bind_eq_ok.1 h
  obtain ⟨hr, -⟩ := finish_eq_ok h
  cases hr
  exact ⟨⟨_, rfl⟩, fun _ _ _ _ _ => rfl⟩

theorem compiles_makeEmptyList (t ty : TypeValue) :
    Compiles ctx (.mk (.eMakeEmptyList t) ty) := by
  intro env code env' h
  obtain ⟨_, -, h⟩ := bind_eq_ok.1 (trace_eq_ok.1 h)
  obtain ⟨hr, -⟩ := finish_eq_ok h
  cases hr
  exact ⟨⟨_, rfl⟩, fun _ _ _ _ _ => rfl⟩

theorem compiles_makeNone (t ty : TypeValue) : Compiles ctx (.mk (.eMakeNone t) ty) := by
  intro env code env' h
  obtain ⟨_, -, h⟩ := bind_eq_ok.1 (trace_eq_ok.1 h)
  obtain ⟨hr, -⟩ := finish_eq_ok h
  cases hr
  exact ⟨⟨_, rfl⟩, fun _ _ _ _ _ => rfl⟩

/-- The literal that is pushed reads as the value of the literal. -/
theorem compiles_literal {v : MiniC.Value} {ty : TypeValue}
    (hv : ∀ t, CompilerType.Ty.type_ ty = .ok t → QuoteShaped t v) :
    Compiles ctx (.mk (.eLiteral v) ty) := by
  intro env code env' h
  obtain ⟨v', hv', h⟩ := bind_eq_ok.1 (trace_eq_ok.1 h)
  obtain ⟨t', ht', h⟩ := bind_eq_ok.1 h
  obtain ⟨hr, _, _, -, hs', -⟩ := finish_eq_ok h
  cases hr
  obtain ⟨t, ht⟩ := type_of_environment_tmp hs'
  refine ⟨⟨_, rfl⟩, fun exec n ρ _ rest => ?_⟩
  rw [step_iPush (CompilerType.readTy_type_ ht ht'), readData_translateValue hv' (hv t ht)]
  simp only [eval, eval', ht]
  cases denote ctx (compileQuote ctx) t v <;> rfl

/-- Writing the newest binding of a name. -/
theorem step_set {env : Environment} {x : String} {code : Node}
    (h : CompilerEnvironment.set ctx env x = .ok code)
    {exec : Node → Michelson.Value Node → Outcome Node (Michelson.Value Node)} {n : ℕ}
    {ρ : Env Node} (hρ : names ρ = names env) (w : Michelson.Value Node)
    (rest : Michelson.Stack) :
    step ctx exec n code (w :: (vals ρ ++ rest)) =
      .ok (vals (Scope.assign x w ρ) ++ rest) := by
  obtain ⟨⟨t, position⟩, hpos, h⟩ := bind_eq_ok.1 h
  obtain ⟨_, -, h⟩ := bind_eq_ok.1 h
  obtain ⟨_, -, h⟩ := bind_eq_ok.1 h
  obtain ⟨_, -, h⟩ := bind_eq_ok.1 h
  cases h
  obtain ⟨pre, v, post, rfl, rfl, hfresh⟩ := assocI_spec hρ (traceOption_eq_ok.1 hpos)
  have hstep := @CompilerEnvironment.step_setCode ctx exec n w (vals pre) v (vals post ++ rest)
  rw [Scope.assign_append_of_notMem hfresh, Scope.assign, if_pos rfl]
  simpa [Scope.vals] using hstep

/-- The position of the newest binding is its place on the stack. -/
theorem compiles_variable (x : String) (ty : TypeValue) :
    Compiles ctx (.mk (.eVariable x) ty) := by
  intro env code env' h
  obtain ⟨code', hget, h⟩ := bind_eq_ok.1 (trace_eq_ok.1 h)
  obtain ⟨hr, -⟩ := finish_eq_ok h
  cases hr
  refine ⟨⟨_, rfl⟩, fun exec n ρ hρ rest => ?_⟩
  have hread := CompilerEnvironment.readCode_of_get hget
  obtain ⟨v, hv, hstep⟩ := CompilerEnvironment.step_readCode hread hρ rest
  rw [hstep]
  simp only [eval, eval', hv]
  rfl

/-! ### Branches and scopes -/

/-- The condition is on top of the stack when the branches start. -/
theorem compiles_ifBool {c a b : Expression} {ty : TypeValue} (hpc : Plain c)
    (hc : Compiles ctx c) (ha : Compiles ctx a) (hb : Compiles ctx b) :
    Compiles ctx (.mk (.eIfBool c a b) ty) := by
  intro env code env' h
  -- what the compiler has done: the condition, both branches, and the check at the end
  obtain ⟨⟨c', env₁⟩, hc', h⟩ := bind_eq_ok.1 (trace_eq_ok.1 h)
  obtain ⟨⟨_, rfl⟩, hc⟩ := hc hc'
  obtain ⟨popped, hpop, h⟩ := bind_eq_ok.1 h
  cases hpop
  obtain ⟨⟨a', _⟩, ha', h⟩ := bind_eq_ok.1 h
  obtain ⟨⟨b', _⟩, hb', h⟩ := bind_eq_ok.1 h
  obtain ⟨-, ha⟩ := ha ha'
  obtain ⟨-, hb⟩ := hb hb'
  obtain ⟨hr, -⟩ := finish_eq_ok h
  cases hr
  -- and what the code does: the condition first, then the branch of its value
  refine ⟨⟨_, rfl⟩, fun exec n ρ hρ rest => ?_⟩
  rw [step_seq, steps_cons]
  refine bind_bimap (hc exec n hρ rest) fun ⟨v, ρ₁⟩ h₁ => ?_
  have hρ₁ := (eval_names hpc h₁).trans hρ
  rw [resultStack, steps_singleton]
  rcases v with _ | ⟨⟨t⟩ | _⟩
  case atom.bool =>
    rw [step_iIf]
    cases t
    · exact hb exec n hρ₁ rest
    · exact ha exec n hρ₁ rest
  all_goals rfl

/-- Dropping the newest binding. -/
theorem step_selectEnv {x : String × TypeValue} {env : Environment} {restrict : Node}
    (h : CompilerEnvironment.selectEnv ctx (x :: env) env = .ok restrict)
    {exec : Node → Michelson.Value Node → Outcome Node (Michelson.Value Node)} {n : ℕ}
    {ρ : Env Node} (hρ : names ρ = names (x :: env)) (rest : Michelson.Stack) :
    step ctx exec n restrict (vals ρ ++ rest) = .ok (vals ρ.tail ++ rest) := by
  have htail : Scope.restrict (Environment.getNames env) ρ = ρ.tail := Scope.restrict_tail hρ
  rw [CompilerEnvironment.step_select h hρ, htail]

/-- Dropping the newest binding under the result. -/
theorem step_dip_selectEnv {x : String × TypeValue} {env : Environment} {restrict : Node}
    (h : CompilerEnvironment.selectEnv ctx (x :: env) env = .ok restrict)
    {exec : Node → Michelson.Value Node → Outcome Node (Michelson.Value Node)} {n : ℕ}
    {ρ : Env Node} (hρ : names ρ = names (x :: env)) (v : Michelson.Value Node)
    (rest : Michelson.Stack) :
    step ctx exec n (dip restrict) (v :: (vals ρ ++ rest)) =
      .ok (v :: (vals ρ.tail ++ rest)) := by
  rw [step_dip, step_selectEnv h hρ]
  rfl

/-- The second branch runs above the value of the option, and drops it in the end. -/
theorem compiles_ifNone {c m s : Expression} {x : String × TypeValue} {ty : TypeValue}
    (hpc : Plain c) (hps : Plain s) (hc : Compiles ctx c) (hm : Compiles ctx m)
    (hs : Compiles ctx s) : Compiles ctx (.mk (.eIfNone c m x s) ty) := by
  intro env code env' h
  -- the compiler restricts the environment after the second branch, which binds a name
  obtain ⟨⟨c', env₁⟩, hc', h⟩ := bind_eq_ok.1 (trace_eq_ok.1 h)
  obtain ⟨⟨_, rfl⟩, hc⟩ := hc hc'
  obtain ⟨popped, hpop, h⟩ := bind_eq_ok.1 h
  cases hpop
  obtain ⟨⟨m', _⟩, hm', h⟩ := bind_eq_ok.1 h
  obtain ⟨-, hm⟩ := hm hm'
  obtain ⟨⟨s', env₂⟩, hs', h⟩ := bind_eq_ok.1 h
  obtain ⟨⟨_, rfl⟩, hs⟩ := hs hs'
  obtain ⟨popped, hpop, h⟩ := bind_eq_ok.1 h
  cases hpop
  obtain ⟨restrict, hrestrict, h⟩ := bind_eq_ok.1 h
  obtain ⟨hr, -⟩ := finish_eq_ok h
  cases hr
  refine ⟨⟨_, rfl⟩, fun exec n ρ hρ rest => ?_⟩
  rw [step_seq, steps_cons]
  refine bind_bimap (hc exec n hρ rest) fun ⟨v, ρ₁⟩ h₁ => ?_
  have hρ₁ := (eval_names hpc h₁).trans hρ
  rw [resultStack, steps_singleton]
  -- nothing is bound in the first branch
  cases v with
  | none =>
    rw [step_iIfNone_none]
    exact hm exec n hρ₁ rest
  | some w =>
    rw [step_iIfNone_some, step_seq, steps_cons]
    -- in the second one, the content of the option is on top of the stack
    have hρ₂ : names ((x.1, w) :: ρ₁) = names (x :: env) := congrArg (x.1 :: ·) hρ₁
    refine bind_bimap (hs exec n hρ₂ rest) fun ⟨u, ρ₂⟩ h₂ => ?_
    rw [resultStack, steps_singleton]
    exact step_dip_selectEnv hrestrict ((eval_names hps h₂).trans hρ₂) u rest
  | _ => rfl

/-- A branch of `E_if_left`, with the comment before its scope is left. -/
theorem step_branch {l : Expression} {x : String × TypeValue} {env : Environment}
    {l' restrict : Node} {env₁ : Environment} (hpl : Plain l) (hl : Compiles ctx l)
    (hl' : translateExpression ctx l (Environment.add x env) = .ok (l', env₁))
    (hrestrict :
      CompilerEnvironment.selectEnv ctx (Environment.add x env) env = .ok restrict)
    (text : String)
    (exec : Node → Michelson.Value Node → Outcome Node (Michelson.Value Node)) (n : ℕ)
    {ρ : Env Node} (hρ : names ρ = names env) (w : Michelson.Value Node)
    (rest : Michelson.Stack) :
    step ctx exec n (seq [l', iComment text, dip restrict]) (w :: (vals ρ ++ rest)) =
      Fuel.bimap id (resultStack rest) (do
        let (u, ρ) ← eval ctx (compileQuote ctx) exec n l ((x.1, w) :: ρ)
        return (u, ρ.tail)) := by
  obtain ⟨-, hl⟩ := hl hl'
  -- the branch runs with the value under its name, which is dropped at the end
  have hρ₁ : names ((x.1, w) :: ρ) = names (x :: env) := congrArg (x.1 :: ·) hρ
  rw [step_seq, steps_cons]
  refine bind_bimap (hl exec n hρ₁ rest) fun ⟨u, ρ₂⟩ h₂ => ?_
  change steps ctx exec n [dip restrict] (u :: (vals ρ₂ ++ rest)) = _
  rw [steps_singleton]
  exact step_dip_selectEnv hrestrict ((eval_names hpl h₂).trans hρ₁) u rest

/-- Each branch runs above the value of its side. -/
theorem compiles_ifLeft {c l r : Expression} {x y : String × TypeValue} {ty : TypeValue}
    (hpc : Plain c) (hpl : Plain l) (hpr : Plain r) (hc : Compiles ctx c)
    (hl : Compiles ctx l) (hr : Compiles ctx r) :
    Compiles ctx (.mk (.eIfLeft c x l y r) ty) := by
  intro env code env' h
  -- each of the branches has a restriction of its own
  obtain ⟨⟨c', env₁⟩, hc', h⟩ := bind_eq_ok.1 (trace_eq_ok.1 h)
  obtain ⟨⟨l', _⟩, hl', h⟩ := bind_eq_ok.1 h
  obtain ⟨⟨r', _⟩, hr', h⟩ := bind_eq_ok.1 h
  obtain ⟨restrictL, hrestrictL, h⟩ := bind_eq_ok.1 h
  obtain ⟨restrictR, hrestrictR, h⟩ := bind_eq_ok.1 h
  obtain ⟨-, hc⟩ := hc hc'
  obtain ⟨heq, -⟩ := finish_eq_ok h
  cases heq
  refine ⟨⟨_, rfl⟩, fun exec n ρ hρ rest => ?_⟩
  rw [step_seq, steps_cons]
  refine bind_bimap (hc exec n hρ rest) fun ⟨v, ρ₁⟩ h₁ => ?_
  have hρ₁ := (eval_names hpc h₁).trans hρ
  rw [resultStack, steps_singleton]
  -- the two branches run alike
  cases v with
  | left w =>
    rw [step_iIfLeft_left]
    exact step_branch hpl hl hl' hrestrictL _ exec n hρ₁ w rest
  | right w =>
    rw [step_iIfLeft_right]
    exact step_branch hpr hr hr' hrestrictR _ exec n hρ₁ w rest
  | _ => rfl

/-- The body runs above the value, which is dropped afterwards. -/
theorem compiles_letIn {x : String × TypeValue} {e b : Expression} {ty : TypeValue}
    (hpe : Plain e) (hpb : Plain b) (he : Compiles ctx e) (hb : Compiles ctx b) :
    Compiles ctx (.mk (.eLetIn x e b) ty) := by
  intro env code env' h
  -- the binding lies on the stack while the body runs
  obtain ⟨⟨e', env₁⟩, he', h⟩ := bind_eq_ok.1 (trace_eq_ok.1 h)
  obtain ⟨⟨_, rfl⟩, he⟩ := he he'
  obtain ⟨env₂, hpop, h⟩ := bind_eq_ok.1 h
  cases hpop
  obtain ⟨⟨b', env₃⟩, hb', h⟩ := bind_eq_ok.1 h
  obtain ⟨⟨_, rfl⟩, hb⟩ := hb hb'
  obtain ⟨popped, hpop, h⟩ := bind_eq_ok.1 h
  cases hpop
  obtain ⟨restrict, hrestrict, h⟩ := bind_eq_ok.1 h
  obtain ⟨hr, -⟩ := finish_eq_ok h
  cases hr
  refine ⟨⟨_, rfl⟩, fun exec n ρ hρ rest => ?_⟩
  rw [step_seq, steps_cons]
  refine bind_bimap (he exec n hρ rest) fun ⟨w, ρ₁⟩ h₁ => ?_
  have hρ₁ : names ((x.1, w) :: ρ₁) = names (x :: env) :=
    congrArg (x.1 :: ·) ((eval_names hpe h₁).trans hρ)
  rw [resultStack, steps_cons]
  refine bind_bimap (hb exec n hρ₁ rest) fun ⟨u, ρ₂⟩ h₂ => ?_
  -- at the end it is dropped below the result
  change steps ctx exec n [dip restrict] (u :: (vals ρ₂ ++ rest)) = _
  rw [steps_singleton]
  exact step_dip_selectEnv hrestrict ((eval_names hpb h₂).trans hρ₁) u rest

/-- What the first expression leaves is dropped. -/
theorem compiles_sequence {a b : Expression} {ty : TypeValue} (hpa : Plain a)
    (ha : Compiles ctx a) (hb : Compiles ctx b) :
    Compiles ctx (.mk (.eSequence a b) ty) := by
  intro env code env' h
  -- the result of the first part is dropped before the second one runs
  obtain ⟨⟨a', env₁⟩, ha', h⟩ := bind_eq_ok.1 (trace_eq_ok.1 h)
  obtain ⟨⟨_, rfl⟩, ha⟩ := ha ha'
  obtain ⟨env₂, hpop, h⟩ := bind_eq_ok.1 h
  cases hpop
  obtain ⟨⟨b', env₃⟩, hb', h⟩ := bind_eq_ok.1 h
  obtain ⟨⟨_, rfl⟩, hb⟩ := hb hb'
  obtain ⟨hr, -⟩ := finish_eq_ok h
  cases hr
  refine ⟨⟨_, rfl⟩, fun exec n ρ hρ rest => ?_⟩
  rw [step_seq, steps_cons]
  refine bind_bimap (ha exec n hρ rest) fun ⟨v, ρ₁⟩ h₁ => ?_
  change steps ctx exec n [b'] (vals ρ₁ ++ rest) = _
  rw [steps_singleton]
  exact hb exec n ((eval_names hpa h₁).trans hρ) rest

/-! ### Calls and constants -/

/-- Evaluation above temporaries. -/
theorem step_above_temporaries {e : Expression} (hpe : Plain e) {T ρ : Env Node}
    (hT : ∀ x ∈ names T, x = Environment.tmpName) {code : Node}
    {exec : Node → Michelson.Value Node → Outcome Node (Michelson.Value Node)} {n : ℕ}
    (rest : Michelson.Stack)
    (h : step ctx exec n code (vals (T ++ ρ) ++ rest) =
      Fuel.bimap id (resultStack rest) (eval ctx (compileQuote ctx) exec n e (T ++ ρ))) :
    step ctx exec n code (vals T ++ (vals ρ ++ rest)) =
      Fuel.bimap id (fun r => r.1 :: (vals T ++ (vals r.2 ++ rest)))
        (eval ctx (compileQuote ctx) exec n e ρ) := by
  -- the names of the temporaries are not read, so they can be left out of the environment
  have hsplice : eval ctx (compileQuote ctx) exec n e (Scope.splice 0 T ρ) = _ :=
    eval_splice hT hpe (Nat.zero_le _)
  rw [Scope.splice_zero] at hsplice
  rw [hsplice, Scope.vals_append, List.append_assoc] at h
  rw [h]
  cases eval ctx (compileQuote ctx) exec n e ρ with
  | error s => rfl
  | ok r => simp [Fuel.bimap, resultStack, List.append_assoc]

/-- The function is pushed and then its argument. -/
theorem compiles_application {f arg : Expression} {ty : TypeValue}
    (hty : ∀ c i o, f.typeValue ≠ .tDeepClosure c i o) (hpf : Plain f) (hparg : Plain arg)
    (hf : Compiles ctx f) (harg : Compiles ctx arg) :
    Compiles ctx (.mk (.eApplication f arg) ty) := by
  intro env code env' h
  replace h := trace_eq_ok.1 h
  simp only [translateExpression'] at h
  split at h
  · rename_i hfty
    obtain ⟨⟨f', env₁⟩, hf', h⟩ := bind_eq_ok.1 (trace_eq_ok.1 h)
    obtain ⟨⟨_, rfl⟩, hf⟩ := hf hf'
    obtain ⟨⟨arg', _⟩, harg', h⟩ := bind_eq_ok.1 h
    obtain ⟨-, harg⟩ := harg harg'
    obtain ⟨hr, -⟩ := finish_eq_ok h
    cases hr
    refine ⟨⟨_, rfl⟩, fun exec n ρ hρ rest => ?_⟩
    simp only [eval, eval', hfty]
    change (step ctx exec n f' (vals ρ ++ rest) >>=
      steps ctx exec n [iComment "get arg", arg', iExec]) = _
    refine bind_bimap (hf exec n hρ rest) fun r h₁ => ?_
    obtain ⟨v, ρ₁⟩ := r
    change (step ctx exec n arg' (vals [(Environment.tmpName, v)] ++ (vals ρ₁ ++ rest)) >>=
      steps ctx exec n [iExec]) = _
    have hρ₁ : names ((Environment.tmpName, v) :: ρ₁) = names (tmp f.typeValue env) :=
      congrArg (_ :: ·) ((eval_names hpf h₁).trans hρ)
    -- the function waits on the stack while the argument is computed
    refine bind_bimap (step_above_temporaries hparg (by simp) rest (harg exec n hρ₁ rest))
      fun r _ => ?_
    obtain ⟨w, ρ₂⟩ := r
    rw [steps_singleton]
    cases v with
    | lambda g =>
      change push (exec g w) (vals ρ₂ ++ rest) = _
      refine bind_bimap (f := id) ?_ fun _ _ => rfl
      change exec g w = Fuel.bimap id id (exec g w)
      cases exec g w <;> rfl
    | _ => rfl
  · rename_i hfty
    exact absurd hfty (hty _ _ _)
  · cases h

/-- There is a value for each argument. -/
theorem evalArguments_length {F : Type} {quote : AnonFunction → Option F}
    {apply : F → Michelson.Value F → Outcome F (Michelson.Value F)} {n : ℕ}
    {lst : List Expression} {ρ : Env F} {r : List (Michelson.Value F) × Env F}
    (h : evalArguments ctx quote apply n lst ρ = .ok r) : r.1.length = lst.length := by
  induction lst generalizing r with
  | nil =>
    cases h
    rfl
  | cons e lst ih =>
    obtain ⟨⟨vs, ρ₁⟩, h₁, h⟩ := bind_eq_ok.1 h
    obtain ⟨⟨v, ρ₂⟩, -, h⟩ := bind_eq_ok.1 h
    cases h
    exact congrArg (· + 1) (ih h₁)

/-- The arguments of a constant end up in order, the first one on top. -/
theorem steps_translateArguments {lst : List Expression} (hlst : PlainAll lst)
    (ih : ∀ e ∈ lst, Compiles ctx e) {env env' : Environment} {codes : List Node}
    (h : translateArguments ctx lst env = .ok (env', codes)) :
    (∃ tmps : Environment, env' = tmps ++ env ∧ tmps.length = lst.length ∧
      ∀ x ∈ Environment.getNames tmps, x = Environment.tmpName) ∧
    ∀ (exec : Node → Michelson.Value Node → Outcome Node (Michelson.Value Node)) (n : ℕ)
      {ρ : Env Node} (_ : names ρ = names env) (rest : Michelson.Stack),
      steps ctx exec n codes.reverse (vals ρ ++ rest) =
        Fuel.bimap id (fun r => r.1 ++ (vals r.2 ++ rest))
          (evalArguments ctx (compileQuote ctx) exec n lst ρ) := by
  induction lst generalizing env' codes with
  | nil =>
    cases h
    exact ⟨⟨[], rfl, rfl, by simp [Environment.getNames]⟩, fun _ _ _ _ _ => rfl⟩
  | cons e lst ihlst =>
    obtain ⟨⟨env₁, codes₁⟩, h₁, h⟩ := bind_eq_ok.1 h
    obtain ⟨⟨code, env₂⟩, h₂, h⟩ := bind_eq_ok.1 h
    cases h
    obtain ⟨⟨tmps, rfl, hlen, htmps⟩, hrun⟩ :=
      ihlst hlst.2 (fun e he => ih e (List.mem_cons_of_mem _ he)) h₁
    obtain ⟨⟨t, rfl⟩, he⟩ := ih e (by simp) h₂
    refine ⟨⟨(Environment.tmpName, t) :: tmps, rfl, congrArg (· + 1) hlen, ?_⟩, ?_⟩
    · intro x hx
      rcases List.mem_cons.1 hx with rfl | hx
      · rfl
      · exact htmps x hx
    · intro exec n ρ hρ rest
      rw [List.reverse_cons, steps_append]
      refine bind_bimap (hrun exec n hρ rest) fun ⟨vs, ρ₁⟩ h₁ => ?_
      -- the values of the later arguments are temporaries for this one
      obtain ⟨T, hT, rfl⟩ : ∃ T : Env Node, names T = Environment.getNames tmps ∧ vals T = vs := by
        have hvs : vs.length = (Environment.getNames tmps).length := by
          rw [evalArguments_length h₁, Environment.getNames, List.length_map, hlen]
        refine ⟨(Environment.getNames tmps).zip vs, ?_, ?_⟩
        · exact List.map_fst_zip hvs.ge
        · exact List.map_snd_zip hvs.le
      have hn : names ρ₁ = names ρ :=
        evalArguments_names (fun e he _ _ => eval_names (plainAll_iff.1 hlst.2 e he)) h₁
      have hρ₁ : names (T ++ ρ₁) = names (tmps ++ env) := by
        rw [Scope.names_append, Scope.names_append, hT, hn, hρ]
        rfl
      rw [steps_singleton]
      refine (step_above_temporaries hlst.1 (hT ▸ htmps) rest (he exec n hρ₁ rest)).trans ?_
      dsimp only
      cases eval ctx (compileQuote ctx) exec n e ρ₁ with
      | error s => rfl
      | ok r => rfl

/-- The arguments are evaluated from the last to the first, each above those that come later. -/
theorem compiles_constant {name : String} {lst : List Expression} {ty : TypeValue}
    (hlst : PlainAll lst) (ih : ∀ e ∈ lst, Compiles ctx e) :
    Compiles ctx (.mk (.eConstant name lst) ty) := by
  intro env code env' h
  obtain ⟨⟨env₁, codes⟩, hcodes, h⟩ := bind_eq_ok.1 (trace_eq_ok.1 h)
  obtain ⟨predicate, hpredicate, h⟩ := bind_eq_ok.1 h
  obtain ⟨_, happly, h⟩ := bind_eq_ok.1 h
  obtain ⟨hr, _, _, -, hs', -⟩ := finish_eq_ok (trace_eq_ok.1 h)
  cases hr
  obtain ⟨t, ht⟩ := type_of_environment_tmp hs'
  have himpl : Implements ctx ty name predicate := getPredicate_implements ht hpredicate
  obtain ⟨-, hargs⟩ := steps_translateArguments hlst ih hcodes
  refine ⟨⟨_, rfl⟩, fun exec n ρ hρ rest => ?_⟩
  have hrun : ∀ c, code = seq [seq codes.reverse, c] →
      (∀ vs s, vs.length = lst.length →
        step ctx exec n c (vs ++ s) = push (constant ctx ty name vs) s) →
      step ctx exec n code (vals ρ ++ rest) = Fuel.bimap id (resultStack rest)
        (eval ctx (compileQuote ctx) exec n (.mk (.eConstant name lst) ty) ρ) := by
    rintro c rfl hc
    rw [step_seq, steps_cons, step_seq]
    refine bind_bimap (hargs exec n hρ rest) fun ⟨vs, ρ₁⟩ h₁ => ?_
    rw [steps_singleton, hc vs _ (evalArguments_length h₁)]
    refine bind_bimap (f := id) ?_ fun _ _ => rfl
    cases constant ctx ty name vs <;> rfl
  -- the arity of the predicate is the number of arguments
  unfold applyPredicate at happly
  split at happly
  · cases happly
    refine hrun _ rfl fun vs s hvs => ?_
    obtain rfl : vs = [] := List.length_eq_zero_iff.1 (by omega)
    exact himpl exec n _
  · cases happly
    refine hrun _ rfl fun vs s hvs => ?_
    obtain ⟨a, rfl⟩ := List.length_eq_one_iff.1 (show vs.length = 1 by omega)
    exact himpl exec n a _
  · cases happly
    refine hrun _ rfl fun vs s hvs => ?_
    obtain ⟨a, b, rfl⟩ := List.length_eq_two.1 (show vs.length = 2 by omega)
    exact himpl exec n a b _
  · cases happly
    refine hrun _ rfl fun vs s hvs => ?_
    obtain ⟨a, b, c, rfl⟩ := List.length_eq_three.1 (show vs.length = 3 by omega)
    exact himpl exec n a b c _
  · cases happly

/-! ### Assignment -/

/-- The update of a component rebuilds the pairs on the way to it. -/
theorem step_modifyCode (lrs : List Step) (v old : Michelson.Value Node)
    {exec : Node → Michelson.Value Node → Outcome Node (Michelson.Value Node)} {n : ℕ}
    (s : Michelson.Stack) :
    step ctx exec n (modifyCode lrs) (v :: old :: s) = push (updatePath v lrs old) s := by
  -- by induction on the path: unpair, modify the component, pair again
  induction lrs generalizing old s with
  | nil =>
    change step ctx exec n (dip iDrop) (v :: old :: s) = _
    rw [step_dip, step_iDrop]
    rfl
  | cons lr lrs ih =>
    rw [modifyCode, foldRight'_cons]
    cases lr with
    | left =>
      cases old with
      | pair a b =>
        have hstep : step ctx exec n (dip iUnpair) (v :: .pair a b :: s) =
            .ok (v :: a :: b :: s) := by
          rw [step_dip, step_iUnpair]
          rfl
        rw [step_seq, steps_cons, hstep]
        change step ctx exec n (modifyCode lrs) (v :: a :: b :: s) >>=
          steps ctx exec n [iPair] = _
        rw [ih]
        change _ = push (updatePath v lrs a >>= fun a' => .ok (.pair a' b)) s
        cases updatePath v lrs a <;> rfl
      | _ => rfl
    | right =>
      cases old with
      | pair a b =>
        have hstep : step ctx exec n (dip iUnpiar) (v :: .pair a b :: s) =
            .ok (v :: b :: a :: s) := by
          rw [step_dip, step_iUnpiar]
          rfl
        rw [step_seq, steps_cons, hstep]
        change step ctx exec n (modifyCode lrs) (v :: b :: a :: s) >>=
          steps ctx exec n [iPiar] = _
        rw [ih]
        change _ = push (updatePath v lrs b >>= fun b' => .ok (.pair a b')) s
        cases updatePath v lrs b <;> rfl
      | _ => rfl

/-- The value replaces the component, and the pairs on the way to it are made again. -/
theorem compiles_assignment {x : String} {lrs : List Step} {e : Expression} {ty : TypeValue}
    (hx : x ≠ Environment.tmpName) (hpe : Plain e) (he : Compiles ctx e) :
    Compiles ctx (.mk (.eAssignment x lrs e) ty) := by
  intro env code env' h
  obtain ⟨⟨e', env₁⟩, he', h⟩ := bind_eq_ok.1 (trace_eq_ok.1 h)
  obtain ⟨⟨_, rfl⟩, he⟩ := he he'
  obtain ⟨getCode, hget, h⟩ := bind_eq_ok.1 h
  obtain ⟨setCode, hset, h⟩ := bind_eq_ok.1 h
  obtain ⟨hr, -⟩ := finish_eq_ok (trace_eq_ok.1 h)
  cases hr
  refine ⟨⟨_, rfl⟩, fun exec n ρ hρ rest => ?_⟩
  rw [step_seq, steps_iComment, steps_cons]
  refine bind_bimap (he exec n hρ rest) fun ⟨v, ρ₁⟩ h₁ => ?_
  have hn := (eval_names hpe h₁).trans hρ
  have hρ₁ : names ((Environment.tmpName, v) :: ρ₁) = names (tmp e.typeValue env) :=
    congrArg (_ :: ·) hn
  -- the right-hand side is the newest binding, but the variable has another name
  have hread := CompilerEnvironment.readCode_of_get hget
  obtain ⟨old, hlookup, hstep⟩ := CompilerEnvironment.step_readCode hread hρ₁ rest
  rw [Scope.lookup, if_neg hx] at hlookup
  rw [steps_iComment, steps_cons, resultStack]
  refine Eq.trans (congrArg (· >>= _) hstep) ?_
  change steps ctx exec n _ (v :: old :: (vals ρ₁ ++ rest)) = _
  rw [steps_iComment, steps_cons, step_modifyCode]
  simp only [hlookup]
  cases updatePath v lrs old with
  | error s => rfl
  | ok new =>
    change steps ctx exec n _ (new :: (vals ρ₁ ++ rest)) = _
    rw [steps_iComment, steps_cons, step_set hset hn]
    rfl

/-! ### Loops -/

/-- A loop runs its body as long as the condition holds; by induction on the rounds. -/
theorem compiles_while {c b : Expression} {ty : TypeValue} (hpc : Plain c) (hpb : Plain b)
    (hc : Compiles ctx c) (hb : Compiles ctx b) : Compiles ctx (.mk (.eWhile c b) ty) := by
  intro env code env' h
  obtain ⟨⟨c', env₁⟩, hc', h⟩ := bind_eq_ok.1 (trace_eq_ok.1 h)
  obtain ⟨⟨_, rfl⟩, hc⟩ := hc hc'
  obtain ⟨popped, hpop, h⟩ := bind_eq_ok.1 h
  cases hpop
  obtain ⟨⟨b', env₂⟩, hb', h⟩ := bind_eq_ok.1 h
  obtain ⟨⟨_, rfl⟩, hb⟩ := hb hb'
  obtain ⟨restrict, hrestrict, h⟩ := bind_eq_ok.1 h
  obtain ⟨hr, -⟩ := finish_eq_ok h
  cases hr
  refine ⟨⟨_, rfl⟩, fun exec n ρ hρ rest => ?_⟩
  rw [step_seq, steps_cons]
  refine bind_bimap (hc exec n hρ rest) fun r hr => ?_
  refine bind_bimap (f := fun ρ : Env Node => vals ρ ++ rest)
    (iterate_bimap (P := fun r : Michelson.Value Node × Env Node => names r.2 = names env)
      (Q := fun ρ : Env Node => names ρ = names env) (by rfl) ?_ ?_ ?_ ?_ ?_ (by rfl))
    fun _ _ => rfl
  · rintro ⟨v, ρ₁⟩ -
    rcases v with _ | ⟨⟨t⟩ | _⟩
    all_goals rfl
  · intro ρ₁ hρ₁
    -- one round of the loop: the block, its scope, and the condition again
    rw [steps_cons]
    refine bind_bimap (hb exec n hρ₁ rest) fun ⟨v, ρ₂⟩ h₂ => ?_
    have hρ₂ := (eval_names hpb h₂).trans hρ₁
    have hdrop : names ((Environment.tmpName, v) :: ρ₂) = names (tmp b.typeValue env) :=
      congrArg (_ :: ·) hρ₂
    rw [resultStack, steps_cons]
    refine Eq.trans (congrArg (· >>= _) (step_selectEnv hrestrict hdrop rest)) ?_
    change steps ctx exec n [c'] (vals ρ₂ ++ rest) = _
    rw [steps_singleton]
    exact hc exec n hρ₂ rest
  · intro r p hp h
    rw [asBool_snd h]
    exact hp
  · intro ρ₁ r hρ₁ h
    obtain ⟨⟨v, ρ₂⟩, h₂, h⟩ := bind_eq_ok.1 h
    exact (eval_names hpc h).trans ((eval_names hpb h₂).trans hρ₁)
  · exact (eval_names hpc hr).trans hρ

/-! ### Every expression -/

/-- The code of a plain expression computes it. -/
theorem compiles {e : Expression} (he : Plain e) : Compiles ctx e := by
  -- one lemma for each construct; those that load and capture environments are not plain
  induction e using Expression.ind with
  | capture | select | load | ret => exact he.elim
  | skip t => exact compiles_skip t
  | makeEmptyMap k v t => exact compiles_makeEmptyMap k v t
  | makeEmptyList u t => exact compiles_makeEmptyList u t
  | makeNone u t => exact compiles_makeNone u t
  | literal v t => exact compiles_literal he.2
  | variable' x t => exact compiles_variable x t
  | constant name lst t ih =>
    exact compiles_constant he fun e hm => ih e hm (plainAll_iff.1 he e hm)
  | application f arg t ihf iharg =>
    obtain ⟨hty, hf, harg⟩ := he
    exact compiles_application hty hf harg (ihf hf) (iharg harg)
  | ifBool c a b t ihc iha ihb =>
    obtain ⟨hc, ha, hb⟩ := he
    exact compiles_ifBool hc (ihc hc) (iha ha) (ihb hb)
  | ifNone c m x s t ihc ihm ihs =>
    obtain ⟨hc, hm, -, hs⟩ := he
    exact compiles_ifNone hc hs (ihc hc) (ihm hm) (ihs hs)
  | ifLeft c x l y r t ihc ihl ihr =>
    obtain ⟨hc, -, hl, -, hr⟩ := he
    exact compiles_ifLeft hc hl hr (ihc hc) (ihl hl) (ihr hr)
  | letIn x e b t ihe ihb =>
    obtain ⟨-, he, hb⟩ := he
    exact compiles_letIn he hb (ihe he) (ihb hb)
  | sequence a b t iha ihb => exact compiles_sequence he.1 (iha he.1) (ihb he.2)
  | assignment x lrs e t ihe => exact compiles_assignment he.1 he.2 (ihe he.2)
  | while' c b t ihc ihb => exact compiles_while he.1 he.2 (ihc he.1) (ihb he.2)

end Ligo.CompilerProgram
