import Ligo.Compiler.Correctness
import Ligo.MiniC.Parametric

/-!
# Calls

`Correctness` relates the code of an expression to the semantics over the functions of
the target. This module ties the knot: the functions that occur are quotes that compile
(`CompiledQuote`), a call of the code of one runs its body (`step_translateFunction`),
and so, by induction on the depth of calls, code and expression correspond
(`run_translateExpression`).

`Represents v w` says that `w` is the value `v` with the code of its functions. A run of
the code ends exactly when the expression has a value, and then with the representation
of this value on top of the representation of the environment.
-/

namespace Ligo.CompilerProgram

open MiniC Michelson
open Fuel (bind_eq_ok map_eq_ok bind_bimap)
open Scope (names vals)

variable (ctx : Michelson.Context)

/-! ### The functions of a compiled expression -/

/-- A plain quote that compiles. -/
def Compilable (f : AnonFunction) : Prop :=
  PlainQuote f ∧ ∃ code, translateFunction ctx f = .ok code

variable {ctx}

/-- The functions within a literal that is compiled are compiled. -/
theorem quotes_of_translateValue {v : MiniC.Value} {n : Node} (hp : PlainValue v)
    (h : translateValue ctx v = .ok n) : v.Quotes (Compilable ctx) := by
  -- along the value; a quote in it is compiled where the value is
  induction v using MiniC.Value.ind generalizing n with
  | unit | nat | tez | int | string | bytes | none | bool => trivial
  | operation => cases h
  | pair a b iha ihb =>
    obtain ⟨_, ha, h⟩ := bind_eq_ok.1 h
    obtain ⟨_, hb, -⟩ := bind_eq_ok.1 h
    exact ⟨iha hp.1 ha, ihb hp.2 hb⟩
  | left a ih | right a ih | some a ih =>
    obtain ⟨_, ha, -⟩ := bind_eq_ok.1 h
    exact ih hp ha
  -- the entries of a map are compiled one by one
  | map lst ih =>
    obtain ⟨ns, hns, -⟩ := bind_eq_ok.1 h
    clear h
    change EntriesQuotes _ lst
    induction lst generalizing ns with
    | nil => trivial
    | cons x lst ihlst =>
      obtain ⟨a, b⟩ := x
      obtain ⟨_, ha, hns⟩ := bind_eq_ok.1 hns
      obtain ⟨_, hb, hns⟩ := bind_eq_ok.1 hns
      obtain ⟨_, hns, -⟩ := bind_eq_ok.1 hns
      obtain ⟨iha, ihb⟩ := ih (a, b) (by simp)
      exact ⟨iha hp.1 ha, ihb hp.2.1 hb,
        ihlst (fun x hx => ih x (List.mem_cons_of_mem _ hx)) hp.2.2 _ hns⟩
  -- so are the elements of a list
  | list lst ih =>
    obtain ⟨ns, hns, -⟩ := bind_eq_ok.1 h
    clear h
    change ValuesQuotes _ lst
    induction lst generalizing ns with
    | nil => trivial
    | cons v lst ihlst =>
      obtain ⟨_, hv, hns⟩ := bind_eq_ok.1 hns
      obtain ⟨_, hns, -⟩ := bind_eq_ok.1 hns
      exact ⟨ih v (by simp) hp.1 hv,
        ihlst (fun v hv => ih v (List.mem_cons_of_mem _ hv)) hp.2 _ hns⟩
  | function f => exact ⟨hp, n, h⟩

/-- The functions within an expression that is compiled are compiled; by induction on the
expression. -/
theorem quotes_of_translateExpression {e : Expression} {env : Environment}
    {r : Node × Environment} (hp : Plain e) (h : translateExpression ctx e env = .ok r) :
    e.Quotes (Compilable ctx) := by
  -- the code of an expression has been generated, so that of every quote in it has been
  induction e using Expression.ind generalizing env r with
  | capture | select | load | ret => exact hp.elim
  | skip | variable' | makeEmptyMap | makeEmptyList | makeNone => trivial
  | literal v t =>
    obtain ⟨_, hv, -⟩ := bind_eq_ok.1 (trace_eq_ok.1 h)
    exact quotes_of_translateValue hp.1 hv
  | constant name lst t ih =>
    obtain ⟨⟨env', codes⟩, hcodes, -⟩ := bind_eq_ok.1 (trace_eq_ok.1 h)
    clear h
    change ArgumentsQuotes _ lst
    induction lst generalizing env' codes with
    | nil => trivial
    | cons e lst ihlst =>
      obtain ⟨⟨env₁, codes₁⟩, h₁, h⟩ := bind_eq_ok.1 hcodes
      obtain ⟨⟨code, env₂⟩, h₂, -⟩ := bind_eq_ok.1 h
      exact ⟨ih e (by simp) hp.1 h₂,
        ihlst (fun e he => ih e (List.mem_cons_of_mem _ he)) hp.2 _ _ h₁⟩
  | application f arg t ihf iharg =>
    obtain ⟨hty, hpf, hparg⟩ := hp
    replace h := trace_eq_ok.1 h
    simp only [translateExpression'] at h
    split at h
    · obtain ⟨_, hf, h⟩ := bind_eq_ok.1 (trace_eq_ok.1 h)
      obtain ⟨_, harg, -⟩ := bind_eq_ok.1 h
      exact ⟨ihf hpf hf, iharg hparg harg⟩
    -- a plain expression applies no closure
    · rename_i hfty
      exact absurd hfty (hty _ _ _)
    · cases h
  | ifBool c a b t ihc iha ihb =>
    obtain ⟨_, hc, h⟩ := bind_eq_ok.1 (trace_eq_ok.1 h)
    obtain ⟨_, -, h⟩ := bind_eq_ok.1 h
    obtain ⟨_, ha, h⟩ := bind_eq_ok.1 h
    obtain ⟨_, hb, -⟩ := bind_eq_ok.1 h
    exact ⟨ihc hp.1 hc, iha hp.2.1 ha, ihb hp.2.2 hb⟩
  | ifNone c m x s t ihc ihm ihs =>
    obtain ⟨hpc, hpm, -, hps⟩ := hp
    obtain ⟨_, hc, h⟩ := bind_eq_ok.1 (trace_eq_ok.1 h)
    obtain ⟨_, -, h⟩ := bind_eq_ok.1 h
    obtain ⟨_, hm, h⟩ := bind_eq_ok.1 h
    obtain ⟨_, hs, -⟩ := bind_eq_ok.1 h
    exact ⟨ihc hpc hc, ihm hpm hm, ihs hps hs⟩
  | ifLeft c x l y r t ihc ihl ihr =>
    obtain ⟨hpc, -, hpl, -, hpr⟩ := hp
    obtain ⟨_, hc, h⟩ := bind_eq_ok.1 (trace_eq_ok.1 h)
    obtain ⟨_, hl, h⟩ := bind_eq_ok.1 h
    obtain ⟨_, hr, -⟩ := bind_eq_ok.1 h
    exact ⟨ihc hpc hc, ihl hpl hl, ihr hpr hr⟩
  | letIn x e b t ihe ihb =>
    obtain ⟨-, hpe, hpb⟩ := hp
    obtain ⟨_, he, h⟩ := bind_eq_ok.1 (trace_eq_ok.1 h)
    obtain ⟨_, -, h⟩ := bind_eq_ok.1 h
    obtain ⟨_, hb, -⟩ := bind_eq_ok.1 h
    exact ⟨ihe hpe he, ihb hpb hb⟩
  | sequence a b t iha ihb | while' a b t iha ihb =>
    obtain ⟨_, ha, h⟩ := bind_eq_ok.1 (trace_eq_ok.1 h)
    obtain ⟨_, -, h⟩ := bind_eq_ok.1 h
    obtain ⟨_, hb, -⟩ := bind_eq_ok.1 h
    exact ⟨iha hp.1 ha, ihb hp.2 hb⟩
  | assignment x lrs e t ihe =>
    obtain ⟨_, he, -⟩ := bind_eq_ok.1 (trace_eq_ok.1 h)
    exact ihe hp.2 he

/-! ### Running a quote -/

/-- Clearing the environment of a quote leaves the result. -/
theorem restrict_tmpName {α : Type} {binder : String} (h : binder ≠ Environment.tmpName)
    (v a : α) :
    Scope.restrict [Environment.tmpName] [(Environment.tmpName, v), (binder, a)] =
      [(Environment.tmpName, v)] := by
  have hbinder : [Environment.tmpName].count binder = 0 :=
    List.count_eq_zero.2 (by simpa using h)
  have htmp : [binder].count Environment.tmpName = 0 :=
    List.count_eq_zero.2 (by simpa using h.symm)
  simp only [Scope.restrict, Scope.names_cons, Scope.names_nil, Scope.flags, hbinder, htmp,
    List.count_nil, List.count_cons_self]
  rfl

/-- The code of a quote computes its body, with the argument as the only binding. -/
theorem step_translateFunction {f : AnonFunction} {code : Node} (hp : PlainQuote f)
    (h : translateFunction ctx f = .ok code)
    (exec : Node → Michelson.Value Node → Outcome Node (Michelson.Value Node)) (n : ℕ)
    (w : Michelson.Value Node) :
    step ctx exec n code [w] >>= Michelson.singleton =
      Fuel.bimap id Prod.fst (eval ctx (compileQuote ctx) exec n f.result [(f.binder, w)]) := by
  obtain ⟨binder, input, output, ⟨result, ty⟩⟩ := f
  cases result with
  | eEnvironmentReturn e =>
    obtain ⟨hbinder, hpe⟩ := hp
    obtain ⟨body, hbody, rfl⟩ := map_eq_ok.1 h
    obtain ⟨⟨expr, _⟩, hexpr, hbody⟩ := bind_eq_ok.1 hbody
    obtain ⟨_, -, hbody⟩ := bind_eq_ok.1 hbody
    obtain ⟨_, -, hbody⟩ := bind_eq_ok.1 hbody
    obtain ⟨_, -, hbody⟩ := bind_eq_ok.1 hbody
    cases hbody
    obtain ⟨⟨e', env₁⟩, he', hexpr⟩ := bind_eq_ok.1 (trace_eq_ok.1 hexpr)
    obtain ⟨⟨t, rfl⟩, he⟩ := compiles hpe he'
    obtain ⟨⟨clear, cleared⟩, hclear, hexpr⟩ := bind_eq_ok.1 hexpr
    obtain ⟨hr, -⟩ := finish_eq_ok hexpr
    cases hr
    obtain ⟨_, hfirst, hclear⟩ := bind_eq_ok.1 hclear
    cases traceOption_eq_ok.1 hfirst
    obtain ⟨_, hselect, hclear⟩ := bind_eq_ok.1 hclear
    cases hclear
    rw [step_seq, steps_singleton, step_seq, steps_iComment, steps_singleton, step_seq,
      steps_cons, bind_assoc]
    refine bind_bimap (he exec n (ρ := [(binder, w)]) rfl []) fun ⟨v, ρ₁⟩ h₁ => ?_
    -- the result is the only temporary, so it is what is left
    obtain ⟨a, rfl⟩ : ∃ a, ρ₁ = [(binder, a)] := by
      have hn : names ρ₁ = [binder] := eval_names hpe h₁
      match ρ₁, hn with
      | [(_, a)], rfl => exact ⟨a, rfl⟩
    have hstep : step ctx exec n clear (vals [(Environment.tmpName, v), (binder, a)] ++ []) = _ :=
      CompilerEnvironment.step_select hselect rfl []
    rw [restrict_tmpName hbinder] at hstep
    rw [steps_singleton]
    exact congrArg (· >>= Michelson.singleton) hstep
  | _ => exact hp.elim

/-! ### Compiled quotes -/

variable (ctx) in
/-- A plain quote with its code. -/
structure CompiledQuote where
  quote : AnonFunction
  code : Node
  plain : PlainQuote quote
  compiled : translateFunction ctx quote = .ok code

open Classical in
variable (ctx) in
/-- The compiled quote of a function literal. -/
noncomputable def compiledQuote (f : AnonFunction) : Option (CompiledQuote ctx) :=
  if h : Compilable ctx f then some ⟨f, h.2.choose, h.1, h.2.choose_spec⟩ else none

/-- A compiled function is represented by itself or by its code. -/
theorem compiledQuote_agrees_quote {f : AnonFunction} (h : Compilable ctx f) :
    MiniC.Agrees CompiledQuote.quote (compiledQuote ctx) some f := by
  rw [MiniC.Agrees, compiledQuote, dif_pos h]
  rfl

theorem compiledQuote_agrees_code {f : AnonFunction} (h : Compilable ctx f) :
    MiniC.Agrees CompiledQuote.code (compiledQuote ctx) (compileQuote ctx) f := by
  rw [MiniC.Agrees, compiledQuote, dif_pos h]
  exact compileQuote_eq_some.2 h.2.choose_spec

/-- The body of a compiled quote holds compiled quotes only. -/
theorem CompiledQuote.quotes_result (f : CompiledQuote ctx) :
    f.quote.result.Quotes (Compilable ctx) := by
  obtain ⟨⟨binder, input, output, ⟨result, ty⟩⟩, code, hp, h⟩ := f
  cases result with
  | eEnvironmentReturn e =>
    obtain ⟨body, hbody, -⟩ := bind_eq_ok.1 h
    obtain ⟨_, hexpr, -⟩ := bind_eq_ok.1 hbody
    obtain ⟨_, he, -⟩ := bind_eq_ok.1 (trace_eq_ok.1 hexpr)
    exact quotes_of_translateExpression (e := e) hp.2 he
  | _ => exact hp.elim

variable (ctx) in
/-- Call a compiled quote when `d` levels are left. -/
noncomputable def applyCompiled : ℕ → CompiledQuote ctx →
    Michelson.Value (CompiledQuote ctx) →
    Outcome (CompiledQuote ctx) (Michelson.Value (CompiledQuote ctx))
  | 0, _, _ => .error .timeout
  | d + 1, f, v => do
    return (← eval ctx (compiledQuote ctx) (applyCompiled d) d f.quote.result
      [(f.quote.binder, v)]).1

/-- A call of the code of a quote is a call of the quote. -/
theorem call_code (d : ℕ) (f : CompiledQuote ctx) (v : Michelson.Value (CompiledQuote ctx)) :
    call ctx d f.code (v.mapFn CompiledQuote.code) =
      (applyCompiled ctx d f v).mapFn CompiledQuote.code
        (Michelson.Value.mapFn CompiledQuote.code) := by
  -- by induction on the depth; both sides spend one level on the call
  induction d generalizing f v with
  | zero => rfl
  | succ d ih =>
    have hquotes := f.quotes_result.mono fun _ => compiledQuote_agrees_code
    have heval : eval ctx (compileQuote ctx) (call ctx d) d f.quote.result
        (Env.mapFn CompiledQuote.code [(f.quote.binder, v)]) = _ := eval_mapFn ih hquotes _
    -- the compiled function runs as its body evaluates, and evaluation does not see what the
    -- functions stand for
    calc call ctx (d + 1) f.code (v.mapFn CompiledQuote.code)
        = step ctx (call ctx d) d f.code [v.mapFn CompiledQuote.code] >>=
            Michelson.singleton := rfl
      _ = Fuel.bimap id Prod.fst (eval ctx (compileQuote ctx) (call ctx d) d f.quote.result
            (Env.mapFn CompiledQuote.code [(f.quote.binder, v)])) :=
          step_translateFunction f.plain f.compiled _ _ _
      _ = _ := by
          rw [heval, applyCompiled]
          cases eval ctx (compiledQuote ctx) (applyCompiled ctx d) d f.quote.result
            [(f.quote.binder, v)] <;> rfl

/-- Forgetting the code of the quotes, a call is a call of the reference semantics. -/
theorem applyQuote_quote (d : ℕ) (f : CompiledQuote ctx)
    (v : Michelson.Value (CompiledQuote ctx)) :
    applyQuote ctx d f.quote (v.mapFn CompiledQuote.quote) =
      (applyCompiled ctx d f v).mapFn CompiledQuote.quote
        (Michelson.Value.mapFn CompiledQuote.quote) := by
  induction d generalizing f v with
  | zero => rfl
  | succ d ih =>
    have hquotes := f.quotes_result.mono fun _ => compiledQuote_agrees_quote
    have heval : eval ctx some (applyQuote ctx d) d f.quote.result
        (Env.mapFn CompiledQuote.quote [(f.quote.binder, v)]) = _ := eval_mapFn ih hquotes _
    refine bind_bimap heval fun r _ => rfl

/-! ### Runs -/

section Run

variable {e : Expression} {env env' : Environment} {code : Node} (hp : Plain e)
  (h : translateExpression ctx e env = .ok (code, env'))

include hp h

/-- At every depth, the run of the code is the evaluation of the expression. -/
theorem run_translateExpression (d : ℕ) {ρ : Env (CompiledQuote ctx)}
    (hρ : names ρ = names env) (rest : Michelson.Stack) :
    run ctx d code (vals (ρ.mapFn CompiledQuote.code) ++ rest) =
      (eval ctx (compiledQuote ctx) (applyCompiled ctx d) d e ρ).mapFn CompiledQuote.code
        fun r => resultStack rest (mapResult CompiledQuote.code r) := by
  have hn : names (ρ.mapFn CompiledQuote.code) = names env := (Scope.names_mapVal ..).trans hρ
  have hquotes := (quotes_of_translateExpression hp h).mono fun _ => compiledQuote_agrees_code
  rw [run, (compiles hp h).2 (call ctx d) d hn rest, eval_mapFn (call_code d) hquotes ρ]
  cases eval ctx (compiledQuote ctx) (applyCompiled ctx d) d e ρ <;> rfl

/-- Evaluation does not see how functions are represented. -/
theorem evalAt_compiled (d : ℕ) (ρ : Env (CompiledQuote ctx)) :
    evalAt ctx d e (ρ.mapFn CompiledQuote.quote) =
      (eval ctx (compiledQuote ctx) (applyCompiled ctx d) d e ρ).mapFn CompiledQuote.quote
        (mapResult CompiledQuote.quote) :=
  eval_mapFn (applyQuote_quote d)
    ((quotes_of_translateExpression hp h).mono fun _ => compiledQuote_agrees_quote) ρ

end Run

/-! ### Representation -/

variable (ctx) in
/-- `w` is `v` with the code of its functions. -/
def Represents (v : Michelson.Value AnonFunction) (w : Michelson.Value Node) : Prop :=
  ∃ u : Michelson.Value (CompiledQuote ctx),
    u.mapFn CompiledQuote.quote = v ∧ u.mapFn CompiledQuote.code = w

variable (ctx) in
/-- The stack `s` holds the values of `ρ`, one for each binding of `env`. -/
def RepresentsEnv (env : Environment) (ρ : Env AnonFunction) (s : Michelson.Stack) : Prop :=
  ∃ σ : Env (CompiledQuote ctx), names σ = names env ∧
    σ.mapFn CompiledQuote.quote = ρ ∧ vals (σ.mapFn CompiledQuote.code) = s

/-- The code of a function value, when there is one. -/
def codeOf (ctx : Michelson.Context) (f : AnonFunction) : Node :=
  (compileQuote ctx f).getD (seq [])

theorem codeOf_comp_quote :
    codeOf ctx ∘ CompiledQuote.quote = (CompiledQuote.code : CompiledQuote ctx → Node) := by
  funext f
  rw [Function.comp_apply, codeOf, compileQuote_eq_some.2 f.compiled, Option.getD_some]

/-- A value determines its representation. -/
theorem Represents.eq {v : Michelson.Value AnonFunction} {w : Michelson.Value Node}
    (h : Represents ctx v w) : w = v.mapFn (codeOf ctx) := by
  obtain ⟨u, rfl, rfl⟩ := h
  rw [Michelson.Value.mapFn_mapFn, codeOf_comp_quote]

/-- The stack of an environment is determined by its values. -/
theorem RepresentsEnv.eq {env : Environment} {ρ : Env AnonFunction} {s : Michelson.Stack}
    (h : RepresentsEnv ctx env ρ s) : s = vals (ρ.mapFn (codeOf ctx)) := by
  obtain ⟨σ, -, rfl, rfl⟩ := h
  simp only [Scope.vals_mapVal, List.map_map]
  refine List.map_congr_left fun u _ => ?_
  rw [Function.comp_apply, Michelson.Value.mapFn_mapFn, codeOf_comp_quote]

/-- Running the code of a plain expression ends exactly when the expression has a value:
with that value on top of the environment that the evaluation leaves, and the stack
below as it was. -/
theorem ends_translateExpression_iff {e : Expression} {env env' : Environment} {code : Node}
    (hp : Plain e) (h : translateExpression ctx e env = .ok (code, env'))
    {ρ : Env AnonFunction} {s : Michelson.Stack} (hs : RepresentsEnv ctx env ρ s)
    (rest t : Michelson.Stack) :
    Ends ctx code (s ++ rest) t ↔
      ∃ v ρ' w s', Evaluates ctx e ρ v ρ' ∧ Represents ctx v w ∧
        RepresentsEnv ctx env ρ' s' ∧ t = w :: (s' ++ rest) := by
  obtain ⟨σ, hσ, rfl, rfl⟩ := hs
  have hnames : ∀ {d u σ'}, eval ctx (compiledQuote ctx) (applyCompiled ctx d) d e σ =
      .ok (u, σ') → names σ' = names env := fun heval => (eval_names hp heval).trans hσ
  constructor
  · rintro ⟨d, hd⟩
    rw [run_translateExpression hp h d hσ rest] at hd
    have hsource := evalAt_compiled hp h d σ
    cases heval : eval ctx (compiledQuote ctx) (applyCompiled ctx d) d e σ with
    | error stop =>
      rw [heval] at hd
      cases hd
    | ok r =>
      obtain ⟨u, σ'⟩ := r
      rw [heval] at hd hsource
      cases hd
      exact ⟨_, _, _, _, ⟨d, hsource⟩, ⟨u, rfl, rfl⟩, ⟨σ', hnames heval, rfl, rfl⟩, rfl⟩
  · rintro ⟨v, ρ', w, s', ⟨d, hd⟩, hw, hs', rfl⟩
    refine ⟨d, ?_⟩
    rw [run_translateExpression hp h d hσ rest]
    have hsource := evalAt_compiled hp h d σ
    rw [hd] at hsource
    cases heval : eval ctx (compiledQuote ctx) (applyCompiled ctx d) d e σ with
    | error stop =>
      rw [heval] at hsource
      cases hsource
    | ok r =>
      obtain ⟨u, σ'⟩ := r
      rw [heval] at hsource
      cases hsource
      -- the value and the environment have one representation each
      have hu : Represents ctx (u.mapFn CompiledQuote.quote) (u.mapFn CompiledQuote.code) :=
        ⟨u, rfl, rfl⟩
      have hσ' : RepresentsEnv ctx env (σ'.mapFn CompiledQuote.quote)
          (vals (σ'.mapFn CompiledQuote.code)) := ⟨σ', hnames heval, rfl, rfl⟩
      rw [hw.eq, hs'.eq, ← hu.eq, ← hσ'.eq]
      rfl

/-- The function that doubles an integer. -/
def double : AnonFunction :=
  .mk "z" (.tBase .int) (.tBase .int)
    (.mk (.eEnvironmentReturn
      (.mk (.eConstant "ADD" [.mk (.eVariable "z") (.tBase .int), .mk (.eVariable "z") (.tBase .int)])
        (.tBase .int))) (.tBase .int))

/-- Double the successor of `y`, under the name `y` again. -/
def doubleSucc : Expression :=
  .mk (.eLetIn ("y", .tBase .int)
    (.mk (.eConstant "ADD" [.mk (.eVariable "y") (.tBase .int),
      .mk (.eLiteral (.dInt ⟨1, OInt.one_mem⟩)) (.tBase .int)]) (.tBase .int))
    (.mk (.eApplication
      (.mk (.eLiteral (.dFunction double)) (.tFunction (.tBase .int) (.tBase .int)))
      (.mk (.eVariable "y") (.tBase .int))) (.tBase .int))) (.tBase .int)

/-- A function applied twice. -/
theorem doubleSucc_ends :
    ∃ code env', translateExpression Context.empty doubleSucc [("y", .tBase .int)] =
        .ok (code, env') ∧
      Ends Context.empty code [.int 20, .unit] [.int 42, .int 20, .unit] := by
  -- the expression is plain: its literals are read as they are written
  have hplain : Plain doubleSucc := by
    simp only [doubleSucc, double, Plain, Plain', PlainAll, PlainValue, PlainQuote]
    refine ⟨by decide, ⟨by decide, ⟨trivial, ?_⟩, trivial⟩, ?_,
      ⟨⟨by decide, by decide, by decide, trivial⟩, ?_⟩, by decide⟩
    · intro t ht
      cases ht
      trivial
    · intro c i o ht
      cases ht
    · intro t ht
      cases ht
      trivial
  -- the compiler runs by computation
  obtain ⟨code, env', h⟩ : ∃ code env', translateExpression Context.empty doubleSucc
      [("y", .tBase .int)] = .ok (code, env') := ⟨_, _, rfl⟩
  refine ⟨code, env', h, (ends_translateExpression_iff hplain h
    (ρ := [("y", .int 20)]) (s := [.int 20]) ⟨[("y", .int 20)], rfl, rfl, rfl⟩ [.unit] _).2 ?_⟩
  -- two levels of calls are enough
  exact ⟨.int 42, [("y", .int 20)], .int 42, [.int 20], ⟨2, rfl⟩, ⟨.int 42, rfl, rfl⟩,
    ⟨[("y", .int 20)], rfl, rfl, rfl⟩, rfl⟩

/-- The empty list as a literal of a function type, applied to one. -/
def listApplication : Expression :=
  .mk (.eApplication (.mk (.eLiteral (.dList [])) (.tFunction (.tBase .int) (.tBase .int)))
    (.mk (.eLiteral (.dInt ⟨1, OInt.one_mem⟩)) (.tBase .int))) (.tBase .int)

/-- The identity as a literal of a list type. -/
def functionList : Expression :=
  .mk (.eLiteral (.dFunction (.mk "z" (.tBase .int) (.tBase .int)
    (.mk (.eEnvironmentReturn (.mk (.eVariable "z") (.tBase .int))) (.tBase .int)))))
    (.tList (.tFunction (.tBase .int) (.tBase .int)))

/-- Micheline writes lists and functions alike: the code of the empty list is the code of the
identity, and the code of a function reads as a list. Both compile and run, where the
semantics has no value. -/
theorem listApplication_ends :
    (∃ code env', translateExpression Context.empty listApplication [] = .ok (code, env') ∧
      Ends Context.empty code [] [.int 1] ∧
      ∀ v ρ', ¬ Evaluates Context.empty listApplication [] v ρ') ∧
    ∃ code env' w, translateExpression Context.empty functionList [] = .ok (code, env') ∧
      Ends Context.empty code [] [w] ∧
      ∀ v ρ', ¬ Evaluates Context.empty functionList [] v ρ' := by
  refine ⟨⟨_, _, rfl, ⟨1, rfl⟩, ?_⟩, ⟨_, _, _, rfl, ⟨0, rfl⟩, ?_⟩⟩
  · rintro v ρ' ⟨d, hd⟩
    cases hd
  · rintro v ρ' ⟨d, hd⟩
    cases hd

end Ligo.CompilerProgram
