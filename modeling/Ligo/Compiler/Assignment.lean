import Ligo.Compiler.Correctness
import Ligo.Compiler.Preservation
import Ligo.MiniC.Path

/-!
# Assignments to a part of a variable

The code of an assignment `x.lrs := e` compiles exactly when the value of `e` has the
type that the variable has at `lrs`, and the pairs that are put together again are within the
limit on the size of types (`translate_assignment_iff`). Whatever the code of `e`
is, the code of the assignment then replaces this part of the variable and leaves the rest
of the stack as `e` left it (`ends_assignment`).
-/

namespace Ligo.CompilerProgram

open MiniC Michelson
open Fuel (bind_eq_ok)
open Scope (names vals)

variable {ctx : Michelson.Context}

/-! ### What is checked -/

variable (ctx) in
/-- What the result generates has passed the check at the end of its construct. -/
def Checked (env : Environment) (r : Result (Node × Environment)) : Prop :=
  ∀ code env', r = .ok (code, env') → ∃ s s', CompilerType.Ty.environment env = .ok s ∧
    CompilerType.Ty.environment env' = .ok s' ∧ Types ctx code s s'

section Checked

variable {env : Environment} {r : Result (Node × Environment)}

theorem checked_finish {ty : TypeValue} {env' : Environment} {code : Node} :
    Checked ctx env (finish ctx env ty env' code) := by
  intro code' env'' h
  obtain ⟨hr, s, s', hs, hs', htypes⟩ := finish_eq_ok h
  cases hr
  exact ⟨s, s', hs, hs', parseMichelson_iff.1 htypes⟩

theorem checked_bind {α : Type} {x : Result α} {f : α → Result (Node × Environment)}
    (h : ∀ a, Checked ctx env (f a)) : Checked ctx env (x >>= f) := by
  intro code env' hr
  obtain ⟨a, -, hr⟩ := bind_eq_ok.1 hr
  exact h a code env' hr

theorem checked_trace {title : String} (h : Checked ctx env r) :
    Checked ctx env (trace title r) :=
  fun code env' hr => h code env' (trace_eq_ok.1 hr)

theorem checked_fail {title : String} : Checked ctx env (simpleFail title) := nofun

end Checked

/-- The code that is generated has the type that its environments say. -/
theorem translateExpression_checked (e : Expression) (env : Environment) :
    Checked ctx env (translateExpression ctx e env) := by
  obtain ⟨e', ty⟩ := e
  rw [translateExpression]
  refine checked_trace ?_
  -- every branch binds some codes and ends in `finish`
  cases e' with
  | eSkip =>
    rw [translateExpression']
    exact checked_finish
  | eEnvironmentCapture c | eEnvironmentSelect e | eVariable x | eMakeEmptyList t
  | eMakeNone t =>
    rw [translateExpression']
    exact checked_bind fun _ => checked_finish
  | eEnvironmentReturn e | eLiteral v | eMakeEmptyMap k v =>
    rw [translateExpression']
    exact checked_bind fun _ => checked_bind fun _ => checked_finish
  | eEnvironmentLoad e env' | eSequence a b =>
    rw [translateExpression']
    exact checked_bind fun _ => checked_bind fun _ => checked_bind fun _ => checked_finish
  | eWhile a b =>
    rw [translateExpression']
    exact checked_bind fun _ => checked_bind fun _ => checked_bind fun _ =>
      checked_bind fun _ => checked_finish
  | eApplication f arg =>
    rw [translateExpression']
    split
    · exact checked_trace (checked_bind fun _ => checked_bind fun _ => checked_finish)
    · exact checked_trace (checked_bind fun _ => checked_bind fun _ => checked_bind fun _ =>
        checked_bind fun _ => checked_trace checked_finish)
    · exact checked_fail
  | eConstant name lst =>
    rw [translateExpression']
    exact checked_bind fun _ => checked_bind fun _ => checked_bind fun _ =>
      checked_trace checked_finish
  | eIfBool c a b =>
    rw [translateExpression']
    exact checked_bind fun _ => checked_bind fun _ => checked_bind fun _ =>
      checked_bind fun _ => checked_finish
  | eIfNone c n x s =>
    rw [translateExpression']
    exact checked_bind fun _ => checked_bind fun _ => checked_bind fun _ =>
      checked_bind fun _ => checked_bind fun _ => checked_bind fun _ => checked_finish
  | eIfLeft c x l y r =>
    rw [translateExpression']
    exact checked_bind fun _ => checked_bind fun _ => checked_bind fun _ =>
      checked_bind fun _ => checked_bind fun _ => checked_finish
  | eLetIn v e b =>
    rw [translateExpression']
    exact checked_bind fun _ => checked_bind fun _ => checked_bind fun _ =>
      checked_bind fun _ => checked_bind fun _ => checked_finish
  | eAssignment x lrs e =>
    rw [translateExpression']
    exact checked_bind fun _ => checked_bind fun _ => checked_bind fun _ =>
      checked_trace checked_finish

/-! ### The type of an assignment -/

/-- Only a pair can be taken apart. -/
theorem of_iUnpiar {s s' : StackTy} (h : Types ctx iUnpiar s s') :
    ∃ t u s₀, s = .pair t u :: s₀ ∧ s' = u :: t :: s₀ := by
  cases s with
  | nil => cases h
  | cons a s =>
    cases a with
    | pair t u =>
      cases h
      exact ⟨t, u, s, rfl, rfl⟩
    | _ => cases h

theorem of_iPiar {s s' : StackTy} (h : Types ctx iPiar s s') :
    ∃ t u s₀, s = t :: u :: s₀ ∧ s' = .pair u t :: s₀ ∧ ctx.admits (.pair u t) = true := by
  obtain ⟨s₁, hswap, hpair⟩ := Types.of_cons h
  obtain ⟨s₂, hpair, hnil⟩ := Types.of_cons hpair
  obtain rfl := hnil.unique types_nil
  obtain ⟨u, t, s₀, rfl, rfl, hadmits⟩ := hpair.of_iPair
  match s, hswap with
  | [], hswap | [_], hswap => cases hswap
  | _ :: _ :: _, hswap =>
    cases hswap
    exact ⟨t, u, s₀, rfl, rfl, hadmits⟩

/-- The update of a part keeps the type of the whole when the new part has the type of the
old one, and the pairs around it are within the limit. -/
theorem types_modifyCode_iff {lrs : List Step} {t u : Ty} {s : StackTy} :
    Types ctx (modifyCode lrs) (u :: t :: s) (t :: s) ↔
      tyAt lrs t = some u ∧ (lrs ≠ [] → ctx.admits t = true) := by
  -- by induction on the path: the code unpairs, modifies the one component and pairs again,
  -- and the outermost of these pairs is the largest
  induction lrs generalizing t s with
  | nil =>
    have hdrop : Types ctx (dip iDrop) (u :: t :: s) (u :: s) := types_iDrop.dip
    constructor
    · intro h
      cases h.unique hdrop
      exact ⟨rfl, absurd rfl⟩
    · rintro ⟨hat, -⟩
      cases hat
      exact hdrop
  | cons step lrs ih =>
    rw [modifyCode, foldRight'_cons, ← modifyCode]
    cases step with
    | left =>
      constructor
      · intro h
        obtain ⟨s₁, hunpair, hrest⟩ := Types.of_cons h
        obtain ⟨s₂, hmodify, hlast⟩ := Types.of_cons hrest
        obtain ⟨_, _, _, hs, rfl, hunpair⟩ := Types.of_dip hunpair
        cases hs
        obtain ⟨a, b, s₀, hs, rfl⟩ := Types.of_iUnpair hunpair
        cases hs
        obtain ⟨s₃, hpair, hnil⟩ := Types.of_cons hlast
        obtain rfl := hnil.unique types_nil
        obtain ⟨_, _, _, rfl, hs, hadmits⟩ := hpair.of_iPair
        cases hs
        exact ⟨(ih.1 hmodify).1, fun _ => hadmits⟩
      · rintro ⟨hat, hadmits⟩
        have hadmits := hadmits (by simp)
        cases t with
        | pair a b =>
          have hunpair : Types ctx (dip iUnpair) (u :: .pair a b :: s) (u :: a :: b :: s) :=
            types_iUnpair.dip
          have hmodify : Types ctx (modifyCode lrs) (u :: a :: b :: s) (a :: b :: s) :=
            ih.2 ⟨hat, fun _ => Context.admits_fst hadmits⟩
          exact hunpair.cons (hmodify.cons (types_iPair hadmits).singleton)
        | _ => cases hat
    | right =>
      constructor
      · intro h
        obtain ⟨s₁, hunpiar, hrest⟩ := Types.of_cons h
        obtain ⟨s₂, hmodify, hlast⟩ := Types.of_cons hrest
        obtain ⟨_, _, _, hs, rfl, hunpiar⟩ := Types.of_dip hunpiar
        cases hs
        obtain ⟨a, b, s₀, hs, rfl⟩ := of_iUnpiar hunpiar
        cases hs
        obtain ⟨s₃, hpiar, hnil⟩ := Types.of_cons hlast
        obtain rfl := hnil.unique types_nil
        obtain ⟨_, _, _, rfl, hs, hadmits⟩ := of_iPiar hpiar
        cases hs
        exact ⟨(ih.1 hmodify).1, fun _ => hadmits⟩
      · rintro ⟨hat, hadmits⟩
        have hadmits := hadmits (by simp)
        cases t with
        | pair a b =>
          have hunpiar : Types ctx (dip iUnpiar) (u :: .pair a b :: s) (u :: b :: a :: s) :=
            types_iUnpiar.dip
          have hmodify : Types ctx (modifyCode lrs) (u :: b :: a :: s) (b :: a :: s) :=
            ih.2 ⟨hat, fun _ => Context.admits_snd hadmits⟩
          exact hunpiar.cons (hmodify.cons (types_iPiar hadmits).singleton)
        | _ => cases hat

/-- The update of a part leaves what is below as it was. -/
theorem Types.of_modifyCode {lrs : List Step} {t u : Ty} {s m : StackTy}
    (h : Types ctx (modifyCode lrs) (u :: t :: s) m) : ∃ t', m = t' :: s := by
  -- down the path; each step takes the pair apart and puts it together again
  induction lrs generalizing t s m with
  | nil =>
    have hdrop : Types ctx (dip iDrop) (u :: t :: s) (u :: s) := types_iDrop.dip
    exact ⟨u, h.unique hdrop⟩
  | cons step lrs ih =>
    rw [modifyCode, foldRight'_cons, ← modifyCode] at h
    cases step with
    | left =>
      obtain ⟨s₁, hunpair, hrest⟩ := Types.of_cons h
      obtain ⟨s₂, hmodify, hlast⟩ := Types.of_cons hrest
      obtain ⟨_, _, _, hs, rfl, hunpair⟩ := Types.of_dip hunpair
      cases hs
      obtain ⟨a, b, s₀, hs, rfl⟩ := Types.of_iUnpair hunpair
      cases hs
      -- below the step, the component is replaced by one of another type at most
      obtain ⟨a', rfl⟩ := ih hmodify
      obtain ⟨s₃, hpair, hnil⟩ := Types.of_cons hlast
      obtain rfl := hnil.unique types_nil
      obtain ⟨_, _, _, hs, rfl, -⟩ := hpair.of_iPair
      cases hs
      exact ⟨_, rfl⟩
    | right =>
      obtain ⟨s₁, hunpiar, hrest⟩ := Types.of_cons h
      obtain ⟨s₂, hmodify, hlast⟩ := Types.of_cons hrest
      obtain ⟨_, _, _, hs, rfl, hunpiar⟩ := Types.of_dip hunpiar
      cases hs
      obtain ⟨a, b, s₀, hs, rfl⟩ := of_iUnpiar hunpiar
      cases hs
      obtain ⟨b', rfl⟩ := ih hmodify
      obtain ⟨s₃, hpiar, hnil⟩ := Types.of_cons hlast
      obtain rfl := hnil.unique types_nil
      obtain ⟨_, _, _, hs, rfl, -⟩ := of_iPiar hpiar
      cases hs
      exact ⟨_, rfl⟩

/-- A variable is only set to a value of its type. -/
theorem type_of_set {Γ : Environment} {x : String} {σ : TypeValue} {t t' : Ty} {s : StackTy}
    {code : Node} (hs : CompilerType.Ty.environment Γ = .ok s)
    (hlookup : Scope.lookup x Γ = some σ) (ht : CompilerType.Ty.type_ σ = .ok t)
    (hset : CompilerEnvironment.set ctx Γ x = .ok code) (h : Types ctx code (t' :: s) s) :
    t' = t := by
  obtain ⟨pre, t₁, post, hpos, ht₁, rfl⟩ := CompilerEnvironment.lookup_position hs hlookup
  cases ht.symm.trans ht₁
  obtain ⟨⟨_, position⟩, hpos', hset⟩ := bind_eq_ok.1 hset
  obtain ⟨_, -, hset⟩ := bind_eq_ok.1 hset
  obtain ⟨_, -, hset⟩ := bind_eq_ok.1 hset
  obtain ⟨_, -, hset⟩ := bind_eq_ok.1 hset
  cases hset
  cases hpos.symm.trans (traceOption_eq_ok.1 hpos')
  have hstack := h.unique (CompilerEnvironment.types_setCode t' pre t post)
  exact (List.cons.inj (List.append_cancel_left hstack)).1.symm

section Assignment

variable {Γ : Environment} {x : String} {σ τ : TypeValue} {lrs : List Step} {e : Expression}
  {codeE : Node} {t u : Ty} {s : StackTy}

/-- An assignment compiles exactly when the new part has the type of the old one, and the
variable has a type within the limit if it is a part that changes. -/
theorem translate_assignment_iff (hx : x ≠ Environment.tmpName)
    (hs : CompilerType.Ty.environment Γ = .ok s) (hlookup : Scope.lookup x Γ = some σ)
    (ht : CompilerType.Ty.type_ σ = .ok t) (hu : CompilerType.Ty.type_ τ = .ok u)
    (he : translateExpression ctx e Γ = .ok (codeE, tmp τ Γ)) :
    (∃ r, translateExpression ctx (.mk (.eAssignment x lrs e) (.tBase .unit)) Γ = .ok r) ↔
      tyAt lrs t = some u ∧ (lrs ≠ [] → ctx.admits t = true) := by
  have hs' : CompilerType.Ty.environment (tmp τ Γ) = .ok (u :: s) := environment_tmp hs hu
  obtain ⟨_, _, hs₁, hs₂, htypesE⟩ := translateExpression_checked e Γ codeE _ he
  cases hs.symm.trans hs₁
  cases hs'.symm.trans hs₂
  -- the variable is found under the value of the right-hand side
  have hlookup' : Scope.lookup x (tmp τ Γ) = some σ := by
    change Scope.lookup x ((Environment.tmpName, τ) :: Γ) = _
    rw [Scope.lookup, if_neg hx, hlookup]
  obtain ⟨codeGet, t₁, hcodeGet, ht₁, htypesGet⟩ := CompilerEnvironment.get_ok ctx hs' hlookup'
  obtain ⟨codeSet, t₂, hcodeSet, ht₂, htypesSet⟩ := CompilerEnvironment.set_ok ctx hs hlookup
  cases ht.symm.trans ht₁
  cases ht.symm.trans ht₂
  have htranslate : translateExpression ctx (.mk (.eAssignment x lrs e) (.tBase .unit)) Γ =
      trace "compiling expression" (trace "michelson type-checking patch" (finish ctx Γ
        (.tBase .unit) (tmp (.tBase .unit) Γ)
        (seq [iComment "assign: start # env", codeE,
          iComment "assign: compute rhs # rhs : env", codeGet,
          iComment "assign: get name # name : rhs : env", iSwap,
          iComment "assign: swap # rhs : name : env", modifyCode lrs,
          iComment "assign: modify code # name+rhs : env", codeSet,
          iComment "assign: set new # new_env", iPushUnit]))) := by
    rw [translateExpression, translateExpression', he]
    change trace _ (CompilerEnvironment.get ctx (tmp τ Γ) x >>= _) = _
    rw [hcodeGet]
    change trace _ (CompilerEnvironment.set ctx Γ x >>= _) = _
    rw [hcodeSet]
    rfl
  rw [htranslate]
  -- the instructions before the update put the new value above the old one
  have hbefore : Types ctx (seq [iComment "assign: start # env", codeE,
      iComment "assign: compute rhs # rhs : env", codeGet,
      iComment "assign: get name # name : rhs : env", iSwap,
      iComment "assign: swap # rhs : name : env"]) s (u :: t :: s) :=
    (types_iComment _).cons (htypesE.cons ((types_iComment _).cons (htypesGet.cons
      ((types_iComment _).cons (types_iSwap.cons (types_iComment _).singleton)))))
  constructor
  · rintro ⟨⟨code, env'⟩, h⟩
    obtain ⟨-, _, _, hbef, haft, hparse⟩ := finish_eq_ok (trace_eq_ok.1 (trace_eq_ok.1 h))
    cases hs.symm.trans hbef
    cases (environment_tmp hs rfl : CompilerType.Ty.environment
      (tmp (.tBase .unit) Γ) = .ok (.unit :: s)).symm.trans haft
    obtain ⟨_, hmodify, hrest⟩ := ((parseMichelson_iff.1 hparse).of_append hbefore).of_cons
    obtain ⟨t', rfl⟩ := Types.of_modifyCode hmodify
    obtain ⟨_, hcomment, hrest⟩ := hrest.of_cons
    obtain rfl := hcomment.unique (types_iComment _)
    obtain ⟨m, hset, hrest⟩ := hrest.of_cons
    -- the unit that is pushed last stands on the stack that there was
    have hstack := hrest.unique ((types_iComment _).cons types_iPushUnit.singleton)
    cases hstack
    obtain rfl := type_of_set hs hlookup ht hcodeSet hset
    exact types_modifyCode_iff.1 hmodify
  · intro hat
    have hmodify : Types ctx (modifyCode lrs) (u :: t :: s) (t :: s) := types_modifyCode_iff.2 hat
    have hunit : CompilerType.Ty.environment (tmp (.tBase .unit) Γ) = .ok (.unit :: s) :=
      environment_tmp hs rfl
    refine ⟨_, trace_eq_ok.2 (trace_eq_ok.2 (finish_ok hs (known_base .unit) hunit ?_))⟩
    refine hbefore.append (hmodify.cons ((types_iComment _).cons ?_))
    exact htypesSet.cons ((types_iComment _).cons types_iPushUnit.singleton)

/-- The code of an assignment replaces the part of the variable. -/
theorem ends_assignment {ty : TypeValue} {code : Node} {Γ' : Environment}
    (hx : x ≠ Environment.tmpName) (he : translateExpression ctx e Γ = .ok (codeE, tmp τ Γ))
    (h : translateExpression ctx (.mk (.eAssignment x lrs e) ty) Γ = .ok (code, Γ'))
    {s₀ : Stack} {w old new : Michelson.Value Node} {ρ : Env Node}
    (hρ : names ρ = names Γ) (hend : Ends ctx codeE s₀ (w :: vals ρ))
    (hold : Scope.lookup x ρ = some old) (hnew : updatePath w lrs old = .ok new) :
    Ends ctx code s₀ (.unit :: vals (Scope.assign x new ρ)) := by
  obtain ⟨⟨_, _⟩, he', h⟩ := bind_eq_ok.1 (trace_eq_ok.1 h)
  cases he.symm.trans he'
  obtain ⟨codeGet, hget, h⟩ := bind_eq_ok.1 h
  obtain ⟨codeSet, hset, h⟩ := bind_eq_ok.1 h
  obtain ⟨hr, -⟩ := finish_eq_ok (trace_eq_ok.1 h)
  cases hr
  have hρ' : names ((Environment.tmpName, w) :: ρ) = names (tmp τ Γ) := congrArg (_ :: ·) hρ
  have hread : Ends ctx codeGet (w :: vals ρ) (old :: w :: vals ρ) := by
    refine ends_of_step fun exec n => ?_
    obtain ⟨v, hv, hstep⟩ :=
      @CompilerEnvironment.step_readCode ctx exec n _ x _
        (CompilerEnvironment.readCode_of_get hget) _ hρ' []
    rw [Scope.lookup, if_neg hx, hold] at hv
    cases hv
    rwa [List.append_nil] at hstep
  have hmodify : Ends ctx (modifyCode lrs) (w :: old :: vals ρ) (new :: vals ρ) := by
    refine ends_of_step fun exec n => ?_
    rw [step_modifyCode, hnew]
    rfl
  have hwrite : Ends ctx codeSet (new :: vals ρ) (vals (Scope.assign x new ρ)) := by
    refine ends_of_step fun exec n => ?_
    have hstep := @step_set ctx Γ x codeSet hset exec n ρ hρ new []
    rwa [List.append_nil, List.append_nil] at hstep
  have hswap : Ends ctx iSwap (old :: w :: vals ρ) (w :: old :: vals ρ) :=
    ends_of_step fun _ _ => rfl
  have hpush : Ends ctx iPushUnit (vals (Scope.assign x new ρ))
      (.unit :: vals (Scope.assign x new ρ)) := ends_of_step fun _ _ => rfl
  have hcomment : ∀ (text : String) (s : Stack), Ends ctx (iComment text) s s :=
    fun _ _ => ends_of_step fun _ _ => rfl
  -- compute, read the old value, swap, modify, write and push `unit`
  refine ends_cons.2 ⟨_, hcomment _ _, ends_cons.2 ⟨_, hend, ?_⟩⟩
  refine ends_cons.2 ⟨_, hcomment _ _, ends_cons.2 ⟨_, hread, ?_⟩⟩
  refine ends_cons.2 ⟨_, hcomment _ _, ends_cons.2 ⟨_, hswap, ?_⟩⟩
  refine ends_cons.2 ⟨_, hcomment _ _, ends_cons.2 ⟨_, hmodify, ?_⟩⟩
  refine ends_cons.2 ⟨_, hcomment _ _, ends_cons.2 ⟨_, hwrite, ?_⟩⟩
  exact ends_cons.2 ⟨_, hcomment _ _, ends_singleton.2 hpush⟩

end Assignment

end Ligo.CompilerProgram
