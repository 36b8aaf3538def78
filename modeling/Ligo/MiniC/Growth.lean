import Ligo.MiniC.Semantics

/-!
# More depth

A run of an expression that is given more levels of calls, and more rounds for its loops,
has the result that it had (`evalAt_grows`). An expression therefore has at most one value
in an environment (`Evaluates.unique`), and the evaluations of the parts of an expression,
each at a depth of its own, are evaluations at one depth (`Evaluates.common`).
-/

namespace Ligo.MiniC

open Michelson (Context Outcome)
open Fuel

section Extends

variable {ctx : Context} {F : Type} {quote : AnonFunction → Option F}
  {apply apply' : F → Michelson.Value F → Outcome F (Michelson.Value F)}
  (happly : ∀ f v, Extends .timeout (apply f v) (apply' f v)) {n n' : ℕ} (hn : n ≤ n')

theorem evalArguments_extends {lst : List Expression}
    (h : ∀ e ∈ lst, ∀ ρ : Env F, Extends .timeout (eval ctx quote apply n e ρ)
      (eval ctx quote apply' n' e ρ)) (ρ : Env F) :
    Extends .timeout (evalArguments ctx quote apply n lst ρ)
      (evalArguments ctx quote apply' n' lst ρ) := by
  induction lst with
  | nil => rfl
  | cons e lst ih =>
    refine (ih fun e he => h e (List.mem_cons_of_mem _ he)).bind fun r => ?_
    exact (h e List.mem_cons_self r.2).bind fun _ => .refl _ _

include happly in
theorem applyValue_extends (v w : Michelson.Value F) :
    Extends .timeout (applyValue apply v w) (applyValue apply' v w) := by
  unfold applyValue
  split
  · exact happly _ _
  · rfl

include happly in
theorem applyClosure_extends (v w : Michelson.Value F) :
    Extends .timeout (applyClosure apply v w) (applyClosure apply' v w) := by
  unfold applyClosure
  split
  · exact applyValue_extends happly _ _
  · rfl

include happly hn in
/-- Calls that are defined more often, and more rounds, extend an evaluation. -/
theorem eval_extends (e : Expression) : ∀ ρ : Env F,
    Extends .timeout (eval ctx quote apply n e ρ) (eval ctx quote apply' n' e ρ) := by
  -- each step extends, and a bind of steps that extend does
  induction e using Expression.ind with
  | literal | capture | select | skip | variable' | makeEmptyMap | makeEmptyList | makeNone =>
    intro ρ
    rfl
  | load e env t ih | ret e t ih =>
    intro ρ
    exact (ih ρ).bind fun _ => .refl _ _
  | constant name lst t ih =>
    intro ρ
    exact (evalArguments_extends ih ρ).bind fun _ => .refl _ _
  | application f arg t ihf iharg =>
    intro ρ
    simp only [eval, eval']
    split
    · refine (ihf ρ).bind fun r => (iharg r.2).bind fun s => ?_
      exact (applyValue_extends happly _ _).bind fun _ => .refl _ _
    · refine (iharg ρ).bind fun r => (ihf r.2).bind fun s => ?_
      exact (applyClosure_extends happly _ _).bind fun _ => .refl _ _
    · rfl
  | ifBool c a b t ihc iha ihb =>
    intro ρ
    refine (ihc ρ).bind fun r => ?_
    dsimp only
    split
    · split
      · exact iha _
      · exact ihb _
    · rfl
  | ifNone c m x s t ihc ihm ihs =>
    intro ρ
    refine (ihc ρ).bind fun r => ?_
    dsimp only
    split
    · exact ihm _
    · exact (ihs _).bind fun _ => .refl _ _
    · rfl
  | ifLeft c x l y r t ihc ihl ihr =>
    intro ρ
    refine (ihc ρ).bind fun r => ?_
    dsimp only
    split
    · exact (ihl _).bind fun _ => .refl _ _
    · exact (ihr _).bind fun _ => .refl _ _
    · rfl
  | letIn x e b t ihe ihb =>
    intro ρ
    refine (ihe ρ).bind fun r => ?_
    exact (ihb _).bind fun _ => .refl _ _
  | sequence a b t iha ihb =>
    intro ρ
    exact (iha ρ).bind fun r => ihb r.2
  | assignment x lrs e t ihe =>
    intro ρ
    exact (ihe ρ).bind fun _ => .refl _ _
  | while' c b t ihc ihb =>
    intro ρ
    refine (ihc ρ).bind fun r => ?_
    refine (iterate_extends (fun _ => .refl _ _) ?_ hn _).bind fun _ => .refl _ _
    intro ρ
    exact (ihb ρ).bind fun s => ihc s.2

end Extends

variable {ctx : Context}

theorem applyQuote_grows (f : AnonFunction) (v : Michelson.Value AnonFunction) :
    Grows .timeout fun d => applyQuote ctx d f v := by
  refine grows_of_succ fun d => ?_
  induction d generalizing f v with
  | zero => exact Extends.out _ _
  | succ d ih =>
    exact (eval_extends ih (Nat.le_succ d) f.result _).bind fun _ => .refl _ _

/-- A larger depth never changes a result. -/
theorem evalAt_grows (e : Expression) (ρ : Env AnonFunction) :
    Grows .timeout fun d => evalAt ctx d e ρ :=
  fun d d' h => eval_extends (fun f v => applyQuote_grows f v d d' h) h e ρ

/-- An expression has at most one value. -/
theorem Evaluates.unique {e : Expression} {ρ : Env AnonFunction}
    {v₁ v₂ : Michelson.Value AnonFunction} {ρ₁ ρ₂ : Env AnonFunction}
    (h₁ : Evaluates ctx e ρ v₁ ρ₁) (h₂ : Evaluates ctx e ρ v₂ ρ₂) : v₁ = v₂ ∧ ρ₁ = ρ₂ := by
  obtain ⟨d₁, h₁⟩ := h₁
  obtain ⟨d₂, h₂⟩ := h₂
  exact Prod.mk.inj ((evalAt_grows e ρ).unique h₁ h₂)

/-- Two evaluations at one depth. -/
theorem Evaluates.common {e₁ e₂ : Expression} {ρ₁ ρ₁' ρ₂ ρ₂' : Env AnonFunction}
    {v₁ v₂ : Michelson.Value AnonFunction} (h₁ : Evaluates ctx e₁ ρ₁ v₁ ρ₁')
    (h₂ : Evaluates ctx e₂ ρ₂ v₂ ρ₂') :
    ∃ d, evalAt ctx d e₁ ρ₁ = .ok (v₁, ρ₁') ∧ evalAt ctx d e₂ ρ₂ = .ok (v₂, ρ₂') := by
  obtain ⟨d₁, h₁⟩ := h₁
  obtain ⟨d₂, h₂⟩ := h₂
  exact ⟨max d₁ d₂, (evalAt_grows e₁ ρ₁ d₁ _ (le_max_left ..)).ok h₁,
    (evalAt_grows e₂ ρ₂ d₂ _ (le_max_right ..)).ok h₂⟩

end Ligo.MiniC
