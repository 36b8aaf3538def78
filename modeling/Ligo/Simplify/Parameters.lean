import Ligo.AstSimplified.Semantics

/-!
# Parameters from one tuple

A function of several parameters becomes a lambda of one argument, the tuple of the arguments,
around a `let` for each parameter that reads its component of the tuple (`tplChain`). The
argument has a name of its own, which is in scope in the `let`s and in the body.

`BindsParameters` says what such a lambda is for: its body is evaluated where each parameter
has its own component and every other name has the meaning it has outside.
`bindsParameters_iff` says when it is: the `let`s read the tuple until one of them binds the
name of the argument (`Reads`), and after them the name of the argument is bound in the body.
-/

namespace Ligo.Simplify

open AstSimplified (Expression TypeExpression Value Env Interpretation Enters applyClosure eval
  evalAccess readVariable unit)
open Fuel (bind_eq_ok)
open Scope (names lookup)

/-! ### Names in a body -/

/-- A free occurrence of a name in the source of a body: of a variable, or of a predefined
name, which the simplifier makes a constant. -/
inductive Use where
  | variable' (x : String)
  | predefined (x : String)
  deriving DecidableEq

namespace Use

def name : Use → String
  | .variable' x | .predefined x => x

/-- The occurrences that bindings of `xs` leave free. -/
def removing (xs : List String) (uses : List Use) : List Use :=
  uses.filter fun u => u.name ∉ xs

/-- In the scope of bindings of `xs`, an occurrence has in `ρ'` the meaning it has in `ρ`. A
predefined name is not read from the environment, so it must not be among `xs`. -/
def Means (xs : List String) (ρ' ρ : Env) : Use → Prop
  | .variable' x => lookup x ρ' = lookup x ρ
  | .predefined x => x ∉ xs

end Use

/-! ### The chain -/

/-- The `let`s that read the components from `i` on, around a body. -/
def tplChain (argumentsName : String) : ℕ → List (String × TypeExpression) → Expression →
    Expression
  | _, [], body => body
  | i, x :: params, body =>
    .eLetIn x.1 (some x.2) (.eAccessor (.eVariable argumentsName) [.tuple i])
      (tplChain argumentsName (i + 1) params body)

/-- The lambda evaluates `body` with each parameter bound to its own component of the
arguments, and every other name that occurs as outside of the lambda. -/
def BindsParameters (xs : List String) (argumentsName : String) (result body : Expression)
    (uses : List Use) : Prop :=
  ∀ (I : Interpretation) (args : List Value) (ρ : Env), args.length = xs.length →
    ∃ ρ', Enters I result ((argumentsName, .tuple args) :: ρ) body ρ' ∧
      applyClosure I (.closure ρ argumentsName result) (.tuple args) =
        (eval I body ρ').map Prod.fst ∧
      ∀ u ∈ uses, u.Means xs ρ' (xs.zip args ++ ρ)

/-- The name of the argument is no parameter but the last one; it does not occur unless it is
a parameter; and no predefined name that occurs is a parameter. -/
def Apart (xs : List String) (argumentsName : String) (uses : List Use) : Prop :=
  argumentsName ∉ xs.dropLast ∧ (argumentsName ∈ xs ∨ .variable' argumentsName ∉ uses) ∧
    ∀ x ∈ xs, .predefined x ∉ uses

instance (xs : List String) (argumentsName : String) (uses : List Use) :
    Decidable (Apart xs argumentsName uses) :=
  inferInstanceAs (Decidable (_ ∧ _ ∧ _))

section Chain

variable {I : Interpretation} {argumentsName : String} {body : Expression} {ρ ρ' : Env}

/-- A component of the tuple of arguments. -/
theorem eval_component {i : ℕ} {r : Value × Env} :
    eval I (.eAccessor (.eVariable argumentsName) [.tuple i]) ρ = .ok r ↔
      ∃ lst v, lookup argumentsName ρ = some (.tuple lst) ∧ lst[i]? = some v ∧ r = (v, ρ) := by
  rw [eval, eval, readVariable]
  cases hlookup : lookup argumentsName ρ with
  | none =>
    constructor
    · intro h
      cases h
    · rintro ⟨_, _, h, -⟩
      cases h
  | some w =>
    show (evalAccess I (.tuple i) w ρ >>= fun r => pure r) = .ok r ↔ _
    cases w with
    | tuple lst =>
      rw [evalAccess, nth_natCast]
      cases hv : lst[i]? with
      | none =>
        constructor
        · intro h
          cases h
        · rintro ⟨_, v, h, hv', -⟩
          cases h
          rw [hv] at hv'
          cases hv'
      | some v =>
        constructor
        · intro h
          cases h
          exact ⟨lst, v, rfl, hv, rfl⟩
        · rintro ⟨_, v', h, hv', rfl⟩
          cases h
          rw [hv] at hv'
          cases hv'
          rfl
    -- anything but a tuple has no components
    | _ =>
      constructor
      · intro h
        cases h
      · rintro ⟨_, _, h, -⟩
        cases h

/-- From `ρ`, components from `i` on are bound to the names, and `ρ'` results. -/
def Reads (argumentsName : String) : ℕ → List String → Env → Env → Prop
  | _, [], ρ, ρ' => ρ' = ρ
  | i, x :: xs, ρ, ρ' => ∃ lst v, lookup argumentsName ρ = some (.tuple lst) ∧
    lst[i]? = some v ∧ Reads argumentsName (i + 1) xs ((x, v) :: ρ) ρ'

theorem sizeOf_le_tplChain (argumentsName : String) (i : ℕ)
    (params : List (String × TypeExpression)) (body : Expression) :
    sizeOf body ≤ sizeOf (tplChain argumentsName i params body) := by
  induction params generalizing i with
  | nil => exact Nat.le_refl _
  | cons x params ih =>
    have h := ih (i + 1)
    simp only [tplChain, Expression.eLetIn.sizeOf_spec]
    omega

/-- An expression is not entered again inside of itself. -/
theorem enters_self_iff : Enters I body ρ body ρ' ↔ ρ' = ρ := by
  constructor
  · intro h
    cases h with
    | here => rfl
    | letIn _ h =>
      have hsize := h.sizeOf_le
      simp only [Expression.eLetIn.sizeOf_spec] at hsize
      omega
  · rintro rfl
    exact .here

/-- The chain enters the body where every parameter has been bound to its component. -/
theorem enters_tplChain_iff {i : ℕ} {params : List (String × TypeExpression)} :
    Enters I (tplChain argumentsName i params body) ρ body ρ' ↔
      Reads argumentsName i (params.map Prod.fst) ρ ρ' := by
  induction params generalizing i ρ with
  | nil => exact enters_self_iff
  | cons x params ih =>
    constructor
    · intro h
      have hsize := sizeOf_le_tplChain argumentsName (i + 1) params body
      generalize he : tplChain argumentsName i (x :: params) body = e at h
      cases h with
      | here =>
        -- the chain is larger than its body
        have hself := congrArg sizeOf he
        rw [tplChain, Expression.eLetIn.sizeOf_spec] at hself
        omega
      | letIn hrhs h =>
        cases he
        obtain ⟨lst, v, hlookup, hv, hr⟩ := eval_component.1 hrhs
        cases hr
        exact ⟨lst, _, hlookup, hv, ih.1 h⟩
    · rintro ⟨lst, v, hlookup, hv, h⟩
      exact .letIn (eval_component.2 ⟨lst, v, hlookup, hv, rfl⟩) (ih.2 h)

/-! ### What the chain binds -/

/-- The environment of the body is determined. -/
theorem Reads.unique {i : ℕ} {xs : List String} {ρ₁ ρ₂ : Env}
    (h₁ : Reads argumentsName i xs ρ ρ₁) (h₂ : Reads argumentsName i xs ρ ρ₂) : ρ₁ = ρ₂ := by
  induction xs generalizing i ρ with
  | nil => exact h₁.trans h₂.symm
  | cons x xs ih =>
    obtain ⟨lst, v, hlst, hv, h₁⟩ := h₁
    obtain ⟨lst', v', hlst', hv', h₂⟩ := h₂
    rw [hlst] at hlst'
    cases hlst'
    rw [hv] at hv'
    cases hv'
    exact ih h₁ h₂

/-- While no parameter but the last one has the name of the argument, the tuple is read to its
end. -/
theorem reads_of_notMem {i : ℕ} {xs : List String} {args : List Value}
    (hxs : argumentsName ∉ xs.dropLast) (hlookup : lookup argumentsName ρ = some (.tuple args))
    (hlength : args.length = i + xs.length) :
    Reads argumentsName i xs ρ ((xs.zip (args.drop i)).reverse ++ ρ) := by
  induction xs generalizing i ρ with
  | nil => rfl
  | cons x xs ih =>
    rw [List.length_cons] at hlength
    have hi : i < args.length := by omega
    refine ⟨args, args[i], hlookup, List.getElem?_eq_getElem hi, ?_⟩
    rw [List.drop_eq_getElem_cons hi, List.zip_cons_cons, List.reverse_cons, List.append_assoc,
      List.singleton_append]
    cases xs with
    | nil => rfl
    | cons y xs =>
      rw [List.dropLast_cons_cons, List.mem_cons, not_or] at hxs
      refine ih hxs.2 ?_ (by rw [hlength]; omega)
      rw [lookup, if_neg hxs.1]
      exact hlookup

/-- A component that is no tuple is not read from. -/
theorem not_reads_of_mem {i : ℕ} {xs : List String} {args : List Value} {v : Value}
    (hv : ∀ lst, v ≠ .tuple lst) (hargs : ∀ w ∈ args, w = v)
    (hlookup : lookup argumentsName ρ = some (.tuple args)) (hxs : argumentsName ∈ xs.dropLast) :
    ¬ Reads argumentsName i xs ρ ρ' := by
  induction xs generalizing i ρ with
  | nil => cases hxs
  | cons x xs ih =>
    rintro ⟨lst, w, hlst, hw, h⟩
    rw [hlookup] at hlst
    cases hlst
    have hwv : w = v := hargs w (List.mem_of_getElem? hw)
    cases xs with
    | nil => cases hxs
    | cons y xs =>
      rw [List.dropLast_cons_cons, List.mem_cons] at hxs
      by_cases hx : argumentsName = x
      · -- the next component is read from this one
        obtain ⟨lst', _, hlst', -⟩ := h
        rw [lookup, if_pos hx] at hlst'
        exact hv lst' (hwv ▸ Option.some.inj hlst')
      · refine ih ?_ (hxs.resolve_left hx) h
        rw [lookup, if_neg hx]
        exact hlookup

/-- After the chain, every name but the one of the argument is as it should be. -/
theorem lookup_after {xs : List String} {args : List Value} (hxs : xs.Nodup)
    (hlength : args.length = xs.length) {x : String} (hx : x ≠ argumentsName ∨ x ∈ xs) (w : Value)
    (ρ : Env) :
    lookup x ((xs.zip args).reverse ++ (argumentsName, w) :: ρ) = lookup x (xs.zip args ++ ρ) := by
  have hnames : names (xs.zip args) = xs := List.map_fst_zip hlength.ge
  rw [Scope.lookup_reverse_append (hnames.symm ▸ hxs)]
  rcases hx with hx | hx
  · exact Scope.lookup_append_cons_ne hx ..
  · -- a parameter is found among the parameters
    have hsome : (lookup x (xs.zip args)).isSome := by
      rw [Option.isSome_iff_ne_none, ne_eq, Scope.lookup_eq_none, hnames, not_not]
      exact hx
    rw [Scope.lookup_append_of_mem hsome, Scope.lookup_append_of_mem hsome]

/-- The function returns what its body returns there. -/
theorem applyClosure_of_enters {result : Expression} {v : Value}
    (h : Enters I result ((argumentsName, v) :: ρ) body ρ') :
    applyClosure I (.closure ρ argumentsName result) v = (eval I body ρ').map Prod.fst := by
  obtain ⟨n, heval⟩ := h.eval
  rw [applyClosure, heval]
  cases eval I body ρ' <;> rfl

end Chain

/-- An interpretation without constants and calls. -/
def noInterpretation : Interpretation := ⟨fun _ _ => .error .stuck, fun _ _ => .error .stuck, 0⟩

/-- The chain of components binds the parameters exactly when their names are apart from the
name of the tuple and from the predefined names. -/
theorem bindsParameters_iff {params : List (String × TypeExpression)} {argumentsName : String}
    {body : Expression} {uses : List Use} (hparams : (params.map Prod.fst).Nodup) :
    BindsParameters (params.map Prod.fst) argumentsName (tplChain argumentsName 0 params body) body
      uses ↔ Apart (params.map Prod.fst) argumentsName uses := by
  generalize hxs : params.map Prod.fst = xs at hparams
  constructor
  · intro h
    -- arguments that are no tuples
    have hlength : (List.replicate xs.length unit).length = xs.length := List.length_replicate
    obtain ⟨ρ', henters, -, hmeans⟩ := h noInterpretation (List.replicate xs.length unit) [] hlength
    rw [enters_tplChain_iff, hxs] at henters
    have hlookup : lookup argumentsName [(argumentsName, Value.tuple (List.replicate xs.length unit))]
        = some (.tuple (List.replicate xs.length unit)) := if_pos rfl
    have hlast : argumentsName ∉ xs.dropLast := by
      intro hmem
      exact not_reads_of_mem (v := unit) (by simp) (fun w hw => List.eq_of_mem_replicate hw)
        hlookup hmem henters
    refine ⟨hlast, ?_, fun x hx huse => hmeans _ huse hx⟩
    by_contra hor
    rw [not_or, not_not] at hor
    -- it is bound in the body, and not outside
    have hρ' := henters.unique (reads_of_notMem hlast hlookup (by simp))
    have hnames : names (xs.zip (List.replicate xs.length unit)) = xs :=
      List.map_fst_zip hlength.ge
    have hnone := hmeans _ hor.2
    rw [Use.Means, hρ', List.drop_zero,
      Scope.lookup_append_of_notMem (by
        rw [names, List.map_reverse, List.mem_reverse, ← names, hnames]
        exact hor.1), hlookup, Scope.lookup_append_of_notMem (by rw [hnames]; exact hor.1)] at hnone
    cases hnone
  · rintro ⟨hlast, harguments, hpredefined⟩ I args ρ hlength
    have hlookup : lookup argumentsName ((argumentsName, Value.tuple args) :: ρ) =
        some (.tuple args) := if_pos rfl
    have hreads := reads_of_notMem (i := 0) hlast hlookup (by rw [hlength]; omega)
    rw [List.drop_zero] at hreads
    have henters : Enters I (tplChain argumentsName 0 params body)
        ((argumentsName, .tuple args) :: ρ) body
        ((xs.zip args).reverse ++ (argumentsName, .tuple args) :: ρ) := by
      rw [enters_tplChain_iff, hxs]
      exact hreads
    refine ⟨_, henters, applyClosure_of_enters henters, fun u hu => ?_⟩
    cases u with
    | predefined x => exact fun hx => hpredefined x hx hu
    | variable' x =>
      refine lookup_after hparams hlength ?_ _ ρ
      by_cases hx : x = argumentsName
      · subst hx
        exact .inr (harguments.resolve_right (not_not.2 hu))
      · exact .inl hx

end Ligo.Simplify
