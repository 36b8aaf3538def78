import Ligo.AstSimplified.Types
import Ligo.Library.Fuel
import Ligo.Library.Scope

/-!
# Semantics of the simplified language

A big-step evaluator over environments of values. A variable denotes its newest binding, an
assignment updates the newest binding at a path, the arguments of a constant and the elements
of a tuple are evaluated from the last to the first, a function is evaluated before its
argument and captures the environment, and what a `let` or a clause binds is dropped at its
end.

What the constants compute, what a call does and how many rounds a loop may take are the
parameters (`Interpretation`); `Interpretation.ofDepth` ties the knot for functions of the
language themselves.

Evaluation keeps the names of the environment (`eval_names`). `Enters` says in which
environment a `let` or a chain of them comes to its body, and `Enters.eval` what this means
for the value.
-/

namespace Ligo.AstSimplified

open AstTyped (Literal)
open Fuel (bind_eq_ok map_eq_ok)
open Scope (names)

inductive Value where
  | literal (l : Literal)
  | tuple (lst : List Value)
  | record (m : List (String × Value))
  | constructor' (name : String) (v : Value)
  | list (lst : List Value)
  | map (lst : List (Value × Value))
  | none'
  | some' (v : Value)
  | closure (ρ : List (String × Value)) (binder : String) (result : Expression)

/-- Environments of values. -/
abbrev Env := List (String × Value)

/-- Why there is no value: a failure of the program, no rule for the expression, or the
bound on loops and calls. -/
inductive Halt where
  | failed (v : Value)
  | stuck
  | exhausted

abbrev Answer (α : Type) := Except Halt α

def stuck {α : Type} : Answer α := .error .stuck

/-- The value of the unit. -/
abbrev unit : Value := .literal .unit

structure Interpretation where
  constant : String → List Value → Answer Value
  call : Value → Value → Answer Value
  rounds : ℕ

/-! ### Paths -/

/-- Replace the component at a path. -/
def update : Value → List Access → Value → Answer Value
  | _, [], w => .ok w
  | .tuple lst, .tuple index :: path, w =>
    match nth lst index with
    | some v => do
      let v' ← update v path w
      return .tuple (lst.set index.toNat v')
    | none => stuck
  | .record m, .record property :: path, w =>
    match SortedMap.lookup property m with
    | some v => do
      let v' ← update v path w
      return .record (SortedMap.insert property v' m)
    | none => stuck
  | _, _, _ => stuck

/-- Update a variable at a path. -/
def assignPath (name : String) (path : List Access) (w : Value) (ρ : Env) : Answer Env :=
  match Scope.lookup name ρ with
  | some v => do
    let v' ← update v path w
    return Scope.assign name v' ρ
  | none => stuck

/-! ### Expressions -/

def readVariable (x : String) (ρ : Env) : Answer (Value × Env) :=
  match Scope.lookup x ρ with
  | some v => .ok (v, ρ)
  | none => stuck

/-- The value of the condition of a loop. -/
def asBool (r : Value × Env) : Answer (Bool × Env) :=
  match r.1 with
  | .literal (.bool b) => .ok (b, r.2)
  | _ => stuck

/-- The result of a body, and the environment without the `n` bindings of the body. -/
def dropping (n : ℕ) (r : Value × Env) : Value × Env := (r.1, r.2.drop n)

section Eval

variable (I : Interpretation)

mutual

@[simp] def eval : Expression → Env → Answer (Value × Env)
  | .eLiteral l, ρ => .ok (.literal l, ρ)
  | .eConstant name lst, ρ => do
    let (vs, ρ) ← evalList lst ρ
    let v ← I.constant name vs
    return (v, ρ)
  | .eVariable x, ρ => readVariable x ρ
  | .eLambda binder _ _ _ result, ρ => .ok (.closure ρ binder result, ρ)
  | .eApplication f arg, ρ => do
    let (v, ρ) ← eval f ρ
    let (w, ρ) ← eval arg ρ
    let u ← I.call v w
    return (u, ρ)
  | .eLetIn binder _ rhs result, ρ => do
    let (v, ρ) ← eval rhs ρ
    let r ← eval result ((binder, v) :: ρ)
    return dropping 1 r
  | .eTuple lst, ρ => do
    let (vs, ρ) ← evalList lst ρ
    return (.tuple vs, ρ)
  | .eConstructor name expr, ρ => do
    let (v, ρ) ← eval expr ρ
    return (.constructor' name v, ρ)
  | .eRecord m, ρ => do
    let (vs, ρ) ← evalFields m ρ
    return (.record vs, ρ)
  | .eAccessor expr path, ρ => do
    let (v, ρ) ← eval expr ρ
    evalPath path v ρ
  | .eMap lst, ρ => do
    let (vs, ρ) ← evalEntries lst ρ
    return (.map vs, ρ)
  | .eList lst, ρ => do
    let (vs, ρ) ← evalList lst ρ
    return (.list vs, ρ)
  | .eLookUp ds ind, ρ => do
    let (v, ρ) ← eval ds ρ
    let (w, ρ) ← eval ind ρ
    let u ← I.constant "MAP_GET" [w, v]
    return (u, ρ)
  | .eMatching expr m, ρ => do
    let (v, ρ) ← eval expr ρ
    evalMatching m v ρ
  | .eFailwith expr, ρ => do
    let (v, _) ← eval expr ρ
    .error (.failed v)
  | .eSequence a b, ρ => do
    let (_, ρ) ← eval a ρ
    eval b ρ
  | .eLoop expr body, ρ => do
    let ρ ← Fuel.iterate (fun ρ => eval expr ρ >>= asBool)
      (fun ρ => (eval body ρ).map Prod.snd) .exhausted I.rounds ρ
    return (unit, ρ)
  | .eAssign name path expr, ρ => do
    let (w, ρ) ← eval expr ρ
    let ρ ← assignPath name path w ρ
    return (unit, ρ)
  | .eSkip, ρ => .ok (unit, ρ)
  | .eAnnotated expr _, ρ => eval expr ρ

/-- The values of a list, evaluated from the last to the first. -/
def evalList : List Expression → Env → Answer (List Value × Env)
  | [], ρ => .ok ([], ρ)
  | e :: lst, ρ => do
    let (vs, ρ) ← evalList lst ρ
    let (v, ρ) ← eval e ρ
    return (v :: vs, ρ)

def evalField : String × Expression → Env → Answer ((String × Value) × Env)
  | (k, e), ρ => do
    let (v, ρ) ← eval e ρ
    return ((k, v), ρ)

def evalFields : List (String × Expression) → Env → Answer (List (String × Value) × Env)
  | [], ρ => .ok ([], ρ)
  | x :: m, ρ => do
    let (vs, ρ) ← evalFields m ρ
    let (v, ρ) ← evalField x ρ
    return (v :: vs, ρ)

def evalEntry : Expression × Expression → Env → Answer ((Value × Value) × Env)
  | (k, e), ρ => do
    let (v, ρ) ← eval k ρ
    let (w, ρ) ← eval e ρ
    return ((v, w), ρ)

def evalEntries : List (Expression × Expression) → Env → Answer (List (Value × Value) × Env)
  | [], ρ => .ok ([], ρ)
  | x :: m, ρ => do
    let (vs, ρ) ← evalEntries m ρ
    let (v, ρ) ← evalEntry x ρ
    return (v :: vs, ρ)

def evalPath : List Access → Value → Env → Answer (Value × Env)
  | [], v, ρ => .ok (v, ρ)
  | a :: path, v, ρ => do
    let (v, ρ) ← evalAccess a v ρ
    evalPath path v ρ

def evalAccess : Access → Value → Env → Answer (Value × Env)
  | .tuple index, .tuple lst, ρ =>
    match nth lst index with
    | some v => .ok (v, ρ)
    | none => stuck
  | .record property, .record m, ρ =>
    match SortedMap.lookup property m with
    | some v => .ok (v, ρ)
    | none => stuck
  | .map key, v, ρ => do
    let (w, ρ) ← eval key ρ
    let u ← I.constant "MAP_GET" [w, v]
    return (u, ρ)
  | _, _, _ => stuck

def evalMatching : MatchingExpr → Value → Env → Answer (Value × Env)
  | .matchBool matchTrue matchFalse, .literal (.bool b), ρ =>
    if b then eval matchTrue ρ else eval matchFalse ρ
  | .matchList matchNil _ _ _, .list [], ρ => eval matchNil ρ
  | .matchList _ hd tl matchCons, .list (v :: vs), ρ => do
    let r ← eval matchCons ((tl, .list vs) :: (hd, v) :: ρ)
    return dropping 2 r
  | .matchOption matchNone _ _, .none', ρ => eval matchNone ρ
  | .matchOption _ name matchSome, .some' v, ρ => do
    let r ← eval matchSome ((name, v) :: ρ)
    return dropping 1 r
  | .matchTuple lst body, .tuple vs, ρ =>
    if lst.length = vs.length then do
      let r ← eval body (lst.zip vs ++ ρ)
      return dropping lst.length r
    else stuck
  | .matchVariant lst, .constructor' name v, ρ => evalVariant lst name v ρ
  | _, _, _ => stuck

/-- The first clause of a constructor. -/
def evalVariant : List ((String × String) × Expression) → String → Value → Env →
    Answer (Value × Env)
  | [], _, _, _ => stuck
  | ((name', x), e) :: lst, name, v, ρ =>
    if name' = name then do
      let r ← eval e ((x, v) :: ρ)
      return dropping 1 r
    else evalVariant lst name v ρ

end

/-- A call of a closure. -/
def applyClosure : Value → Value → Answer Value
  | .closure ρ binder result, w => do
    let (v, _) ← eval I result ((binder, w) :: ρ)
    return v
  | _, _ => stuck

end Eval

/-- Calls of closures, `n` nested ones at most, with at most as many rounds of a loop as there
are levels left. -/
def Interpretation.ofDepth (constant : String → List Value → Answer Value) : ℕ → Interpretation
  | 0 => ⟨constant, fun _ _ => .error .exhausted, 0⟩
  | n + 1 => ⟨constant, applyClosure (ofDepth constant n), n⟩

/-! ### Names

The environment after an evaluation has the names of the environment before it, in the same
order; only values change. -/

section Names

variable {α β : Type} {ρ ρ' : Env}

/-- If there is an answer, its environment has the names of `ρ`. -/
def Keeps (ρ : Env) (r : Answer (α × Env)) : Prop := ∀ x, r = .ok x → names x.2 = names ρ

/-- An answer with an environment of the same names. -/
theorem keeps_ok {a : α} (h : names ρ' = names ρ) : Keeps ρ (.ok (a, ρ')) := by
  rintro _ ⟨⟩
  exact h

theorem keeps_error (h : Halt) : Keeps ρ (.error h : Answer (α × Env)) := nofun

/-- A step from an environment of the same names keeps them. -/
theorem Keeps.bind {r : Answer (α × Env)} {f : α × Env → Answer (β × Env)} (hr : Keeps ρ r)
    (hf : ∀ x, names x.2 = names ρ → Keeps ρ (f x)) : Keeps ρ (r >>= f) := by
  intro y hy
  obtain ⟨x, hx, hy⟩ := bind_eq_ok.1 hy
  exact hf x (hr x hx) y hy

/-- A step that does not see the environment. -/
theorem keeps_bind_value {r : Answer α} {f : α → Answer (β × Env)} (hf : ∀ a, Keeps ρ (f a)) :
    Keeps ρ (r >>= f) := by
  intro y hy
  obtain ⟨a, -, hy⟩ := bind_eq_ok.1 hy
  exact hf a y hy

theorem Keeps.of_names {r : Answer (α × Env)} (h : Keeps ρ' r) (hnames : names ρ' = names ρ) :
    Keeps ρ r :=
  fun x hx => (h x hx).trans hnames

/-- Leaving the scope of the bindings `T`. -/
theorem Keeps.scope {T : Env} {r : Answer (Value × Env)} (h : Keeps (T ++ ρ) r) :
    Keeps ρ (r >>= fun x => pure (dropping T.length x)) := by
  intro y hy
  obtain ⟨x, hx, rfl⟩ := map_eq_ok.1 hy
  have hnames := h x hx
  show names (x.2.drop T.length) = names ρ
  rw [names, List.map_drop, ← names, hnames, Scope.names_append]
  simp [Scope.names]

/-- Assigning binds no new name. -/
theorem names_assignPath {name : String} {path : List Access} {w : Value}
    (h : assignPath name path w ρ = .ok ρ') : names ρ' = names ρ := by
  unfold assignPath at h
  split at h
  · obtain ⟨v', -, h⟩ := bind_eq_ok.1 h
    cases h
    exact Scope.names_assign ..
  · cases h

theorem names_asBool {r : Value × Env} {p : Bool × Env} (h : asBool r = .ok p) : p.2 = r.2 := by
  unfold asBool at h
  split at h
  · cases h
    rfl
  · cases h

variable (I : Interpretation)

mutual

/-- Evaluation keeps the names of the environment; by recursion with the parts of expressions.
-/
theorem eval_names : ∀ e ρ, Keeps ρ (eval I e ρ)
  | .eLiteral _, _ => keeps_ok rfl
  | .eConstant _ lst, ρ =>
    (evalList_names lst ρ).bind fun _ h => keeps_bind_value fun _ => keeps_ok h
  | .eVariable x, ρ => by
    rw [eval, readVariable]
    split
    · exact keeps_ok rfl
    · exact keeps_error _
  | .eLambda _ _ _ _ _, _ => keeps_ok rfl
  | .eApplication f arg, ρ =>
    (eval_names f ρ).bind fun _ hf => ((eval_names arg _).of_names hf).bind
      fun _ h => keeps_bind_value fun _ => keeps_ok h
  | .eLetIn binder _ rhs result, ρ =>
    (eval_names rhs ρ).bind fun x h =>
      (Keeps.scope (T := [(binder, x.1)]) (eval_names result _)).of_names h
  | .eTuple lst, ρ => (evalList_names lst ρ).bind fun _ h => keeps_ok h
  | .eConstructor _ e, ρ => (eval_names e ρ).bind fun _ h => keeps_ok h
  | .eRecord m, ρ => (evalFields_names m ρ).bind fun _ h => keeps_ok h
  | .eAccessor e path, ρ =>
    (eval_names e ρ).bind fun _ h => (evalPath_names path _ _).of_names h
  | .eMap m, ρ => (evalEntries_names m ρ).bind fun _ h => keeps_ok h
  | .eList lst, ρ => (evalList_names lst ρ).bind fun _ h => keeps_ok h
  | .eLookUp ds i, ρ =>
    (eval_names ds ρ).bind fun _ hds => ((eval_names i _).of_names hds).bind
      fun _ h => keeps_bind_value fun _ => keeps_ok h
  | .eMatching e m, ρ =>
    (eval_names e ρ).bind fun _ h => (evalMatching_names m _ _).of_names h
  | .eFailwith e, ρ => (eval_names e ρ).bind fun _ _ => keeps_error _
  | .eSequence a b, ρ => (eval_names a ρ).bind fun _ h => (eval_names b _).of_names h
  | .eLoop e body, ρ => by
    rw [eval]
    intro x hx
    obtain ⟨ρ', hρ', rfl⟩ := map_eq_ok.1 hx
    -- the names are an invariant of the condition and of the body
    refine Fuel.iterate_inv (P := fun ρ₁ => names ρ₁ = names ρ) (Q := fun ρ₁ => names ρ₁ = names ρ)
      ?_ ?_ rfl hρ'
    · intro ρ₁ p hρ₁ hp
      obtain ⟨r, hr, hp⟩ := bind_eq_ok.1 hp
      rw [names_asBool hp, eval_names e ρ₁ r hr, hρ₁]
    · intro ρ₁ ρ₂ hρ₁ hρ₂
      cases hr : eval I body ρ₁ with
      | error _ =>
        rw [hr] at hρ₂
        cases hρ₂
      | ok r =>
        rw [hr] at hρ₂
        cases hρ₂
        rw [eval_names body ρ₁ r hr, hρ₁]
  | .eAssign name path e, ρ => by
    rw [eval]
    refine (eval_names e ρ).bind fun x h => ?_
    intro y hy
    obtain ⟨ρ', hρ', rfl⟩ := map_eq_ok.1 hy
    exact (names_assignPath hρ').trans h
  | .eSkip, _ => keeps_ok rfl
  | .eAnnotated e _, ρ => eval_names e ρ

theorem evalList_names : ∀ lst ρ, Keeps ρ (evalList I lst ρ)
  | [], _ => keeps_ok rfl
  | e :: lst, ρ =>
    (evalList_names lst ρ).bind fun _ hlst => ((eval_names e _).of_names hlst).bind
      fun _ h => keeps_ok h

theorem evalField_names : ∀ x ρ, Keeps ρ (evalField I x ρ)
  | (_, e), ρ => (eval_names e ρ).bind fun _ h => keeps_ok h

theorem evalFields_names : ∀ m ρ, Keeps ρ (evalFields I m ρ)
  | [], _ => keeps_ok rfl
  | x :: m, ρ =>
    (evalFields_names m ρ).bind fun _ hm => ((evalField_names x _).of_names hm).bind
      fun _ h => keeps_ok h

theorem evalEntry_names : ∀ x ρ, Keeps ρ (evalEntry I x ρ)
  | (k, e), ρ =>
    (eval_names k ρ).bind fun _ hk => ((eval_names e _).of_names hk).bind
      fun _ h => keeps_ok h

theorem evalEntries_names : ∀ m ρ, Keeps ρ (evalEntries I m ρ)
  | [], _ => keeps_ok rfl
  | x :: m, ρ =>
    (evalEntries_names m ρ).bind fun _ hm => ((evalEntry_names x _).of_names hm).bind
      fun _ h => keeps_ok h

theorem evalPath_names : ∀ path v ρ, Keeps ρ (evalPath I path v ρ)
  | [], _, _ => keeps_ok rfl
  | a :: path, v, ρ =>
    (evalAccess_names a v ρ).bind fun _ h => (evalPath_names path _ _).of_names h

theorem evalAccess_names : ∀ a v ρ, Keeps ρ (evalAccess I a v ρ)
  | .tuple index, v, ρ => by
    cases v with
    | tuple lst =>
      rw [evalAccess]
      -- the index is in range, or the evaluation fails
      split
      · exact keeps_ok rfl
      · exact keeps_error _
    | _ => exact keeps_error _
  | .record property, v, ρ => by
    cases v with
    | record m =>
      rw [evalAccess]
      split
      · exact keeps_ok rfl
      · exact keeps_error _
    | _ => exact keeps_error _
  | .map key, v, ρ => by
    rw [evalAccess]
    exact (eval_names key ρ).bind fun _ h => keeps_bind_value fun _ => keeps_ok h

theorem evalMatching_names : ∀ m v ρ, Keeps ρ (evalMatching I m v ρ)
  | .matchBool t f, v, ρ => by
    cases v with
    | literal l =>
      cases l with
      | bool b =>
        rw [evalMatching]
        split
        · exact eval_names t ρ
        · exact eval_names f ρ
      | _ => exact keeps_error _
    | _ => exact keeps_error _
  | .matchList n hd tl c, v, ρ => by
    cases v with
    | list vs =>
      cases vs with
      | nil => exact eval_names n ρ
      -- the case runs with the head and the tail bound
      | cons v vs => exact Keeps.scope (T := [(tl, .list vs), (hd, v)]) (eval_names c _)
    | _ => exact keeps_error _
  | .matchOption n name s, v, ρ => by
    cases v with
    | none' => exact eval_names n ρ
    | some' v => exact Keeps.scope (T := [(name, v)]) (eval_names s _)
    | _ => exact keeps_error _
  | .matchTuple lst body, v, ρ => by
    cases v with
    | tuple vs =>
      rw [evalMatching]
      split
      · rename_i hlen
        -- as many bindings as components
        have h := Keeps.scope (T := lst.zip vs) (eval_names body (lst.zip vs ++ ρ))
        rwa [List.length_zip, ← hlen, min_self] at h
      · exact keeps_error _
    | _ => exact keeps_error _
  | .matchVariant lst, v, ρ => by
    cases v with
    | constructor' name v => exact evalVariant_names lst name v ρ
    | _ => exact keeps_error _

theorem evalVariant_names : ∀ lst name v ρ, Keeps ρ (evalVariant I lst name v ρ)
  | [], _, _, _ => keeps_error _
  | ((name', x), e) :: lst, name, v, ρ => by
    rw [evalVariant]
    split
    · exact Keeps.scope (T := [(x, v)]) (eval_names e _)
    · exact evalVariant_names lst name v ρ

end

end Names

/-! ### The body of a chain of `let`s -/

section Enters

variable (I : Interpretation)

/-- Evaluating `e` in `ρ` comes, through the `let`s around it, to evaluating `e'` in `ρ'`. -/
inductive Enters : Expression → Env → Expression → Env → Prop
  | here {e ρ} : Enters e ρ e ρ
  | letIn {binder t rhs result ρ v ρ₁ e' ρ'} (hrhs : eval I rhs ρ = .ok (v, ρ₁))
    (h : Enters result ((binder, v) :: ρ₁) e' ρ') : Enters (.eLetIn binder t rhs result) ρ e' ρ'

variable {I}

/-- The value is the one of the body that is entered. -/
theorem Enters.eval {e e' : Expression} {ρ ρ' : Env} (h : Enters I e ρ e' ρ') :
    ∃ n, AstSimplified.eval I e ρ = (AstSimplified.eval I e' ρ').map (dropping n) := by
  induction h with
  | here =>
    refine ⟨0, ?_⟩
    cases AstSimplified.eval I _ _ <;> rfl
  | @letIn binder t rhs result ρ v ρ₁ e' ρ' hrhs _ ih =>
    obtain ⟨n, ih⟩ := ih
    refine ⟨n + 1, ?_⟩
    rw [AstSimplified.eval, hrhs]
    show (AstSimplified.eval I result ((binder, v) :: ρ₁) >>= fun r => pure (dropping 1 r)) = _
    rw [ih]
    cases AstSimplified.eval I e' ρ' with
    | error _ => rfl
    | ok r =>
      show Except.ok (dropping 1 (dropping n r)) = Except.ok (dropping (n + 1) r)
      simp [dropping]

/-- A body that is entered is not larger. -/
theorem Enters.sizeOf_le {e e' : Expression} {ρ ρ' : Env} (h : Enters I e ρ e' ρ') :
    sizeOf e' ≤ sizeOf e := by
  induction h with
  | here => exact Nat.le_refl _
  | letIn _ _ ih =>
    simp only [Expression.eLetIn.sizeOf_spec]
    omega

end Enters

end Ligo.AstSimplified
