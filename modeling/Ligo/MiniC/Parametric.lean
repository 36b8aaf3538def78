import Ligo.MiniC.Semantics
import Ligo.Compiler.EnvironmentRun

/-!
# Parametricity in the functions

The reference semantics never looks into a function: it only moves the tokens of type
`F` around, asks `quote` for the token of a literal and `apply` for what a call does.
Hence a translation `g` of the tokens that respects `quote` and `apply` commutes with
evaluation (`eval_mapFn`), whatever the expression is. Only the functions that occur in
the literals of the expression matter for `quote`; `Quotes Q` says that all of them
satisfy `Q`.
-/

namespace Ligo.MiniC

open Michelson (Context Outcome Ty stuck)
open Fuel (bind_eq_ok bind_bimap iterate_bimap)

/-! ### The functions of an expression -/

section Quotes

variable (Q : AnonFunction → Prop)

mutual

/-- Every function in a value satisfies `Q`. -/
def Value.Quotes : Value → Prop
  | .dPair a b => a.Quotes ∧ b.Quotes
  | .dLeft a | .dRight a | .dSome a => a.Quotes
  | .dMap lst => EntriesQuotes lst
  | .dList lst => ValuesQuotes lst
  | .dFunction f => Q f
  | _ => True

def ValuesQuotes : List Value → Prop
  | [] => True
  | v :: lst => v.Quotes ∧ ValuesQuotes lst

def EntriesQuotes : List (Value × Value) → Prop
  | [] => True
  | (a, b) :: lst => a.Quotes ∧ b.Quotes ∧ EntriesQuotes lst

end

mutual

/-- Every function in the literals of an expression satisfies `Q`; the bodies of these
functions do not count. -/
def Expression.Quotes : Expression → Prop
  | .mk expr' _ => expr'.Quotes

def Expression'.Quotes : Expression' → Prop
  | .eLiteral v => v.Quotes Q
  | .eEnvironmentCapture _ | .eEnvironmentSelect _ | .eSkip | .eVariable _
  | .eMakeEmptyMap _ _ | .eMakeEmptyList _ | .eMakeNone _ => True
  | .eEnvironmentLoad e _ | .eEnvironmentReturn e | .eAssignment _ _ e => e.Quotes
  | .eConstant _ lst => ArgumentsQuotes lst
  | .eApplication a b | .eLetIn _ a b | .eSequence a b | .eWhile a b => a.Quotes ∧ b.Quotes
  | .eIfBool a b c | .eIfNone a b _ c | .eIfLeft a _ b _ c =>
    a.Quotes ∧ b.Quotes ∧ c.Quotes

def ArgumentsQuotes : List Expression → Prop
  | [] => True
  | e :: lst => e.Quotes ∧ ArgumentsQuotes lst

end

variable {Q} {Q' : AnonFunction → Prop} (hQ : ∀ f, Q f → Q' f)

include hQ in
/-- A weaker condition on the quotes of a value. -/
theorem Value.Quotes.mono {v : Value} (h : v.Quotes Q) : v.Quotes Q' := by
  induction v using Value.ind with
  | unit | bool | nat | tez | int | string | bytes | none | operation => trivial
  | pair a b iha ihb => exact ⟨iha h.1, ihb h.2⟩
  | left a ih | right a ih | some a ih => exact ih h
  | map lst ih =>
    -- along the entries, each by the hypotheses for its key and its value
    change EntriesQuotes Q lst at h
    change EntriesQuotes Q' lst
    induction lst with
    | nil => trivial
    | cons x lst ihlst =>
      obtain ⟨a, b⟩ := x
      obtain ⟨iha, ihb⟩ := ih (a, b) (by simp)
      exact ⟨iha h.1, ihb h.2.1,
        ihlst (fun x hx => ih x (List.mem_cons_of_mem _ hx)) h.2.2⟩
  | list lst ih =>
    change ValuesQuotes Q lst at h
    change ValuesQuotes Q' lst
    induction lst with
    | nil => trivial
    | cons v lst ihlst =>
      exact ⟨ih v (by simp) h.1,
        ihlst (fun v hv => ih v (List.mem_cons_of_mem _ hv)) h.2⟩
  | function f => exact hQ f h

/-- The quotes of a list of expressions are those of its elements. -/
theorem argumentsQuotes_iff {lst : List Expression} :
    ArgumentsQuotes Q lst ↔ ∀ e ∈ lst, e.Quotes Q := by
  induction lst with
  | nil => simp [ArgumentsQuotes]
  | cons e lst ih => simp [ArgumentsQuotes, ih]

include hQ in
/-- A weaker condition on the quotes of an expression. -/
theorem Expression.Quotes.mono {e : Expression} (h : e.Quotes Q) : e.Quotes Q' := by
  induction e using Expression.ind with
  | capture | select | skip | variable' | makeEmptyMap | makeEmptyList | makeNone => trivial
  | literal v t => exact Value.Quotes.mono hQ h
  | load e _ _ ih | ret e _ ih | assignment _ _ e _ ih => exact ih h
  | constant name lst t ih =>
    exact argumentsQuotes_iff.2 fun e he => ih e he (argumentsQuotes_iff.1 h e he)
  | application a b _ iha ihb | letIn _ a b _ iha ihb | sequence a b _ iha ihb
  | while' a b _ iha ihb => exact ⟨iha h.1, ihb h.2⟩
  | ifBool a b c _ iha ihb ihc | ifNone a b _ c _ iha ihb ihc
  | ifLeft a _ b _ c _ iha ihb ihc => exact ⟨iha h.1, ihb h.2.1, ihc h.2.2⟩

end Quotes

variable {ctx : Context} {F G : Type} {g : F → G}
  {quoteF : AnonFunction → Option F} {quoteG : AnonFunction → Option G}

/-! ### Literals -/

/-- Literals without functions do not see how functions are represented. -/
theorem denoteInt_mapFn (z : Int) (c : Michelson.ComparableTy) :
    denoteInt z c = (denoteInt (F := F) z c).map (Michelson.Value.mapFn g) := by
  cases c <;> try rfl
  · simp only [denoteInt]
    split <;> rfl
  · simp only [denoteInt]
    split <;> rfl

theorem denoteContract_mapFn (t : Ty) (a : Michelson.Address) :
    denoteContract ctx t a =
      (denoteContract (F := F) ctx t a).map (Michelson.Value.mapFn g) := by
  simp only [denoteContract]
  split <;> rfl

/-- The functions of a literal are those that `quote` answers. -/
def Agrees (g : F → G) (quoteF : AnonFunction → Option F)
    (quoteG : AnonFunction → Option G) (f : AnonFunction) : Prop :=
  quoteG f = (quoteF f).map g

/-- The elements of a list literal, by the hypothesis of the induction over values. -/
theorem denoteList_mapFn {lst : List Value} {t : Ty}
    (h : ValuesQuotes (Agrees g quoteF quoteG) lst)
    (ih : ∀ v ∈ lst, ∀ {τ : Ty}, v.Quotes (Agrees g quoteF quoteG) →
      denote ctx quoteG τ v = (denote ctx quoteF τ v).map (Michelson.Value.mapFn g)) :
    denoteList ctx quoteG t lst =
      (denoteList ctx quoteF t lst).map (List.map (Michelson.Value.mapFn g)) := by
  induction lst with
  | nil => rfl
  | cons v lst ihlst =>
    have hv := ih v (by simp) (τ := t) h.1
    have hlst := ihlst h.2 fun v hv => ih v (List.mem_cons_of_mem _ hv)
    simp only [denoteList, hv, hlst]
    cases denote ctx quoteF t v with
    | none => rfl
    | some w => cases denoteList ctx quoteF t lst <;> rfl

theorem denoteEntries_mapFn {lst : List (Value × Value)} {k : Michelson.ComparableTy} {t : Ty}
    (h : EntriesQuotes (Agrees g quoteF quoteG) lst)
    (ih : ∀ x ∈ lst, (∀ {τ : Ty}, x.1.Quotes (Agrees g quoteF quoteG) →
        denote ctx quoteG τ x.1 = (denote ctx quoteF τ x.1).map (Michelson.Value.mapFn g)) ∧
      ∀ {τ : Ty}, x.2.Quotes (Agrees g quoteF quoteG) →
        denote ctx quoteG τ x.2 = (denote ctx quoteF τ x.2).map (Michelson.Value.mapFn g)) :
    denoteEntries ctx quoteG k t lst =
      (denoteEntries ctx quoteF k t lst).map
        (SortedMap.mapVal (Michelson.Value.mapFn g)) := by
  induction lst with
  | nil => rfl
  | cons x lst ihlst =>
    obtain ⟨a, b⟩ := x
    obtain ⟨ha, hb, hlst⟩ := h
    obtain ⟨iha, ihb⟩ := ih (a, b) (by simp)
    have ha := iha (τ := .comparable k) ha
    have hb := ihb (τ := t) hb
    have hlst := ihlst hlst fun x hx => ih x (List.mem_cons_of_mem _ hx)
    simp only at ha hb
    simp only [denoteEntries, ha, hb, hlst]
    cases denote ctx quoteF (.comparable k) a with
    | none => rfl
    | some v =>
      cases v with
      | atom c =>
        cases denote ctx quoteF t b with
        | none => rfl
        | some w => cases denoteEntries ctx quoteF k t lst <;> rfl
      -- a key that is no atom denotes nothing on either side
      | _ => rfl

/-- Literals are translated in their functions alone. -/
theorem denote_mapFn {v : Value} {τ : Ty} (h : v.Quotes (Agrees g quoteF quoteG)) :
    denote ctx quoteG τ v = (denote ctx quoteF τ v).map (Michelson.Value.mapFn g) := by
  -- by cases on the form of the value and then on the type it is read at: at the types of
  -- other forms both sides are `none`
  induction v using Value.ind generalizing τ with
  | unit | none | operation =>
    cases τ with
    | comparable c => cases c <;> rfl
    | _ => rfl
  | bool b =>
    cases τ with
    | comparable c => cases c <;> rfl
    | _ => rfl
  | nat z | tez z | int z =>
    cases τ with
    | comparable c =>
      have hz := denoteInt_mapFn (g := g) z.val c
      cases c <;> first | rfl | exact hz
    | _ => rfl
  | string s =>
    cases τ with
    | comparable c =>
      cases c with
      | string =>
        simp only [denote]
        split <;> rfl
      | address =>
        simp only [denote]
        cases ctx.ofB58check s <;> rfl
      | _ => rfl
    | contract t =>
      simp only [denote]
      cases ctx.ofB58check s with
      | none => rfl
      | some a => exact denoteContract_mapFn t a
    | _ => rfl
  | bytes b =>
    cases τ with
    | comparable c =>
      cases c with
      | address =>
        simp only [denote]
        cases ctx.ofBytes b <;> rfl
      | _ => rfl
    | contract t =>
      simp only [denote]
      cases ctx.ofBytes b with
      | none => rfl
      | some a => exact denoteContract_mapFn t a
    | _ => rfl
  | pair a b iha ihb =>
    cases τ with
    | comparable c => cases c <;> rfl
    | pair s t =>
      simp only [denote, iha h.1, ihb h.2]
      cases denote ctx quoteF s a with
      | none => rfl
      | some v => cases denote ctx quoteF t b <;> rfl
    | _ => rfl
  | left a ih =>
    cases τ with
    | comparable c => cases c <;> rfl
    | or s t =>
      simp only [denote, ih h]
      cases denote ctx quoteF s a <;> rfl
    | _ => rfl
  | right b ih =>
    cases τ with
    | comparable c => cases c <;> rfl
    | or s t =>
      simp only [denote, ih h]
      cases denote ctx quoteF t b <;> rfl
    | _ => rfl
  | some a ih =>
    cases τ with
    | comparable c => cases c <;> rfl
    | option t =>
      simp only [denote, ih h]
      cases denote ctx quoteF t a <;> rfl
    | _ => rfl
  | map lst ih =>
    cases τ with
    | comparable c => cases c <;> rfl
    | map k t =>
      simp only [denote, denoteEntries_mapFn h ih]
      cases denoteEntries ctx quoteF k t lst with
      | none => rfl
      | some entries =>
        -- the keys hold no functions, so that their order is the same
        change (if SortedMap.Sorted (SortedMap.mapVal _ entries) then _ else _) =
          (if SortedMap.Sorted entries then _ else _ : Option (Michelson.Value F)).map _
        simp only [SortedMap.sorted_mapVal]
        split
        · simp [Michelson.Value.mapFn]
        · rfl
    | list t => cases lst <;> rfl
    | _ => rfl
  | list lst ih =>
    cases τ with
    | comparable c => cases c <;> rfl
    | list t =>
      simp only [denote, denoteList_mapFn h ih]
      cases denoteList ctx quoteF t lst with
      | none => rfl
      | some vs =>
        change some (Michelson.Value.list _) = some (Michelson.Value.list _)
        rw [Michelson.mapFnList_eq]
    | map k t => cases lst <;> rfl
    | _ => rfl
  | function f =>
    cases τ with
    | comparable c => cases c <;> rfl
    | lambda s t =>
      -- the only place where the two readings differ
      change (quoteG f).map _ = ((quoteF f).map _).map _
      rw [h, Option.map_map, Option.map_map]
      rfl
    | _ => rfl

/-! ### Constants -/

theorem assertSome_mapFn (msg : String) (v : Michelson.Value F) :
    assertSome msg (v.mapFn g) = (assertSome msg v).mapFn g (Michelson.Value.mapFn g) := by
  cases v <;> rfl

theorem toContract_mapFn (t : Ty) (v : Michelson.Value F) :
    (v.mapFn g).toContract ctx t = (v.toContract ctx t).mapFn g (Michelson.Value.mapFn g) := by
  rcases v with _ | a
  case atom =>
    cases a with
    | address a =>
      simp only [Michelson.Value.mapFn, Michelson.Value.toContract]
      split <;> rfl
    | _ => rfl
  all_goals rfl

theorem compareWith_mapFn (p : Int → Bool) (a b : Michelson.Value F) :
    compareWith p (a.mapFn g) (b.mapFn g) =
      (compareWith p a b).mapFn g (Michelson.Value.mapFn g) :=
  bind_bimap (Michelson.Value.mapFn_atom2 g _ a b).symm
    fun c _ => (Michelson.Value.mapFn_atom1 g _ c).symm

/-- An `EDIV` whose option is unwrapped and taken apart. -/
theorem ediv_mapFn (msg : String)
    {k : ∀ {F : Type}, Michelson.Value F → Outcome F (Michelson.Value F)}
    (hk : ∀ v : Michelson.Value F, k (v.mapFn g) = (k v).mapFn g (Michelson.Value.mapFn g))
    (a b : Michelson.Value F) :
    ((a.mapFn g).ediv (b.mapFn g) >>= assertSome msg >>= k) =
      (a.ediv b >>= assertSome msg >>= k).mapFn g (Michelson.Value.mapFn g) :=
  bind_bimap (bind_bimap (Michelson.Value.mapFn_ediv g a b).symm
    fun v _ => assertSome_mapFn msg v) fun v _ => hk v

theorem constant0_mapFn (name : String) :
    constant0 ctx name =
      (constant0 (F := F) ctx name).mapFn g (Michelson.Value.mapFn g) := by
  unfold constant0
  split <;> rfl

/-- The meaning of a constant does not look into functions, so it commutes with a change of
their representation. -/
theorem constant1_mapFn (ty : TypeValue) (name : String) (a : Michelson.Value F) :
    constant1 ctx ty name (a.mapFn g) =
      (constant1 ctx ty name a).mapFn g (Michelson.Value.mapFn g) := by
  unfold constant1
  split
  all_goals try rfl
  · exact (Michelson.Value.mapFn_atom1 g _ a).symm
  · exact (Michelson.Value.mapFn_car g a).symm
  · exact (Michelson.Value.mapFn_cdr g a).symm
  · exact (Michelson.Value.mapFn_size g a).symm
  · exact (Michelson.Value.mapFn_atom1 g _ a).symm
  · exact (Michelson.Value.mapFn_atom1 g _ a).symm
  · split
    · exact bind_bimap (toContract_mapFn _ a) fun v _ => assertSome_mapFn _ v
    · rfl

theorem constant2_mapFn (name : String) (a b : Michelson.Value F) :
    constant2 name (a.mapFn g) (b.mapFn g) =
      (constant2 name a b).mapFn g (Michelson.Value.mapFn g) := by
  unfold constant2
  split
  all_goals try rfl
  all_goals try exact (Michelson.Value.mapFn_atom2 g _ a b).symm
  all_goals try exact compareWith_mapFn _ a b
  -- DIV and MOD fail on the same arguments
  · exact ediv_mapFn "DIV by 0" (fun v => (Michelson.Value.mapFn_car g v).symm) a b
  · exact ediv_mapFn "MOD by 0" (fun v => (Michelson.Value.mapFn_cdr g v).symm) a b
  · exact bind_bimap (Michelson.Value.mapFn_get g a b).symm fun v _ => assertSome_mapFn _ v
  · exact (Michelson.Value.mapFn_get g a b).symm
  · exact (Michelson.Value.mapFn_update g a .none b).symm
  · exact (Michelson.Value.mapFn_cons g a b).symm
  · rcases a with _ | a
    case atom =>
      cases a with
      | bool c => cases c <;> rfl
      | _ => rfl
    all_goals rfl

theorem constant3_mapFn (name : String) (a b c : Michelson.Value F) :
    constant3 name (a.mapFn g) (b.mapFn g) (c.mapFn g) =
      (constant3 name a b c).mapFn g (Michelson.Value.mapFn g) := by
  unfold constant3
  split
  · exact (Michelson.Value.mapFn_update g a b c).symm
  · exact (Michelson.Value.mapFn_update g a (.some b) c).symm
  · exact (Michelson.Value.mapFn_transfer g a b c).symm
  · rfl

theorem constant_mapFn (ty : TypeValue) (name : String) (vs : List (Michelson.Value F)) :
    constant ctx ty name (vs.map (Michelson.Value.mapFn g)) =
      (constant ctx ty name vs).mapFn g (Michelson.Value.mapFn g) := by
  match vs with
  | [] => exact constant0_mapFn name
  | [a] => exact constant1_mapFn ty name a
  | [a, b] => exact constant2_mapFn name a b
  | [a, b, c] => exact constant3_mapFn name a b c
  | _ :: _ :: _ :: _ :: _ => rfl

/-! ### Paths and closures -/

/-- Replacing a component does not look into functions either. -/
theorem updatePath_mapFn (v : Michelson.Value F) (lrs : List Step) (old : Michelson.Value F) :
    updatePath (v.mapFn g) lrs (old.mapFn g) =
      (updatePath v lrs old).mapFn g (Michelson.Value.mapFn g) := by
  induction lrs generalizing old with
  | nil => rfl
  | cons lr lrs ih =>
    cases old with
    | pair a b =>
      cases lr with
      | left => exact bind_bimap (ih a) fun _ _ => rfl
      | right => exact bind_bimap (ih b) fun _ _ => rfl
    | _ => cases lr <;> rfl

/-- Neither does packing values up. -/
theorem packValues_mapFn (vs : List (Michelson.Value F)) :
    packValues (vs.map (Michelson.Value.mapFn g)) =
      (packValues vs).mapFn g (Michelson.Value.mapFn g) := by
  induction vs with
  | nil => rfl
  | cons a vs ih =>
    cases vs with
    | nil => rfl
    | cons b vs => exact bind_bimap ih fun _ _ => rfl

/-- Translate the functions in an environment. -/
abbrev Env.mapFn (g : F → G) : Env F → Env G := Scope.mapVal (Michelson.Value.mapFn g)

theorem unpackValues_mapFn (env : Environment) (v : Michelson.Value F) :
    unpackValues env (v.mapFn g) = (unpackValues env v).mapFn g (Env.mapFn g) := by
  induction env generalizing v with
  | nil => rfl
  | cons x env ih =>
    cases env with
    | nil => rfl
    | cons y env =>
      cases v with
      | pair a b => exact bind_bimap (ih b) fun _ _ => rfl
      | _ => rfl

theorem select_mapFn (lst : List String) (ρ : Env F) :
    Environment.select lst (Env.mapFn g ρ) = Env.mapFn g (Environment.select lst ρ) := by
  rw [Environment.select_eq, Environment.select_eq, Env.mapFn, Scope.restrict_mapVal]

/-! ### Expressions -/

section Eval

variable {applyF : F → Michelson.Value F → Outcome F (Michelson.Value F)}
  {applyG : G → Michelson.Value G → Outcome G (Michelson.Value G)} {rounds : ℕ}
  (happly : ∀ f v, applyG (g f) (v.mapFn g) = (applyF f v).mapFn g (Michelson.Value.mapFn g))

/-- Translate the functions in what an evaluation answers. -/
def mapResult (g : F → G) (r : Michelson.Value F × Env F) : Michelson.Value G × Env G :=
  (r.1.mapFn g, r.2.mapFn g)

include happly in
/-- Applying functions commutes with the change where the application itself does. -/
theorem applyValue_mapFn (v w : Michelson.Value F) :
    applyValue applyG (v.mapFn g) (w.mapFn g) =
      (applyValue applyF v w).mapFn g (Michelson.Value.mapFn g) := by
  cases v with
  | lambda f => exact happly f w
  | _ => rfl

include happly in
theorem applyClosure_mapFn (v w : Michelson.Value F) :
    applyClosure applyG (v.mapFn g) (w.mapFn g) =
      (applyClosure applyF v w).mapFn g (Michelson.Value.mapFn g) := by
  cases v with
  | pair f captured => exact applyValue_mapFn happly f (.pair w captured)
  | _ => rfl

/-- The arguments of a constant, by the hypothesis of the induction over expressions. -/
theorem evalArguments_mapFn {lst : List Expression}
    (ih : ∀ e ∈ lst, ∀ ρ : Env F, eval ctx quoteG applyG rounds e (ρ.mapFn g) =
      (eval ctx quoteF applyF rounds e ρ).mapFn g (mapResult g)) (ρ : Env F) :
    evalArguments ctx quoteG applyG rounds lst (ρ.mapFn g) =
      (evalArguments ctx quoteF applyF rounds lst ρ).mapFn g
        fun r => (r.1.map (Michelson.Value.mapFn g), Env.mapFn g r.2) := by
  induction lst with
  | nil => rfl
  | cons e lst ihlst =>
    refine bind_bimap (ihlst fun e he => ih e (List.mem_cons_of_mem _ he)) fun ⟨vs, ρ₁⟩ _ => ?_
    exact bind_bimap (ih e (by simp) ρ₁) fun _ _ => rfl

include happly in
/-- Evaluation commutes with a translation of the functions. -/
theorem eval_mapFn {e : Expression} (he : e.Quotes (Agrees g quoteF quoteG)) (ρ : Env F) :
    eval ctx quoteG applyG rounds e (ρ.mapFn g) =
      (eval ctx quoteF applyF rounds e ρ).mapFn g (mapResult g) := by
  -- by induction on the expression: both sides bind the same steps in the same order
  induction e using Expression.ind generalizing ρ with
  | skip | makeEmptyMap | makeEmptyList | makeNone => rfl
  | capture s t =>
    simp only [eval, eval', select_mapFn, Scope.vals_mapVal]
    exact bind_bimap (packValues_mapFn _) fun _ _ => rfl
  | select env t =>
    simp only [eval, eval', select_mapFn]
    rfl
  | load e env t ih =>
    refine bind_bimap (ih he ρ) fun ⟨v, ρ₁⟩ _ => ?_
    exact bind_bimap (unpackValues_mapFn env v) fun _ _ => rfl
  | ret e t ih => exact bind_bimap (ih he ρ) fun _ _ => rfl
  | literal v t =>
    simp only [eval, eval']
    split
    · rw [denote_mapFn he]
      cases denote ctx quoteF _ v <;> rfl
    · rfl
  | variable' x t =>
    simp only [eval, eval', Scope.lookup_mapVal]
    cases Scope.lookup x ρ <;> rfl
  | constant name lst t ih =>
    refine bind_bimap (evalArguments_mapFn
      (fun e hm ρ => ih e hm (argumentsQuotes_iff.1 he e hm) ρ) ρ) fun ⟨vs, ρ₁⟩ _ => ?_
    exact bind_bimap (constant_mapFn t name vs) fun _ _ => rfl
  | application f arg t ihf iharg =>
    simp only [eval, eval']
    split
    -- a quote is evaluated before its argument, a closure after it
    · refine bind_bimap (ihf he.1 ρ) fun ⟨v, ρ₁⟩ _ => ?_
      refine bind_bimap (iharg he.2 ρ₁) fun ⟨w, ρ₂⟩ _ => ?_
      exact bind_bimap (applyValue_mapFn happly v w) fun _ _ => rfl
    · refine bind_bimap (iharg he.2 ρ) fun ⟨w, ρ₁⟩ _ => ?_
      refine bind_bimap (ihf he.1 ρ₁) fun ⟨v, ρ₂⟩ _ => ?_
      exact bind_bimap (applyClosure_mapFn happly v w) fun _ _ => rfl
    · rfl
  | ifBool c a b t ihc iha ihb =>
    refine bind_bimap (ihc he.1 ρ) fun ⟨v, ρ₁⟩ _ => ?_
    rcases v with _ | ⟨⟨t⟩ | _⟩
    case atom.bool =>
      cases t
      · exact ihb he.2.2 ρ₁
      · exact iha he.2.1 ρ₁
    all_goals rfl
  | ifNone c m x s t ihc ihm ihs =>
    refine bind_bimap (ihc he.1 ρ) fun ⟨v, ρ₁⟩ _ => ?_
    cases v with
    | none => exact ihm he.2.1 ρ₁
    | some w => exact bind_bimap (ihs he.2.2 ((x.1, w) :: ρ₁)) fun ⟨u, ρ₂⟩ _ => by cases ρ₂ <;> rfl
    | _ => rfl
  | ifLeft c x l y r t ihc ihl ihr =>
    refine bind_bimap (ihc he.1 ρ) fun ⟨v, ρ₁⟩ _ => ?_
    cases v with
    | left w => exact bind_bimap (ihl he.2.1 ((x.1, w) :: ρ₁)) fun ⟨u, ρ₂⟩ _ => by cases ρ₂ <;> rfl
    | right w => exact bind_bimap (ihr he.2.2 ((y.1, w) :: ρ₁)) fun ⟨u, ρ₂⟩ _ => by cases ρ₂ <;> rfl
    | _ => rfl
  | letIn x e b t ihe ihb =>
    refine bind_bimap (ihe he.1 ρ) fun ⟨w, ρ₁⟩ _ => ?_
    exact bind_bimap (ihb he.2 ((x.1, w) :: ρ₁)) fun ⟨u, ρ₂⟩ _ => by cases ρ₂ <;> rfl
  | sequence a b t iha ihb =>
    exact bind_bimap (iha he.1 ρ) fun ⟨v, ρ₁⟩ _ => ihb he.2 ρ₁
  | assignment x lrs e t ihe =>
    refine bind_bimap (ihe he ρ) fun ⟨v, ρ₁⟩ _ => ?_
    simp only [mapResult, Scope.lookup_mapVal]
    cases Scope.lookup x ρ₁ with
    | none => rfl
    | some old =>
      refine bind_bimap (updatePath_mapFn v lrs old) fun new _ => ?_
      rw [Scope.assign_mapVal]
      rfl
  | while' c b t ihc ihb =>
    refine bind_bimap (ihc he.1 ρ) fun r _ => ?_
    -- the test has been evaluated once; a round is the body and the test again
    refine bind_bimap (f := Env.mapFn g)
      (iterate_bimap (P := fun _ => True) (Q := fun _ => True) (by rfl) ?_ ?_
        (fun _ _ _ _ => trivial) (fun _ _ _ _ => trivial) trivial (by rfl))
      fun _ _ => rfl
    · rintro ⟨v, ρ₁⟩ -
      rcases v with _ | ⟨⟨t⟩ | _⟩
      all_goals rfl
    · intro ρ₁ _
      exact bind_bimap (ihb he.2 ρ₁) fun ⟨v, ρ₂⟩ _ => ihc he.1 ρ₂

end Eval

end Ligo.MiniC
