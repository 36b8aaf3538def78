import Ligo.MiniC.Semantics

/-!
# Plain expressions

The expressions that the code generator compiles without changing the shape of the
environment (`Plain`): no `E_environment_…` node stands in them, except at the root of
the body of a quote, no variable or binder has the name of the temporaries, and lists
and functions, which Micheline writes alike, do not stand for each other in a literal
(`QuoteShaped`).

Evaluating a plain expression keeps the names of the environment (`eval_names`) and
does not see temporaries (`eval_splice`).
-/

namespace Ligo.MiniC

open Michelson (Context Outcome Ty stuck)
open Environment (tmpName)

/-! ### The fragment -/

mutual

/-- At a function type there is a function, and at a list type there is none. -/
def QuoteShaped : Ty → Value → Prop
  | .lambda _ _, .dFunction _ => True
  | .lambda _ _, _ => False
  | .list _, .dFunction _ => False
  | .pair s t, .dPair a b => QuoteShaped s a ∧ QuoteShaped t b
  | .or s _, .dLeft a => QuoteShaped s a
  | .or _ t, .dRight b => QuoteShaped t b
  | .option t, .dSome a => QuoteShaped t a
  | .list t, .dList lst => QuoteShapedAll t lst
  | .map _ t, .dMap lst => QuoteShapedEntries t lst
  | _, _ => True

def QuoteShapedAll : Ty → List Value → Prop
  | _, [] => True
  | t, v :: lst => QuoteShaped t v ∧ QuoteShapedAll t lst

def QuoteShapedEntries : Ty → List (Value × Value) → Prop
  | _, [] => True
  | t, (_, b) :: lst => QuoteShaped t b ∧ QuoteShapedEntries t lst

end

mutual

/-- The functions in a value are plain quotes. -/
def PlainValue : Value → Prop
  | .dPair a b => PlainValue a ∧ PlainValue b
  | .dLeft a | .dRight a | .dSome a => PlainValue a
  | .dMap lst => PlainEntries lst
  | .dList lst => PlainValues lst
  | .dFunction f => PlainQuote f
  | _ => True

def PlainValues : List Value → Prop
  | [] => True
  | v :: lst => PlainValue v ∧ PlainValues lst

def PlainEntries : List (Value × Value) → Prop
  | [] => True
  | (a, b) :: lst => PlainValue a ∧ PlainValue b ∧ PlainEntries lst

def Plain : Expression → Prop
  | .mk expr' ty => Plain' expr' ty

def Plain' : Expression' → TypeValue → Prop
  | .eLiteral v, ty =>
    PlainValue v ∧ ∀ t, CompilerType.Ty.type_ ty = .ok t → QuoteShaped t v
  | .eSkip, _ | .eMakeEmptyMap _ _, _ | .eMakeEmptyList _, _ | .eMakeNone _, _ => True
  | .eVariable x, _ => x ≠ tmpName
  | .eConstant _ lst, _ => PlainAll lst
  | .eApplication f arg, _ =>
    (∀ c i o, f.typeValue ≠ .tDeepClosure c i o) ∧ Plain f ∧ Plain arg
  | .eIfBool c a b, _ => Plain c ∧ Plain a ∧ Plain b
  | .eIfNone c n ntv s, _ => Plain c ∧ Plain n ∧ ntv.1 ≠ tmpName ∧ Plain s
  | .eIfLeft c lNtv l rNtv r, _ =>
    Plain c ∧ lNtv.1 ≠ tmpName ∧ Plain l ∧ rNtv.1 ≠ tmpName ∧ Plain r
  | .eLetIn v expr body, _ => v.1 ≠ tmpName ∧ Plain expr ∧ Plain body
  | .eSequence a b, _ => Plain a ∧ Plain b
  | .eAssignment name _ expr, _ => name ≠ tmpName ∧ Plain expr
  | .eWhile expr block, _ => Plain expr ∧ Plain block
  | .eEnvironmentCapture _, _ | .eEnvironmentSelect _, _ | .eEnvironmentLoad _ _, _
  | .eEnvironmentReturn _, _ => False

def PlainAll : List Expression → Prop
  | [] => True
  | e :: lst => Plain e ∧ PlainAll lst

/-- A function whose body is a plain expression under an `E_environment_return`. -/
def PlainQuote : AnonFunction → Prop
  | .mk binder _ _ (.mk (.eEnvironmentReturn e) _) => binder ≠ tmpName ∧ Plain e
  | _ => False

end

theorem quoteShaped_comparable (c : Michelson.ComparableTy) (v : Value) :
    QuoteShaped (.comparable c) v := by
  cases v <;> trivial

theorem plainAll_iff {lst : List Expression} : PlainAll lst ↔ ∀ e ∈ lst, Plain e := by
  induction lst with
  | nil => simp [PlainAll]
  | cons e lst ih => simp [PlainAll, ih]

/-! ### Evaluation keeps the names -/

section Eval

variable {ctx : Context} {F : Type} {quote : AnonFunction → Option F}
  {apply : F → Michelson.Value F → Outcome F (Michelson.Value F)} {rounds : ℕ}


open Scope Fuel

theorem asBool_snd {r : Michelson.Value F × Env F} {p : Bool × Env F}
    (h : asBool r = .ok p) : p.2 = r.2 := by
  unfold asBool at h
  split at h
  · cases h
    rfl
  · cases h

theorem evalArguments_names {lst : List Expression}
    (h : ∀ e ∈ lst, ∀ ρ r, eval ctx quote apply rounds e ρ = .ok r → names r.2 = names ρ)
    {ρ : Env F} {r : List (Michelson.Value F) × Env F}
    (hr : evalArguments ctx quote apply rounds lst ρ = .ok r) : names r.2 = names ρ := by
  induction lst generalizing r with
  | nil =>
    cases hr
    rfl
  | cons e lst ih =>
    simp only [evalArguments] at hr
    obtain ⟨⟨vs, ρ₁⟩, h₁, hr⟩ := bind_eq_ok.1 hr
    obtain ⟨⟨v, ρ₂⟩, h₂, hr⟩ := bind_eq_ok.1 hr
    cases hr
    have hvs := ih (fun e he => h e (List.mem_cons_of_mem _ he)) h₁
    exact (h e (by simp) _ _ h₂).trans hvs

/-- A plain expression leaves the bindings it found, with new values. -/
theorem eval_names {e : Expression} (he : Plain e) {ρ : Env F}
    {r : Michelson.Value F × Env F} (hr : eval ctx quote apply rounds e ρ = .ok r) :
    names r.2 = names ρ := by
  induction e using Expression.ind generalizing ρ r with
  | capture | select | load | ret => exact he.elim
  | skip | makeEmptyMap | makeEmptyList | makeNone =>
    cases hr
    rfl
  | literal v t =>
    simp only [eval, eval'] at hr
    split at hr
    · split at hr
      · cases hr
        rfl
      · cases hr
    · cases hr
  | variable' x t =>
    simp only [eval, eval'] at hr
    split at hr
    · cases hr
      rfl
    · cases hr
  | constant name lst t ih =>
    obtain ⟨⟨vs, ρ₁⟩, h₁, hr⟩ := bind_eq_ok.1 hr
    obtain ⟨v, -, hr⟩ := bind_eq_ok.1 hr
    cases hr
    exact evalArguments_names
      (fun e hm ρ r h => ih e hm (plainAll_iff.1 he e hm) h) h₁
  | application f arg t ihf iharg =>
    obtain ⟨hc, hf, harg⟩ := he
    simp only [eval, eval'] at hr
    split at hr
    · obtain ⟨⟨v, ρ₁⟩, h₁, hr⟩ := bind_eq_ok.1 hr
      obtain ⟨⟨w, ρ₂⟩, h₂, hr⟩ := bind_eq_ok.1 hr
      obtain ⟨u, -, hr⟩ := bind_eq_ok.1 hr
      cases hr
      exact (iharg harg h₂).trans (ihf hf h₁)
    · rename_i hty
      exact absurd hty (hc _ _ _)
    · cases hr
  | ifBool c a b t ihc iha ihb =>
    obtain ⟨hc, ha, hb⟩ := he
    obtain ⟨⟨v, ρ₁⟩, h₁, hr⟩ := bind_eq_ok.1 hr
    have h₁ := ihc hc h₁
    dsimp only at hr
    split at hr
    · split at hr
      · exact (iha ha hr).trans h₁
      · exact (ihb hb hr).trans h₁
    · cases hr
  | ifNone c n x s t ihc ihn ihs =>
    obtain ⟨hc, hn, -, hs⟩ := he
    obtain ⟨⟨v, ρ₁⟩, h₁, hr⟩ := bind_eq_ok.1 hr
    have h₁ := ihc hc h₁
    dsimp only at hr
    split at hr
    · exact (ihn hn hr).trans h₁
    · obtain ⟨⟨u, ρ₂⟩, h₂, hr⟩ := bind_eq_ok.1 hr
      cases hr
      exact (names_tail_of_cons (ihs hs h₂)).trans h₁
    · cases hr
  | ifLeft c x l y r t ihc ihl ihr =>
    obtain ⟨hc, -, hl, -, hr'⟩ := he
    obtain ⟨⟨v, ρ₁⟩, h₁, hr⟩ := bind_eq_ok.1 hr
    have h₁ := ihc hc h₁
    dsimp only at hr
    split at hr
    · obtain ⟨⟨u, ρ₂⟩, h₂, hr⟩ := bind_eq_ok.1 hr
      cases hr
      exact (names_tail_of_cons (ihl hl h₂)).trans h₁
    · obtain ⟨⟨u, ρ₂⟩, h₂, hr⟩ := bind_eq_ok.1 hr
      cases hr
      exact (names_tail_of_cons (ihr hr' h₂)).trans h₁
    · cases hr
  | letIn x e b t ihe ihb =>
    obtain ⟨-, he, hb⟩ := he
    obtain ⟨⟨w, ρ₁⟩, h₁, hr⟩ := bind_eq_ok.1 hr
    obtain ⟨⟨u, ρ₂⟩, h₂, hr⟩ := bind_eq_ok.1 hr
    cases hr
    exact (names_tail_of_cons (ihb hb h₂)).trans (ihe he h₁)
  | sequence a b t iha ihb =>
    obtain ⟨⟨v, ρ₁⟩, h₁, hr⟩ := bind_eq_ok.1 hr
    exact (ihb he.2 hr).trans (iha he.1 h₁)
  | assignment x lrs e t ihe =>
    obtain ⟨⟨v, ρ₁⟩, h₁, hr⟩ := bind_eq_ok.1 hr
    have h₁ := ihe he.2 h₁
    dsimp only at hr
    split at hr
    · obtain ⟨w, -, hr⟩ := bind_eq_ok.1 hr
      cases hr
      exact (names_assign ..).trans h₁
    · cases hr
  | while' c b t ihc ihb =>
    obtain ⟨r₁, h₁, hr⟩ := bind_eq_ok.1 hr
    obtain ⟨ρ₂, h₂, hr⟩ := bind_eq_ok.1 hr
    cases hr
    -- the condition and the block keep the names, so every round does
    refine iterate_inv (P := fun r => names r.2 = names ρ) (Q := fun ρ' => names ρ' = names ρ)
      ?_ ?_ (ihc he.1 h₁) h₂
    · intro r p h hp
      rw [asBool_snd hp]
      exact h
    · intro ρ₁ r h hb
      obtain ⟨⟨v, ρ₂⟩, h₂, hb⟩ := bind_eq_ok.1 hb
      exact (ihc he.1 hb).trans ((ihb he.2 h₂).trans h)

/-! ### Temporaries -/

variable {T : Env F} (hT : ∀ x ∈ names T, x = tmpName)

theorem evalArguments_splice {lst : List Expression} (hlst : PlainAll lst) {k : ℕ}
    (ih : ∀ e ∈ lst, ∀ ρ : Env F, k ≤ ρ.length →
      eval ctx quote apply rounds e (splice k T ρ) =
        Fuel.bimap id (fun r => (r.1, splice k T r.2)) (eval ctx quote apply rounds e ρ))
    {ρ : Env F} (hk : k ≤ ρ.length) :
    evalArguments ctx quote apply rounds lst (splice k T ρ) =
      Fuel.bimap id (fun r => (r.1, splice k T r.2))
        (evalArguments ctx quote apply rounds lst ρ) := by
  induction lst with
  | nil => rfl
  | cons e lst ihlst =>
    refine bind_bimap (ihlst hlst.2 fun e he => ih e (List.mem_cons_of_mem _ he))
      fun ⟨vs, ρ₁⟩ h₁ => ?_
    -- evaluation keeps the names, so the splice stays where it is
    have hn : names ρ₁ = names ρ :=
      evalArguments_names (fun e he _ _ => eval_names (plainAll_iff.1 hlst.2 e he)) h₁
    have hlen : k ≤ ρ₁.length := by
      rw [← length_names ρ₁, hn, length_names]
      exact hk
    exact bind_bimap (ih e (by simp) ρ₁ hlen) fun _ _ => rfl

include hT in
/-- A plain expression does not see a block of temporaries. -/
theorem eval_splice {e : Expression} (he : Plain e) {k : ℕ} {ρ : Env F}
    (hk : k ≤ ρ.length) :
    eval ctx quote apply rounds e (splice k T ρ) =
      Fuel.bimap id (fun r => (r.1, splice k T r.2)) (eval ctx quote apply rounds e ρ) := by
  have hfresh : ∀ {x : String}, x ≠ tmpName → x ∉ names T := fun hx hm => hx (hT _ hm)
  -- evaluation keeps the number of bindings
  have hlen : ∀ {e : Expression} {ρ : Env F} {r}, Plain e →
      eval ctx quote apply rounds e ρ = .ok r → r.2.length = ρ.length := by
    intro e ρ r he hr
    rw [← length_names r.2, eval_names he hr, length_names]
  have htail : ∀ {e : Expression} {k : ℕ} {b : String × Michelson.Value F} {ρ : Env F} {r},
      Plain e → eval ctx quote apply rounds e (b :: ρ) = .ok r →
      (splice (k + 1) T r.2).tail = splice k T r.2.tail := by
    intro e k b ρ r he hr
    refine tail_splice fun hnil => ?_
    have := hlen he hr
    rw [hnil] at this
    cases this
  induction e using Expression.ind generalizing k ρ with
  | capture | select | load | ret => exact he.elim
  | skip | makeEmptyMap | makeEmptyList | makeNone => rfl
  | literal v t =>
    simp only [eval, eval']
    split
    · split
      · rfl
      · rfl
    · rfl
  | variable' x t =>
    simp only [eval, eval', lookup_splice (hfresh he)]
    split
    · rfl
    · rfl
  | constant name lst t ih =>
    refine bind_bimap (evalArguments_splice he
      (fun e hm ρ hk => ih e hm (plainAll_iff.1 he e hm) hk) hk) fun ⟨vs, ρ₁⟩ _ => ?_
    exact bind_bimap (f := id) (by cases constant ctx t name vs <;> rfl) fun _ _ => rfl
  | application f arg t ihf iharg =>
    obtain ⟨hc, hf, harg⟩ := he
    simp only [eval, eval']
    split
    · refine bind_bimap (ihf hf hk) fun ⟨v, ρ₁⟩ h₁ => ?_
      refine bind_bimap (iharg harg (hlen hf h₁ ▸ hk)) fun ⟨w, ρ₂⟩ _ => ?_
      exact bind_bimap (f := id) (by cases applyValue apply v w <;> rfl) fun _ _ => rfl
    · rename_i hty
      exact absurd hty (hc _ _ _)
    · rfl
  | ifBool c a b t ihc iha ihb =>
    obtain ⟨hc, ha, hb⟩ := he
    refine bind_bimap (ihc hc hk) fun ⟨v, ρ₁⟩ h₁ => ?_
    have hk₁ := hlen hc h₁ ▸ hk
    dsimp only
    split
    · split
      · exact iha ha hk₁
      · exact ihb hb hk₁
    · rfl
  | ifNone c n x s t ihc ihn ihs =>
    obtain ⟨hc, hn, -, hs⟩ := he
    refine bind_bimap (ihc hc hk) fun ⟨v, ρ₁⟩ h₁ => ?_
    have hk₁ := hlen hc h₁ ▸ hk
    dsimp only
    split
    · exact ihn hn hk₁
    · refine bind_bimap (ihs (k := k + 1) (ρ := _ :: ρ₁) hs (Nat.succ_le_succ hk₁))
        fun ⟨u, ρ₂⟩ h₂ => ?_
      exact congrArg (fun ρ => Except.ok (u, ρ)) (htail hs h₂)
    · rfl
  | ifLeft c x l y r t ihc ihl ihr =>
    obtain ⟨hc, -, hl, -, hr⟩ := he
    refine bind_bimap (ihc hc hk) fun ⟨v, ρ₁⟩ h₁ => ?_
    have hk₁ := hlen hc h₁ ▸ hk
    dsimp only
    split
    · refine bind_bimap (ihl (k := k + 1) (ρ := _ :: ρ₁) hl (Nat.succ_le_succ hk₁))
        fun ⟨u, ρ₂⟩ h₂ => ?_
      exact congrArg (fun ρ => Except.ok (u, ρ)) (htail hl h₂)
    · refine bind_bimap (ihr (k := k + 1) (ρ := _ :: ρ₁) hr (Nat.succ_le_succ hk₁))
        fun ⟨u, ρ₂⟩ h₂ => ?_
      exact congrArg (fun ρ => Except.ok (u, ρ)) (htail hr h₂)
    · rfl
  | letIn x e b t ihe ihb =>
    obtain ⟨-, he, hb⟩ := he
    refine bind_bimap (ihe he hk) fun ⟨w, ρ₁⟩ h₁ => ?_
    refine bind_bimap
      (ihb (k := k + 1) (ρ := _ :: ρ₁) hb (Nat.succ_le_succ (hlen he h₁ ▸ hk)))
      fun ⟨u, ρ₂⟩ h₂ => ?_
    exact congrArg (fun ρ => Except.ok (u, ρ)) (htail hb h₂)
  | sequence a b t iha ihb =>
    refine bind_bimap (iha he.1 hk) fun ⟨v, ρ₁⟩ h₁ => ?_
    exact ihb he.2 (hlen he.1 h₁ ▸ hk)
  | assignment x lrs e t ihe =>
    refine bind_bimap (ihe he.2 hk) fun ⟨v, ρ₁⟩ h₁ => ?_
    simp only [lookup_splice (hfresh he.1), assign_splice (hfresh he.1)]
    split
    · rename_i old _
      exact bind_bimap (f := id) (by cases updatePath v lrs old <;> rfl) fun _ _ => rfl
    · rfl
  | while' c b t ihc ihb =>
    refine bind_bimap (ihc he.1 hk) fun r hr => ?_
    refine bind_bimap (f := splice k T)
      (iterate_bimap (P := fun r : Michelson.Value F × Env F => k ≤ r.2.length)
        (Q := fun ρ₁ : Env F => k ≤ ρ₁.length) (by rfl) ?_ ?_ ?_ ?_ ?_ (by rfl))
      fun _ _ => rfl
    · rintro ⟨v, ρ₁⟩ -
      simp only [asBool]
      split
      · rfl
      · rfl
    · intro ρ₁ hk₁
      refine bind_bimap (ihb he.2 hk₁) fun ⟨v, ρ₂⟩ h₂ => ?_
      exact ihc he.1 (hlen he.2 h₂ ▸ hk₁)
    · intro r p hk₁ hp
      rw [asBool_snd hp]
      exact hk₁
    · intro ρ₁ r hk₁ hb
      obtain ⟨⟨v, ρ₂⟩, h₂, hb⟩ := bind_eq_ok.1 hb
      exact (hlen he.1 hb).symm ▸ (hlen he.2 h₂).symm ▸ hk₁
    · exact (hlen he.1 hr).symm ▸ hk

end Eval

end Ligo.MiniC
