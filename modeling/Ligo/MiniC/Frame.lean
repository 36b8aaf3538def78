import Ligo.MiniC.Plain
import Ligo.MiniC.Enters

/-!
# What an evaluation leaves alone

An expression whose assignments are to names of its scope (`AssignsWithin`) leaves the
bindings below its scope alone (`eval_frame`). Unlike a plain expression (`Plain`) it may
capture bindings, of its scope and from below it.
-/

namespace Ligo.MiniC

open Michelson (Context Outcome)
open Scope Fuel

mutual

/-- Every name that is assigned to is one of `Γ` or bound in the expression. -/
def AssignsWithin (Γ : List String) : Expression → Prop
  | .mk e _ => AssignsWithin' Γ e

def AssignsWithin' (Γ : List String) : Expression' → Prop
  | .eLiteral _ | .eEnvironmentCapture _ | .eSkip | .eVariable _ => True
  | .eMakeEmptyMap _ _ | .eMakeEmptyList _ | .eMakeNone _ => True
  | .eEnvironmentSelect _ | .eEnvironmentLoad _ _ | .eEnvironmentReturn _ => False
  | .eConstant _ lst => AllAssignWithin Γ lst
  | .eApplication f arg => AssignsWithin Γ f ∧ AssignsWithin Γ arg
  | .eIfBool c a b => AssignsWithin Γ c ∧ AssignsWithin Γ a ∧ AssignsWithin Γ b
  | .eIfNone c n x s => AssignsWithin Γ c ∧ AssignsWithin Γ n ∧ AssignsWithin (x.1 :: Γ) s
  | .eIfLeft c x l y r =>
    AssignsWithin Γ c ∧ AssignsWithin (x.1 :: Γ) l ∧ AssignsWithin (y.1 :: Γ) r
  | .eLetIn x e b => AssignsWithin Γ e ∧ AssignsWithin (x.1 :: Γ) b
  | .eSequence a b => AssignsWithin Γ a ∧ AssignsWithin Γ b
  | .eAssignment x _ e => x ∈ Γ ∧ AssignsWithin Γ e
  | .eWhile c b => AssignsWithin Γ c ∧ AssignsWithin Γ b

def AllAssignWithin (Γ : List String) : List Expression → Prop
  | [] => True
  | e :: lst => AssignsWithin Γ e ∧ AllAssignWithin Γ lst

end

theorem allAssignWithin_iff {Γ : List String} {lst : List Expression} :
    AllAssignWithin Γ lst ↔ ∀ e ∈ lst, AssignsWithin Γ e := by
  induction lst with
  | nil => simp [AllAssignWithin]
  | cons e lst ih => simp [AllAssignWithin, ih]

/-- A larger scope. -/
theorem AssignsWithin.mono {e : Expression} {Γ Δ : List String} (hsub : Γ ⊆ Δ)
    (h : AssignsWithin Γ e) : AssignsWithin Δ e := by
  induction e using Expression.ind generalizing Γ Δ with
  | literal | capture | skip | variable' | makeEmptyMap | makeEmptyList | makeNone => trivial
  | select | load | ret => exact h.elim
  | constant name lst t ih =>
    refine allAssignWithin_iff.2 fun e he => ?_
    exact ih e he hsub (allAssignWithin_iff.1 h e he)
  | application f arg t ihf iharg => exact ⟨ihf hsub h.1, iharg hsub h.2⟩
  | ifBool c a b t ihc iha ihb => exact ⟨ihc hsub h.1, iha hsub h.2.1, ihb hsub h.2.2⟩
  | ifNone c n x s t ihc ihn ihs =>
    -- a binder adds its name on both sides
    exact ⟨ihc hsub h.1, ihn hsub h.2.1, ihs (List.cons_subset_cons _ hsub) h.2.2⟩
  | ifLeft c x l y r t ihc ihl ihr =>
    exact ⟨ihc hsub h.1, ihl (List.cons_subset_cons _ hsub) h.2.1,
      ihr (List.cons_subset_cons _ hsub) h.2.2⟩
  | letIn x e b t ihe ihb => exact ⟨ihe hsub h.1, ihb (List.cons_subset_cons _ hsub) h.2⟩
  | sequence a b t iha ihb => exact ⟨iha hsub h.1, ihb hsub h.2⟩
  | assignment x lrs e t ihe => exact ⟨hsub h.1, ihe hsub h.2⟩
  | while' c b t ihc ihb => exact ⟨ihc hsub h.1, ihb hsub h.2⟩

/-! ### The frame -/

section Eval

variable {ctx : Context} {F : Type} {quote : AnonFunction → Option F}
  {apply : F → Michelson.Value F → Outcome F (Michelson.Value F)} {rounds : ℕ}

/-- The environment is one with the names `Γ` above the bindings `T`. -/
def Above (Γ : List String) (T σ : Env F) : Prop := ∃ σ₁, σ = σ₁ ++ T ∧ names σ₁ = Γ

theorem Above.cons {Γ : List String} {T σ : Env F} (h : Above Γ T σ)
    (b : String × Michelson.Value F) : Above (b.1 :: Γ) T (b :: σ) := by
  obtain ⟨σ₁, rfl, rfl⟩ := h
  exact ⟨b :: σ₁, rfl, rfl⟩

theorem Above.tail {x : String} {Γ : List String} {T σ : Env F} (h : Above (x :: Γ) T σ) :
    Above Γ T σ.tail := by
  obtain ⟨σ₁, rfl, hσ₁⟩ := h
  match σ₁, hσ₁ with
  | b :: σ₁, hσ₁ => exact ⟨σ₁, rfl, (List.cons.inj hσ₁).2⟩

/-- An assignment to a name of the scope stays in it. -/
theorem Above.assign {x : String} {Γ : List String} {T σ : Env F} (hx : x ∈ Γ)
    (h : Above Γ T σ) (v : Michelson.Value F) : Above Γ T (Scope.assign x v σ) := by
  obtain ⟨σ₁, rfl, rfl⟩ := h
  refine ⟨Scope.assign x v σ₁, ?_, names_assign x v σ₁⟩
  induction σ₁ with
  | nil => cases hx
  | cons b σ₁ ih =>
    rw [List.cons_append, Scope.assign, Scope.assign]
    by_cases hb : x = b.1
    · rw [if_pos hb, if_pos hb]
      rfl
    · have hmem : x ∈ names σ₁ := (List.mem_cons.1 hx).resolve_left hb
      rw [if_neg hb, if_neg hb, ih hmem]
      rfl

theorem evalArguments_frame {Γ : List String} {T : Env F} {lst : List Expression}
    (h : ∀ e ∈ lst, ∀ σ r, Above Γ T σ → eval ctx quote apply rounds e σ = .ok r →
      Above Γ T r.2)
    {σ : Env F} {r : List (Michelson.Value F) × Env F} (hσ : Above Γ T σ)
    (hr : evalArguments ctx quote apply rounds lst σ = .ok r) : Above Γ T r.2 := by
  induction lst generalizing r with
  | nil =>
    cases hr
    exact hσ
  | cons e lst ih =>
    simp only [evalArguments] at hr
    obtain ⟨⟨vs, σ₁⟩, h₁, hr⟩ := bind_eq_ok.1 hr
    obtain ⟨⟨v, σ₂⟩, h₂, hr⟩ := bind_eq_ok.1 hr
    cases hr
    have hσ₁ := ih (fun e he => h e (List.mem_cons_of_mem _ he)) h₁
    exact h e List.mem_cons_self _ _ hσ₁ h₂

/-- An evaluation keeps the names of its scope and the bindings below. -/
theorem eval_frame {e : Expression} {Γ : List String} {T σ : Env F}
    {r : Michelson.Value F × Env F} (he : AssignsWithin Γ e) (hσ : Above Γ T σ)
    (hr : eval ctx quote apply rounds e σ = .ok r) : Above Γ T r.2 := by
  induction e using Expression.ind generalizing Γ σ r with
  | select | load | ret => exact he.elim
  | skip | makeEmptyMap | makeEmptyList | makeNone =>
    cases hr
    exact hσ
  | capture lst t =>
    obtain ⟨v, -, hr⟩ := bind_eq_ok.1 hr
    cases hr
    exact hσ
  | literal v t =>
    simp only [eval, eval'] at hr
    split at hr
    · split at hr
      · cases hr
        exact hσ
      · cases hr
    · cases hr
  | variable' x t =>
    simp only [eval, eval'] at hr
    split at hr
    · cases hr
      exact hσ
    · cases hr
  | constant name lst t ih =>
    obtain ⟨⟨vs, σ₁⟩, h₁, hr⟩ := bind_eq_ok.1 hr
    obtain ⟨v, -, hr⟩ := bind_eq_ok.1 hr
    cases hr
    refine evalArguments_frame (fun e hm σ r hσ hr => ?_) hσ h₁
    exact ih e hm (allAssignWithin_iff.1 he e hm) hσ hr
  | application f arg t ihf iharg =>
    simp only [eval, eval'] at hr
    split at hr
    · obtain ⟨⟨v, σ₁⟩, h₁, hr⟩ := bind_eq_ok.1 hr
      obtain ⟨⟨w, σ₂⟩, h₂, hr⟩ := bind_eq_ok.1 hr
      obtain ⟨u, -, hr⟩ := bind_eq_ok.1 hr
      cases hr
      have hσ₂ := iharg he.2 (ihf he.1 hσ h₁) h₂
      exact hσ₂
    · obtain ⟨⟨w, σ₁⟩, h₁, hr⟩ := bind_eq_ok.1 hr
      obtain ⟨⟨v, σ₂⟩, h₂, hr⟩ := bind_eq_ok.1 hr
      obtain ⟨u, -, hr⟩ := bind_eq_ok.1 hr
      cases hr
      have hσ₂ := ihf he.1 (iharg he.2 hσ h₁) h₂
      exact hσ₂
    · cases hr
  | ifBool c a b t ihc iha ihb =>
    obtain ⟨hc, ha, hb⟩ := he
    obtain ⟨⟨v, σ₁⟩, h₁, hr⟩ := bind_eq_ok.1 hr
    have hσ₁ := ihc hc hσ h₁
    dsimp only at hr
    split at hr
    · split at hr
      · exact iha ha hσ₁ hr
      · exact ihb hb hσ₁ hr
    · cases hr
  | ifNone c n x s t ihc ihn ihs =>
    obtain ⟨hc, hn, hs⟩ := he
    obtain ⟨⟨v, σ₁⟩, h₁, hr⟩ := bind_eq_ok.1 hr
    have hσ₁ := ihc hc hσ h₁
    dsimp only at hr
    split at hr
    · exact ihn hn hσ₁ hr
    · obtain ⟨⟨u, σ₂⟩, h₂, hr⟩ := bind_eq_ok.1 hr
      cases hr
      exact (ihs hs (hσ₁.cons (x.1, _)) h₂).tail
    · cases hr
  | ifLeft c x l y r t ihc ihl ihr =>
    obtain ⟨hc, hl, hr'⟩ := he
    obtain ⟨⟨v, σ₁⟩, h₁, hr⟩ := bind_eq_ok.1 hr
    have hσ₁ := ihc hc hσ h₁
    dsimp only at hr
    split at hr
    · obtain ⟨⟨u, σ₂⟩, h₂, hr⟩ := bind_eq_ok.1 hr
      cases hr
      exact (ihl hl (hσ₁.cons (x.1, _)) h₂).tail
    · obtain ⟨⟨u, σ₂⟩, h₂, hr⟩ := bind_eq_ok.1 hr
      cases hr
      exact (ihr hr' (hσ₁.cons (y.1, _)) h₂).tail
    · cases hr
  | letIn x e b t ihe ihb =>
    obtain ⟨⟨w, σ₁⟩, h₁, hr⟩ := bind_eq_ok.1 hr
    obtain ⟨⟨u, σ₂⟩, h₂, hr⟩ := bind_eq_ok.1 hr
    cases hr
    exact (ihb he.2 ((ihe he.1 hσ h₁).cons (x.1, w)) h₂).tail
  | sequence a b t iha ihb =>
    obtain ⟨⟨v, σ₁⟩, h₁, hr⟩ := bind_eq_ok.1 hr
    exact ihb he.2 (iha he.1 hσ h₁) hr
  | assignment x lrs e t ihe =>
    obtain ⟨⟨v, σ₁⟩, h₁, hr⟩ := bind_eq_ok.1 hr
    have hσ₁ := ihe he.2 hσ h₁
    dsimp only at hr
    split at hr
    · obtain ⟨w, -, hr⟩ := bind_eq_ok.1 hr
      cases hr
      exact hσ₁.assign he.1 w
    · cases hr
  | while' c b t ihc ihb =>
    obtain ⟨r₁, h₁, hr⟩ := bind_eq_ok.1 hr
    obtain ⟨σ₂, h₂, hr⟩ := bind_eq_ok.1 hr
    cases hr
    -- every round keeps the frame
    refine iterate_inv (P := fun r => Above Γ T r.2) (Q := Above Γ T) ?_ ?_
      (ihc he.1 hσ h₁) h₂
    · intro r p hr hp
      rw [asBool_snd hp]
      exact hr
    · intro σ₁ r hσ₁ hb
      obtain ⟨⟨v, σ₂⟩, h₂, hb⟩ := bind_eq_ok.1 hb
      exact ihc he.1 (ihb he.2 hσ₁ h₂) hb

end Eval

/-! ### Declarations -/

variable {ctx : Context}

/-- Every declaration assigns to names of `Γ` and of earlier declarations only. -/
def DeclarationsWithin : List String → List (String × Expression) → Prop
  | _, [] => True
  | Γ, (x, e) :: ds => AssignsWithin Γ e ∧ DeclarationsWithin (x :: Γ) ds

/-- The declarations are bound in order above what there was. -/
theorem Declares.frame {ds : List (String × Expression)} {Γ : List String}
    {T σ ρ : Env AnonFunction} (hds : DeclarationsWithin Γ ds) (hσ : Above Γ T σ)
    (h : Declares ctx ds σ ρ) : Above ((names ds).reverse ++ Γ) T ρ := by
  induction ds generalizing Γ σ with
  | nil =>
    cases h
    exact hσ
  | cons d ds ih =>
    obtain ⟨x, e⟩ := d
    obtain ⟨w, σ₁, ⟨depth, he⟩, hds'⟩ := h
    have hσ₁ : Above Γ T σ₁ := eval_frame hds.1 hσ he
    have hρ := ih hds.2 (hσ₁.cons (x, w)) hds'
    rw [names_cons, List.reverse_cons, List.append_assoc]
    exact hρ

end Ligo.MiniC
