import Ligo.MiniC.Growth

/-!
# The expressions that an evaluation ends with

`Enters e ρ e₂ ρ₂` says that the evaluation of `e` in `ρ` comes to `e₂`, in the
environment `ρ₂`, and that the value of `e₂` there is the value of `e`
(`Enters.evaluates_iff`): `e₂` is the body of a `let`, the second part of a sequence or
the branch that is taken. It tells in which environment a part of an expression runs,
which the value alone does not.

A chain of `let`s comes to its body in the environment that its declarations leave, one
after the other (`enters_lets_iff`).
-/

namespace Ligo.MiniC

open Michelson (Context)
open Fuel (bind_eq_ok map_eq_ok)

variable (ctx : Context)

/-- The evaluation of an expression comes to a part of it. -/
inductive Enters : Expression → Env AnonFunction → Expression → Env AnonFunction → Prop
  | here (e ρ) : Enters e ρ e ρ
  | letIn {x e b t ρ w ρ₁ e₂ ρ₂} (he : Evaluates ctx e ρ w ρ₁)
      (hb : Enters b ((x.1, w) :: ρ₁) e₂ ρ₂) : Enters (.mk (.eLetIn x e b) t) ρ e₂ ρ₂
  | sequence {a b t ρ w ρ₁ e₂ ρ₂} (ha : Evaluates ctx a ρ w ρ₁) (hb : Enters b ρ₁ e₂ ρ₂) :
      Enters (.mk (.eSequence a b) t) ρ e₂ ρ₂
  | ifBool {c a b t ρ r ρ₁ e₂ ρ₂} (hc : Evaluates ctx c ρ (.bool r) ρ₁)
      (hab : Enters (if r then a else b) ρ₁ e₂ ρ₂) : Enters (.mk (.eIfBool c a b) t) ρ e₂ ρ₂
  | ifNone {c n x s t ρ ρ₁ e₂ ρ₂} (hc : Evaluates ctx c ρ .none ρ₁) (hn : Enters n ρ₁ e₂ ρ₂) :
      Enters (.mk (.eIfNone c n x s) t) ρ e₂ ρ₂
  | ifSome {c n x s t ρ w ρ₁ e₂ ρ₂} (hc : Evaluates ctx c ρ (.some w) ρ₁)
      (hs : Enters s ((x.1, w) :: ρ₁) e₂ ρ₂) : Enters (.mk (.eIfNone c n x s) t) ρ e₂ ρ₂
  | left {c x l y r t ρ w ρ₁ e₂ ρ₂} (hc : Evaluates ctx c ρ (.left w) ρ₁)
      (hl : Enters l ((x.1, w) :: ρ₁) e₂ ρ₂) : Enters (.mk (.eIfLeft c x l y r) t) ρ e₂ ρ₂
  | right {c x l y r t ρ w ρ₁ e₂ ρ₂} (hc : Evaluates ctx c ρ (.right w) ρ₁)
      (hr : Enters r ((y.1, w) :: ρ₁) e₂ ρ₂) : Enters (.mk (.eIfLeft c x l y r) t) ρ e₂ ρ₂
  | ret {e t ρ e₂ ρ₂} (he : Enters e ρ e₂ ρ₂) : Enters (.mk (.eEnvironmentReturn e) t) ρ e₂ ρ₂

variable {ctx} {e e₂ : Expression} {ρ ρ₂ : Env AnonFunction}

/-! ### One step -/

theorem evaluates_letIn_iff {x : String × TypeValue} {e b : Expression} {t : TypeValue}
    {ρ ρ' : Env AnonFunction} {v : Michelson.Value AnonFunction} :
    Evaluates ctx (.mk (.eLetIn x e b) t) ρ v ρ' ↔
      ∃ w ρ₁ ρ₂, Evaluates ctx e ρ w ρ₁ ∧ Evaluates ctx b ((x.1, w) :: ρ₁) v ρ₂ ∧
        ρ' = ρ₂.tail := by
  constructor
  · rintro ⟨d, h⟩
    obtain ⟨⟨w, ρ₁⟩, h₁, h⟩ := bind_eq_ok.1 h
    obtain ⟨⟨u, ρ₂⟩, h₂, h⟩ := bind_eq_ok.1 h
    cases h
    exact ⟨w, ρ₁, ρ₂, ⟨d, h₁⟩, ⟨d, h₂⟩, rfl⟩
  · rintro ⟨w, ρ₁, ρ₂, he, hb, rfl⟩
    obtain ⟨d, h₁, h₂⟩ := he.common hb
    refine ⟨d, bind_eq_ok.2 ⟨(w, ρ₁), h₁, ?_⟩⟩
    exact bind_eq_ok.2 ⟨(v, ρ₂), h₂, rfl⟩

theorem evaluates_sequence_iff {a b : Expression} {t : TypeValue} {ρ ρ' : Env AnonFunction}
    {v : Michelson.Value AnonFunction} :
    Evaluates ctx (.mk (.eSequence a b) t) ρ v ρ' ↔
      ∃ w ρ₁, Evaluates ctx a ρ w ρ₁ ∧ Evaluates ctx b ρ₁ v ρ' := by
  constructor
  · rintro ⟨d, h⟩
    obtain ⟨⟨w, ρ₁⟩, h₁, h₂⟩ := bind_eq_ok.1 h
    exact ⟨w, ρ₁, ⟨d, h₁⟩, ⟨d, h₂⟩⟩
  · rintro ⟨w, ρ₁, ha, hb⟩
    obtain ⟨d, h₁, h₂⟩ := ha.common hb
    exact ⟨d, bind_eq_ok.2 ⟨(w, ρ₁), h₁, h₂⟩⟩

theorem evaluates_ret_iff {e : Expression} {t : TypeValue} {ρ ρ' : Env AnonFunction}
    {v : Michelson.Value AnonFunction} :
    Evaluates ctx (.mk (.eEnvironmentReturn e) t) ρ v ρ' ↔
      ρ' = [] ∧ ∃ ρ₁, Evaluates ctx e ρ v ρ₁ := by
  constructor
  · rintro ⟨d, h⟩
    obtain ⟨⟨w, ρ₁⟩, h₁, h⟩ := bind_eq_ok.1 h
    cases h
    exact ⟨rfl, ρ₁, d, h₁⟩
  · rintro ⟨rfl, ρ₁, d, h₁⟩
    exact ⟨d, bind_eq_ok.2 ⟨(v, ρ₁), h₁, rfl⟩⟩

/-- A conditional after its condition: the value of the condition says how it goes on. -/
theorem evaluates_of_condition {c : Expression} {ρ ρ₁ ρ' : Env AnonFunction}
    {w v : Michelson.Value AnonFunction} {k : ℕ → Michelson.Value AnonFunction ×
      Env AnonFunction → Michelson.Outcome AnonFunction
        (Michelson.Value AnonFunction × Env AnonFunction)}
    (hc : Evaluates ctx c ρ w ρ₁) (hk : Fuel.Grows .timeout fun d => k d (w, ρ₁)) :
    (∃ d, evalAt ctx d c ρ >>= k d = .ok (v, ρ')) ↔ ∃ d, k d (w, ρ₁) = .ok (v, ρ') := by
  constructor
  · rintro ⟨d, h⟩
    obtain ⟨r, h₁, h₂⟩ := bind_eq_ok.1 h
    obtain ⟨rfl, rfl⟩ := hc.unique ⟨d, h₁⟩
    exact ⟨d, h₂⟩
  · rintro ⟨d₂, h₂⟩
    obtain ⟨d₁, h₁⟩ := hc
    have h₁ := (evalAt_grows c ρ d₁ _ (le_max_left d₁ d₂)).ok h₁
    have h₂ := (hk d₂ _ (le_max_right d₁ d₂)).ok h₂
    exact ⟨_, bind_eq_ok.2 ⟨_, h₁, h₂⟩⟩

/-- The rest of a conditional that binds the content of its condition. -/
theorem grows_scope (x : String) (w : Michelson.Value AnonFunction) (b : Expression)
    (ρ : Env AnonFunction) : Fuel.Grows .timeout fun d =>
      evalAt ctx d b ((x, w) :: ρ) >>= fun r =>
        (.ok (r.1, r.2.tail) : Michelson.Outcome AnonFunction _) :=
  fun d d' h => (evalAt_grows b _ d d' h).bind fun _ => .refl _ _

theorem exists_scope_iff {x : String} {w v : Michelson.Value AnonFunction} {b : Expression}
    {ρ : Env AnonFunction} :
    (∃ ρ' d, evalAt ctx d b ((x, w) :: ρ) >>= (fun r =>
        (.ok (r.1, r.2.tail) : Michelson.Outcome AnonFunction _)) = .ok (v, ρ')) ↔
      ∃ ρ', Evaluates ctx b ((x, w) :: ρ) v ρ' := by
  constructor
  · rintro ⟨ρ', d, h⟩
    obtain ⟨⟨u, ρ₁⟩, h₁, h⟩ := bind_eq_ok.1 h
    cases h
    exact ⟨ρ₁, d, h₁⟩
  · rintro ⟨ρ₁, d, h₁⟩
    exact ⟨ρ₁.tail, d, bind_eq_ok.2 ⟨(v, ρ₁), h₁, rfl⟩⟩

/-! ### The value -/

/-- The part that an evaluation comes to has the value of the whole. -/
theorem Enters.evaluates_iff (h : Enters ctx e ρ e₂ ρ₂) {v : Michelson.Value AnonFunction} :
    (∃ ρ', Evaluates ctx e ρ v ρ') ↔ ∃ ρ', Evaluates ctx e₂ ρ₂ v ρ' := by
  -- from the part outwards: each form returns what the part that it leads to returns
  induction h with
  | here => rfl
  | letIn he hb ih =>
    rw [← ih]
    constructor
    · rintro ⟨ρ', h⟩
      obtain ⟨w, ρ₁, ρ₂, he', hb', -⟩ := evaluates_letIn_iff.1 h
      obtain ⟨rfl, rfl⟩ := he.unique he'
      exact ⟨ρ₂, hb'⟩
    · rintro ⟨ρ₂, hb'⟩
      exact ⟨ρ₂.tail, evaluates_letIn_iff.2 ⟨_, _, ρ₂, he, hb', rfl⟩⟩
  | sequence ha hb ih =>
    rw [← ih]
    refine exists_congr fun ρ' => evaluates_sequence_iff.trans ⟨?_, fun h => ⟨_, _, ha, h⟩⟩
    rintro ⟨w, ρ₁, ha', hb'⟩
    obtain ⟨rfl, rfl⟩ := ha.unique ha'
    exact hb'
  | ifBool hc hab ih =>
    rename_i r ρ₁ _ _
    rw [← ih]
    refine exists_congr fun ρ' => ?_
    refine (evaluates_of_condition hc ?_).trans ?_
    · cases r
      · exact evalAt_grows _ _
      · exact evalAt_grows _ _
    · cases r <;> rfl
  | ifNone hc hn ih =>
    rw [← ih]
    exact exists_congr fun ρ' => evaluates_of_condition hc (evalAt_grows _ _)
  | ifSome hc hs ih =>
    rw [← ih, ← exists_scope_iff]
    exact exists_congr fun ρ' => evaluates_of_condition hc (grows_scope _ _ _ _)
  | left hc hl ih =>
    rw [← ih, ← exists_scope_iff]
    exact exists_congr fun ρ' => evaluates_of_condition hc (grows_scope _ _ _ _)
  | right hc hr ih =>
    rw [← ih, ← exists_scope_iff]
    exact exists_congr fun ρ' => evaluates_of_condition hc (grows_scope _ _ _ _)
  | ret he ih =>
    rw [← ih]
    constructor
    · rintro ⟨ρ', h⟩
      exact (evaluates_ret_iff.1 h).2
    · rintro ⟨ρ', h⟩
      exact ⟨[], evaluates_ret_iff.2 ⟨rfl, ρ', h⟩⟩

/-- The call of a function has the value of the part that its body comes to. -/
theorem Enters.call_iff {f : AnonFunction} {a : Michelson.Value AnonFunction}
    (h : Enters ctx f.result [(f.binder, a)] e₂ ρ₂) {v : Michelson.Value AnonFunction} :
    (∃ d, applyQuote ctx d f a = .ok v) ↔ ∃ ρ', Evaluates ctx e₂ ρ₂ v ρ' := by
  rw [← h.evaluates_iff]
  constructor
  · rintro ⟨d, hd⟩
    cases d with
    | zero => cases hd
    | succ d =>
      obtain ⟨r, h₁, rfl⟩ := map_eq_ok.1 hd
      exact ⟨r.2, d, h₁⟩
  · rintro ⟨ρ', d, h₁⟩
    exact ⟨d + 1, bind_eq_ok.2 ⟨_, h₁, rfl⟩⟩

/-! ### Where an evaluation comes to -/

/-- An evaluation comes to smaller expressions only, or it is there. -/
theorem Enters.smaller (h : Enters ctx e ρ e₂ ρ₂) :
    (e = e₂ ∧ ρ = ρ₂) ∨ sizeOf e₂ < sizeOf e := by
  induction h with
  | here => exact .inl ⟨rfl, rfl⟩
  | ifBool hc hab ih =>
    rename_i r _ _ _
    refine .inr ?_
    -- whichever branch is taken, it is a part of the conditional
    cases r
    · obtain ⟨h, -⟩ | h := ih
      · subst h
        simp only [Bool.false_eq_true, if_false, Expression.mk.sizeOf_spec,
          Expression'.eIfBool.sizeOf_spec]
        omega
      · simp only [Bool.false_eq_true, if_false] at h
        simp only [Expression.mk.sizeOf_spec, Expression'.eIfBool.sizeOf_spec]
        omega
    · obtain ⟨h, -⟩ | h := ih
      · subst h
        simp only [if_true, Expression.mk.sizeOf_spec, Expression'.eIfBool.sizeOf_spec]
        omega
      · simp only [if_true] at h
        simp only [Expression.mk.sizeOf_spec, Expression'.eIfBool.sizeOf_spec]
        omega
  | letIn _ _ ih | sequence _ _ ih | ifNone _ _ ih | ifSome _ _ ih | left _ _ ih
  | right _ _ ih | ret _ ih =>
    refine .inr ?_
    simp only [Expression.mk.sizeOf_spec, Expression'.eLetIn.sizeOf_spec,
      Expression'.eSequence.sizeOf_spec, Expression'.eIfNone.sizeOf_spec,
      Expression'.eIfLeft.sizeOf_spec, Expression'.eEnvironmentReturn.sizeOf_spec]
    -- what is entered is one of the parts, or lies inside one
    obtain ⟨rfl, -⟩ | h := ih <;> omega

/-- An evaluation comes to the whole expression at its start only. -/
theorem enters_self_iff : Enters ctx e ρ e ρ₂ ↔ ρ = ρ₂ := by
  constructor
  · intro h
    obtain ⟨-, h⟩ | h := h.smaller
    · exact h
    · exact absurd h (lt_irrefl _)
  · rintro rfl
    exact .here e ρ

/-- An expression that an evaluation has gone past does not come again. -/
theorem Enters.not_larger {e₁ : Expression} {ρ₁ : Env AnonFunction}
    (h : Enters ctx e₁ ρ₁ e₂ ρ₂) (hsize : sizeOf e₁ < sizeOf e₂) : False := by
  obtain ⟨rfl, -⟩ | h := h.smaller
  · exact lt_irrefl _ hsize
  · omega

/-- An evaluation comes to an expression in one environment. -/
theorem Enters.unique {ρ₃ : Env AnonFunction} (h : Enters ctx e ρ e₂ ρ₂)
    (h' : Enters ctx e ρ e₂ ρ₃) : ρ₂ = ρ₃ := by
  -- in each case the other derivation takes the same branch, since the condition has one
  -- value, or it ends where it starts, in an expression that is too large
  induction h generalizing ρ₃ with
  | here => exact enters_self_iff.1 h'
  | letIn he hb ih =>
    cases h' with
    | here =>
      refine (hb.not_larger ?_).elim
      simp only [Expression.mk.sizeOf_spec, Expression'.eLetIn.sizeOf_spec]
      omega
    | letIn he' hb' =>
      obtain ⟨rfl, rfl⟩ := he.unique he'
      exact ih hb'
  | sequence ha hb ih =>
    cases h' with
    | here =>
      refine (hb.not_larger ?_).elim
      simp only [Expression.mk.sizeOf_spec, Expression'.eSequence.sizeOf_spec]
      omega
    | sequence ha' hb' =>
      obtain ⟨rfl, rfl⟩ := ha.unique ha'
      exact ih hb'
  | ifBool hc hab ih =>
    cases h' with
    | here =>
      refine (hab.not_larger ?_).elim
      simp only [Expression.mk.sizeOf_spec, Expression'.eIfBool.sizeOf_spec]
      split <;> omega
    | ifBool hc' hab' =>
      obtain ⟨hr, rfl⟩ := hc.unique hc'
      cases hr
      exact ih hab'
  | ifNone hc hn ih =>
    cases h' with
    | here =>
      refine (hn.not_larger ?_).elim
      simp only [Expression.mk.sizeOf_spec, Expression'.eIfNone.sizeOf_spec]
      omega
    | ifNone hc' hn' =>
      obtain ⟨-, rfl⟩ := hc.unique hc'
      exact ih hn'
    | ifSome hc' hs' => exact nomatch (hc.unique hc').1
  | ifSome hc hs ih =>
    cases h' with
    | here =>
      refine (hs.not_larger ?_).elim
      simp only [Expression.mk.sizeOf_spec, Expression'.eIfNone.sizeOf_spec]
      omega
    | ifNone hc' hn' => exact nomatch (hc.unique hc').1
    | ifSome hc' hs' =>
      obtain ⟨hw, rfl⟩ := hc.unique hc'
      cases hw
      exact ih hs'
  | left hc hl ih =>
    cases h' with
    | here =>
      refine (hl.not_larger ?_).elim
      simp only [Expression.mk.sizeOf_spec, Expression'.eIfLeft.sizeOf_spec]
      omega
    | left hc' hl' =>
      obtain ⟨hw, rfl⟩ := hc.unique hc'
      cases hw
      exact ih hl'
    | right hc' hr' => exact nomatch (hc.unique hc').1
  | right hc hr ih =>
    cases h' with
    | here =>
      refine (hr.not_larger ?_).elim
      simp only [Expression.mk.sizeOf_spec, Expression'.eIfLeft.sizeOf_spec]
      omega
    | left hc' hl' => exact nomatch (hc.unique hc').1
    | right hc' hr' =>
      obtain ⟨hw, rfl⟩ := hc.unique hc'
      cases hw
      exact ih hr'
  | ret he ih =>
    cases h' with
    | here =>
      refine (he.not_larger ?_).elim
      simp only [Expression.mk.sizeOf_spec, Expression'.eEnvironmentReturn.sizeOf_spec]
      omega
    | ret he' => exact ih he'

/-! ### Declarations -/

variable (ctx) in
/-- Evaluating the declarations `ds` one after the other from `ρ`, and binding their
values, leads to `ρ'`. -/
def Declares : List (String × Expression) → Env AnonFunction → Env AnonFunction → Prop
  | [], ρ, ρ' => ρ = ρ'
  | (x, e) :: ds, ρ, ρ' => ∃ w ρ₁, Evaluates ctx e ρ w ρ₁ ∧ Declares ds ((x, w) :: ρ₁) ρ'

/-- The declarations around a body of type `t`. -/
def lets (t : TypeValue) (ds : List (String × Expression)) (b : Expression) : Expression :=
  ds.foldr (fun d b => .mk (.eLetIn (d.1, d.2.typeValue) d.2 b) t) b

theorem sizeOf_lets (t : TypeValue) (ds : List (String × Expression)) (b : Expression) :
    sizeOf b ≤ sizeOf (lets t ds b) := by
  induction ds with
  | nil => exact le_rfl
  | cons d ds ih =>
    refine ih.trans ?_
    change _ ≤ sizeOf (Expression.mk (.eLetIn (d.1, d.2.typeValue) d.2 (lets t ds b)) t)
    simp only [Expression.mk.sizeOf_spec, Expression'.eLetIn.sizeOf_spec]
    omega

/-- A chain of `let`s comes to its body where its declarations lead. -/
theorem enters_lets_iff {t : TypeValue} {ds : List (String × Expression)} {b : Expression} :
    Enters ctx (lets t ds b) ρ b ρ₂ ↔ Declares ctx ds ρ ρ₂ := by
  induction ds generalizing ρ with
  | nil => exact enters_self_iff
  | cons d ds ih =>
    obtain ⟨x, e⟩ := d
    change Enters ctx (.mk (.eLetIn (x, e.typeValue) e (lets t ds b)) t) ρ b ρ₂ ↔
      ∃ w ρ₁, Evaluates ctx e ρ w ρ₁ ∧ Declares ctx ds ((x, w) :: ρ₁) ρ₂
    constructor
    · intro h
      have hsize := sizeOf_lets t ds b
      generalize hl : lets t ds b = l at h ih hsize
      cases h with
      | here =>
        -- the body is not the chain itself
        simp only [Expression.mk.sizeOf_spec, Expression'.eLetIn.sizeOf_spec] at hsize
        omega
      | letIn he hb => exact ⟨_, _, he, ih.1 hb⟩
    · rintro ⟨w, ρ₁, he, hds⟩
      exact .letIn he (ih.2 hds)

end Ligo.MiniC
