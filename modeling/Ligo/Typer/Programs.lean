import Ligo.AstTyped.Names
import Ligo.Typer.Soundness

/-!
# Typed programs

A program is typed when each of its declarations is, in the context of the ones before it
(`TypedProgram`). The type checker returns such a program exactly when every declaration keeps
the conditions that it does not check, in the environment that the declaration is checked in
(`typedProgram_iff`).

A typed expression has its free names from its context (`Typed.exists_of_free`), and it stays
typed when the context grows (`Typed.weaken`).
-/

namespace Ligo.Typer

open AstTyped
open Fuel (bind_eq_ok)

/-! ### Contexts -/

/-- The variables of `Γ` have the same types in `Δ`. -/
def Context.Within (Γ Δ : Context) : Prop := ∀ x t, Γ x = some t → Δ x = some t

section Contexts

variable {Γ Δ : Context} {x : String} {t : TypeValue}

@[simp] theorem Context.bind_self : Γ.bind x t x = some t := if_pos rfl

/-- Binding a name changes no other. -/
theorem Context.bind_of_ne {y : String} (h : y ≠ x) : Γ.bind x t y = Γ y := if_neg h

/-- Different names can be bound in any order. -/
theorem Context.bind_comm {y : String} {s : TypeValue} (h : x ≠ y) :
    (Γ.bind x t).bind y s = (Γ.bind y s).bind x t := by
  funext z
  by_cases hx : z = x
  · subst hx
    rw [Context.bind_of_ne h, Context.bind_self, Context.bind_self]
  · by_cases hy : z = y
    · subst hy
      rw [Context.bind_self, Context.bind_of_ne hx, Context.bind_self]
    · rw [Context.bind_of_ne hy, Context.bind_of_ne hx, Context.bind_of_ne hx,
        Context.bind_of_ne hy]

theorem Context.Within.refl (Γ : Context) : Γ.Within Γ := fun _ _ h => h

/-- Both contexts extended alike. -/
theorem Context.Within.bind (h : Γ.Within Δ) (x : String) (t : TypeValue) :
    (Γ.bind x t).Within (Δ.bind x t) := by
  intro y s hy
  by_cases hyx : y = x
  · subst hyx
    rw [Context.bind_self] at hy ⊢
    exact hy
  · rw [Context.bind_of_ne hyx] at hy ⊢
    exact h y s hy

theorem Context.Within.bindAll (h : Γ.Within Δ) (lst : List (String × TypeValue)) :
    (Γ.bindAll lst).Within (Δ.bindAll lst) := by
  induction lst generalizing Γ Δ with
  | nil => exact h
  | cons b lst ih => exact ih (h.bind b.1 b.2)

/-- A name that is bound is one of the binders, or it was bound before. -/
theorem Context.exists_of_bind {y : String} (h : ∃ s, Γ.bind x t y = some s) (hy : y ≠ x) :
    ∃ s, Γ y = some s := by
  rwa [Context.bind_of_ne hy] at h

/-- A name that no pattern binds was bound before. -/
theorem Context.exists_of_bindAll {lst : List (String × TypeValue)} {y : String}
    (h : ∃ s, Γ.bindAll lst y = some s) (hy : y ∉ lst.map Prod.fst) : ∃ s, Γ y = some s := by
  induction lst generalizing Γ with
  | nil => exact h
  | cons b lst ih =>
    rw [List.map_cons, List.mem_cons, not_or] at hy
    exact Context.exists_of_bind (ih h hy.2) hy.1

end Contexts

/-! ### Growing the context -/

/-- The rules look at a context only through the types of variables. -/
theorem Typed.weaken {Γ Δ : Context} {ae : AnnotatedExpression} (h : Typed Γ ae)
    (hsub : Γ.Within Δ) : Typed Δ ae := by
  -- a binder extends both contexts, so inclusion goes below it
  induction h generalizing Δ with
  | literal => exact .literal
  | constant _ hconst ih => exact .constant (fun ae hae => ih ae hae hsub) hconst
  | variable' hx => exact .variable' (hsub _ _ hx)
  | application _ _ htype ihf iharg => exact .application (ihf hsub) (iharg hsub) htype
  | lambda _ htype ih => exact .lambda (ih (hsub.bind _ _)) htype
  | letIn _ _ htype ihrhs ihr => exact .letIn (ihrhs hsub) (ihr (hsub.bind _ _)) htype
  | tuple _ ih => exact .tuple fun ae hae => ih ae hae hsub
  | tupleAccessor _ htys hind ih => exact .tupleAccessor (ih hsub) htys hind
  | constructor' _ hlookup ih => exact .constructor' (ih hsub) hlookup
  | record _ ih => exact .record fun x hx => ih x hx hsub
  | recordAccessor _ hm hproperty ih => exact .recordAccessor (ih hsub) hm hproperty
  | map _ _ htypes ihk ihv =>
    exact .map (fun x hx => ihk x hx hsub) (fun x hx => ihv x hx hsub) htypes
  | list _ htypes ih => exact .list (fun ae hae => ih ae hae hsub) htypes
  | lookUp _ _ htype ihds ihi => exact .lookUp (ihds hsub) (ihi hsub) htype
  | matchBool _ hbool _ _ hat hbt ihex iha ihb =>
    exact .matchBool (ihex hsub) hbool (iha hsub) (ihb hsub) hat hbt
  | matchList _ hlist _ _ hnt hct ihex ihn ihc =>
    exact .matchList (ihex hsub) hlist (ihn hsub) (ihc ((hsub.bind _ _).bind _ _)) hnt hct
  | matchOption _ hoption _ _ hnt hst ihex ihn ihs =>
    exact .matchOption (ihex hsub) hoption (ihn hsub) (ihs (hsub.bind _ _)) hnt hst
  | matchTuple _ htuple hlength _ hbt ihex ihb =>
    exact .matchTuple (ihex hsub) htuple hlength (ihb (hsub.bindAll _)) hbt
  | matchVariant _ hsum howner _ htypes ihex ihlst =>
    exact .matchVariant (ihex hsub) hsum howner
      (fun x hx c hc => ihlst x hx c hc (hsub.bind _ _)) htypes
  | failwith _ ih => exact .failwith (ih hsub)
  | sequence _ hunit _ htype iha ihb => exact .sequence (iha hsub) hunit (ihb hsub) htype
  | loop _ hbool _ hunit ihex ihbody => exact .loop (ihex hsub) hbool (ihbody hsub) hunit
  | assign hx hpath _ ih => exact .assign (hsub _ _ hx) hpath (ih hsub)

/-! ### Free names -/

open FreeNames in
/-- The free names of a typed expression are those of its context. -/
theorem Typed.exists_of_free {Γ : Context} {ae : AnnotatedExpression} (h : Typed Γ ae) :
    ∀ x ∈ annotatedExpression [] ae, ∃ t, Γ x = some t := by
  -- a name that is free below a binder is not the binder
  have hbelow : ∀ {y : String} {ae : AnnotatedExpression} {x : String},
      x ∈ annotatedExpression [y] ae → x ≠ y ∧ x ∈ annotatedExpression [] ae := by
    intro y ae x hx
    obtain ⟨hxy, hx⟩ := FreeNames.mem_iff.1 hx
    exact ⟨fun h => hxy (List.mem_singleton.2 h), hx⟩
  induction h with
  | literal => exact fun _ hx => absurd hx List.not_mem_nil
  | constant _ _ ih | tuple _ ih | list _ _ ih =>
    intro x hx
    obtain ⟨ae, hae, hx⟩ := FreeNames.mem_all.1 hx
    exact ih ae hae x hx
  | variable' hΓ =>
    intro x hx
    obtain rfl := List.mem_singleton.1 hx
    exact ⟨_, hΓ⟩
  | application _ _ _ iha ihb | lookUp _ _ _ iha ihb | sequence _ _ _ _ iha ihb
  | loop _ _ _ _ iha ihb =>
    intro x hx
    exact (List.mem_append.1 hx).elim (iha x) (ihb x)
  | lambda _ _ ih =>
    intro x hx
    obtain ⟨hxb, hx⟩ := hbelow hx
    exact Context.exists_of_bind (ih x hx) hxb
  | letIn _ _ _ ihrhs ihr =>
    intro x hx
    refine (List.mem_append.1 hx).elim (fun hx => ?_) (ihrhs x)
    obtain ⟨hxb, hx⟩ := hbelow hx
    exact Context.exists_of_bind (ihr x hx) hxb
  | tupleAccessor _ _ _ ih | constructor' _ _ ih | recordAccessor _ _ _ ih | failwith _ ih =>
    exact ih
  | record _ ih =>
    intro x hx
    obtain ⟨y, hy, hx⟩ := FreeNames.mem_fields.1 hx
    exact ih y hy x hx
  | map _ _ _ ihk ihv =>
    intro x hx
    obtain ⟨y, hy, hx⟩ := FreeNames.mem_entries.1 hx
    exact hx.elim (ihk y hy x) (ihv y hy x)
  | matchBool _ _ _ _ _ _ ihex iha ihb =>
    intro x hx
    refine (List.mem_append.1 hx).elim (ihex x) fun hx => ?_
    exact (List.mem_append.1 hx).elim (iha x) (ihb x)
  | matchList _ _ _ _ _ _ ihex ihn ihc =>
    intro x hx
    refine (List.mem_append.1 hx).elim (ihex x) fun hx => ?_
    refine (List.mem_append.1 hx).elim (ihn x) fun hx => ?_
    obtain ⟨hxb, hx⟩ := FreeNames.mem_iff.1 hx
    rw [List.mem_cons, List.mem_singleton, not_or] at hxb
    exact Context.exists_of_bind (Context.exists_of_bind (ihc x hx) hxb.2) hxb.1
  | matchOption _ _ _ _ _ _ ihex ihn ihs =>
    intro x hx
    refine (List.mem_append.1 hx).elim (ihex x) fun hx => ?_
    refine (List.mem_append.1 hx).elim (ihn x) fun hx => ?_
    obtain ⟨hxb, hx⟩ := hbelow hx
    exact Context.exists_of_bind (ihs x hx) hxb
  | @matchTuple Γ ex lst tys b t env _ _ hlength _ _ ihex ihb =>
    intro x hx
    refine (List.mem_append.1 hx).elim (ihex x) fun hx => ?_
    obtain ⟨hxb, hx⟩ := FreeNames.mem_iff.1 hx
    refine Context.exists_of_bindAll (ihb x hx) fun hmem => hxb (List.mem_append_left _ ?_)
    rwa [List.map_fst_zip hlength.le] at hmem
  | matchVariant _ _ howner _ _ ihex ihlst =>
    intro x hx
    refine (List.mem_append.1 hx).elim (ihex x) fun hx => ?_
    obtain ⟨k, hk, hx⟩ := FreeNames.mem_variantCases.1 hx
    -- each clause is typed below its constructor, so there has to be one
    obtain ⟨c, hc⟩ := howner k hk
    obtain ⟨hxb, hx⟩ := hbelow hx
    exact Context.exists_of_bind (ihlst k hk c hc x hx) hxb
  | assign hΓ _ _ ih =>
    intro x hx
    refine (List.mem_append.1 hx).elim (fun hx => ?_) (ih x)
    obtain rfl := List.mem_singleton.1 hx
    exact ⟨_, hΓ⟩

/-! ### Programs -/

/-- The context after the declarations. -/
def Context.declare (Γ : Context) (p : Program) : Context :=
  p.foldl (fun Γ d => Γ.bind d.name d.annotatedExpression.typeAnnot) Γ

/-- Each declaration is typed in the context of the ones before it. -/
def TypedProgram (Γ : Context) : Program → Prop
  | [] => True
  | d :: p => Typed Γ d.annotatedExpression ∧
      TypedProgram (Γ.bind d.name d.annotatedExpression.typeAnnot) p

/-- Later declarations are typed below the earlier ones. -/
theorem TypedProgram.append_iff {Γ : Context} {p q : Program} :
    TypedProgram Γ (p ++ q) ↔ TypedProgram Γ p ∧ TypedProgram (Γ.declare p) q := by
  induction p generalizing Γ with
  | nil =>
    rw [List.nil_append, TypedProgram, true_and]
    rfl
  | cons d p ih =>
    rw [List.cons_append, TypedProgram, ih, TypedProgram, and_assoc]
    rfl

/-- The declarations keep the conditions that the type checker does not check. -/
def VettedProgram (e : Environment) : AstSimplified.Program → Prop
  | [] => True
  | .declarationType name te :: p =>
    ∀ tv, evaluateType e te = .ok tv → VettedProgram (Environment.addType name tv e) p
  | .declarationConstant name te expr :: p =>
    Vetted e (context e) (te.bind (evaluated e)) expr ∧
      ∀ ae, typeExpression e (te.bind (evaluated e)) expr = .ok ae →
        VettedProgram (Environment.addEzDeclaration name ae e) p

/-- Declaring a type binds no value. -/
theorem context_addType (e : Environment) (name : String) (tv : TypeValue) :
    context (Environment.addType name tv e) = context e := rfl

/-- What the type checker returns is typed exactly when the program keeps the conditions that
are not checked. -/
theorem typedProgram_iff {e : Environment} {p : AstSimplified.Program} {p' : Program}
    (h : typeDeclarations e p = .ok p') :
    TypedProgram (context e) p' ↔ VettedProgram e p := by
  induction p generalizing e p' with
  | nil =>
    cases h
    exact Iff.rfl
  | cons d p ih =>
    obtain ⟨⟨e', d'⟩, hd, h⟩ := bind_eq_ok.1 h
    obtain ⟨rest, hrest, hret⟩ := bind_eq_ok.1 h
    cases d with
    | declarationType name te =>
      obtain ⟨tv, htv, hd⟩ := bind_eq_ok.1 hd
      cases hd
      cases hret
      -- a declared type adds no variable to the context
      rw [← context_addType e name tv, ih hrest]
      refine ⟨fun hv tv' htv' => ?_, fun hv => hv tv htv⟩
      cases htv.symm.trans htv'
      exact hv
    | declarationConstant name te expr =>
      obtain ⟨tvOpt, htvOpt, hd⟩ := bind_eq_ok.1 hd
      obtain ⟨ae, hae, hd⟩ := bind_eq_ok.1 hd
      cases hd
      cases hret
      have hexpected : te.bind (evaluated e) = tvOpt := SameTypes.bindMapOption ⟨rfl, rfl⟩ htvOpt
      subst hexpected
      have hae' := trace_eq_ok.1 hae
      have hiff := typeExpression_sound_iff hae'
      rw [TypedProgram, ← context_addEzDeclaration, ih hrest, hiff, VettedProgram]
      refine and_congr_right fun _ => ⟨fun hv ae' hae'' => ?_, fun hv => hv ae hae'⟩
      cases hae'.symm.trans hae''
      exact hv

end Ligo.Typer
