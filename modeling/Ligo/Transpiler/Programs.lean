import Ligo.Compiler.Preservation
import Ligo.Transpiler.EntryScope
import Ligo.Transpiler.Preservation
import Ligo.Typer.Programs

/-!
# Typed code for typed programs

The code of a typed expression takes the stack of its environment to a value of the type of the
expression (`compiles_typed`), through the intermediate language.

`translateEntry` binds the declarations before the entry point around its body. In a typed
program of supported expressions, where no declaration hides the parameter, the body is typed
there, and it has no free names but the parameter. So the entry point becomes a function whose
body is well typed in the intermediate language (`translateEntry_typed`).
-/

namespace Ligo.Transpiler

open AstTyped
open CompilerProgram (WellTyped)
open Operators (Denotes)
open MiniC.Environment (tmpName)
open Typer (Typed TypedProgram)
open Fuel (bind_eq_ok)

variable {ctx : Michelson.Context}

/-! ### Expressions -/

/-- **Types are preserved down to the code.** A typed expression compiles in every environment
that binds its free names to their types, and the code has the type of the expression. -/
theorem compiles_typed {Γ : Typer.Context} {env : MiniC.Environment}
    {ae : AnnotatedExpression} {s : Michelson.StackTy} (h : Typed Γ ae) (hs : Supported ctx ae)
    (henv : Reflects Γ env ae) (hstack : CompilerType.Ty.environment env = .ok s) :
    ∃ e code u, translateAnnotatedExpression ae = .ok e ∧
      Denotes ae.typeAnnot e.typeValue u ∧
      CompilerProgram.translateExpression ctx e env =
        .ok (code, (tmpName, e.typeValue) :: env) ∧ Michelson.Types ctx code s (u :: s) := by
  obtain ⟨e, he⟩ := translate_typed h hs henv
  obtain ⟨-, hpreserves⟩ := CompilerProgram.holds_of_derivable he.typed
  obtain ⟨code, u, hcode, hu, htypes⟩ := hpreserves env s (fun _ _ => rfl) hstack
  exact ⟨e, code, u, he.eq, ⟨he.type, hu⟩, hcode, htypes⟩

/-- A type that can be written into the code and is within the limit. -/
theorem Expressible.intro {t : TypeValue} {σ : MiniC.TypeValue} {u : Michelson.Ty}
    {n : Michelson.Node} (hσ : translateType t = .ok σ) (hu : CompilerType.Ty.type_ σ = .ok u)
    (ha : u.allowed true = true) (hwithin : ctx.admits u = true)
    (hn : CompilerType.type_ σ = .ok n) : Expressible ctx t :=
  ⟨σ, hσ, ⟨u, hu, ha, hwithin⟩, n, hn⟩

/-- `x + 1` where `x` is an integer. -/
theorem increment_typed :
    let env : FullEnvironment := .mk [("x", .mk tInt .binder)] []
    let ae : AnnotatedExpression := .mk (.eConstant "ADD" [.mk (.eVariable "x") tInt env,
      .mk (.eLiteral (.int ⟨1, OInt.one_mem⟩)) tInt env]) tInt env
    ∃ e code u, translateAnnotatedExpression ae = .ok e ∧ Denotes tInt e.typeValue u ∧
      CompilerProgram.translateExpression .empty e [("x", .tBase .int)] =
        .ok (code, [(tmpName, e.typeValue), ("x", .tBase .int)]) ∧
      Michelson.Types .empty code [.comparable .int] [u, .comparable .int] := by
  intro env ae
  have hint : Expressible .empty tInt := .intro rfl rfl rfl rfl rfl
  refine @compiles_typed .empty (fun _ => some tInt) _ ae _
    (.constant ?_ (.operator (.addInt (e := none)) fun h => absurd h (by decide)))
    (.constant hint ?_ fun h => absurd h (by decide)) ?_ rfl
  · exact List.forall_mem_cons.2 ⟨.variable' rfl, List.forall_mem_singleton.2 .literal⟩
  · refine List.forall_mem_cons.2 ⟨.variable' hint (by decide) rfl rfl, ?_⟩
    exact List.forall_mem_singleton.2 (.literal hint trivial)
  · intro x hx t ht
    cases ht
    obtain rfl : x = "x" := List.mem_singleton.1 hx
    exact ⟨_, rfl, rfl⟩

/-! ### The declarations around a body -/

section Wrap

variable {Γ Δ : Typer.Context} {p : Program} {r : AnnotatedExpression}

theorem typedProgram_weaken (h : TypedProgram Γ p) (hsub : Γ.Within Δ) : TypedProgram Δ p := by
  induction p generalizing Γ Δ with
  | nil => trivial
  | cons d p ih => exact ⟨h.1.weaken hsub, ih h.2 (hsub.bind _ _)⟩

/-- Declarations of other names may come before a binding or after it. -/
theorem declare_bind {b : String} {t : TypeValue} (hb : b ∉ p.map Declaration.name) :
    (Γ.bind b t).declare p = (Γ.declare p).bind b t := by
  induction p generalizing Γ with
  | nil => rfl
  | cons d p ih =>
    rw [List.map_cons, List.mem_cons, not_or] at hb
    have hrest := ih (Γ := Γ.bind d.name d.annotatedExpression.typeAnnot) hb.2
    rw [← Typer.Context.bind_comm hb.1] at hrest
    exact hrest

theorem typed_wrap (h : TypedProgram Γ p) (hr : Typed (Γ.declare p) r) : Typed Γ (wrap p r) := by
  induction p generalizing Γ with
  | nil => exact hr
  | cons d p ih => exact .letIn h.1 (ih h.2 hr) rfl

theorem supported_wrap
    (hp : ∀ d ∈ p, Supported ctx d.annotatedExpression ∧ d.name ≠ tmpName)
    (hr : Supported ctx r) : Supported ctx (wrap p r) := by
  induction p with
  | nil => exact hr
  | cons d p ih =>
    obtain ⟨⟨hd, hname⟩, hp⟩ := List.forall_mem_cons.1 hp
    have hrest := ih hp
    exact .letIn hrest.expressible hname hd hrest

end Wrap

/-! ### The entry point -/


/-- What the transpiler relies on in a program with the entry point `l`, which comes after the
declarations `before`. -/
structure SupportedEntry (ctx : Michelson.Context) (before : Program) (l : Lambda) : Prop where
  declarations : ∀ d ∈ before, Supported ctx d.annotatedExpression ∧ d.name ≠ tmpName
  body : Supported ctx l.result
  binder : l.binder ≠ tmpName
  /-- No declaration hides the parameter. -/
  apart : l.binder ∉ before.map Declaration.name

/-- The context without variables. -/
def emptyContext : Typer.Context := fun _ => none

variable {p before : Program} {name b : String} {i o : TypeValue} {r : AnnotatedExpression}

/-- The body of an entry point, below its parameter and the declarations. -/
theorem typed_body (hbefore : TypedProgram emptyContext before)
    (hbody : Typed ((emptyContext.declare before).bind b i) r)
    (hb : b ∉ before.map Declaration.name) : Typed (emptyContext.bind b i) (wrap before r) := by
  have hsub : emptyContext.Within (emptyContext.bind b i) := nofun
  refine typed_wrap (typedProgram_weaken hbefore hsub) ?_
  rw [declare_bind hb]
  exact hbody

/-- The entry point of a typed program becomes a function with a well-typed body. -/
theorem translateEntry_typed {ι : MiniC.TypeValue}
    (hl : FirstDeclaration p name before (.mk b i o r))
    (hbefore : TypedProgram emptyContext before)
    (hbody : Typed ((emptyContext.declare before).bind b i) r) (ho : r.typeAnnot = o)
    (hs : SupportedEntry ctx before (.mk b i o r)) (hι : translateType i = .ok ι) :
    ∃ e, translateEntry p name = .ok (.mk b ι e.typeValue (ezEReturn e)) ∧
      translateType o = .ok e.typeValue ∧ WellTyped ctx [(b, ι)] e := by
  obtain ⟨d, after, rfl, hname, hfirst, hlam⟩ := hl
  have htyped := typed_body hbefore hbody hs.apart
  -- nothing but the parameter is free below the lambda
  have hfree : ∀ x ∈ FreeNames.annotatedExpression [] (wrap before r), x = b := by
    intro x hx
    by_contra hne
    obtain ⟨t, ht⟩ := htyped.exists_of_free x hx
    rw [Typer.Context.bind_of_ne hne] at ht
    cases ht
  have hfv : FreeVariables.annotatedExpression [b] (wrap before r) = [] := by
    refine List.eq_nil_iff_forall_not_mem.2 fun x hx => ?_
    obtain ⟨hxb, hx⟩ := FreeNames.mem_iff.1 (FreeVariables.mem_freeNames hx)
    exact hxb (List.mem_singleton.2 (hfree x hx))
  have henv : Reflects (emptyContext.bind b i) [(b, ι)] (wrap before r) := by
    intro x hx t ht
    obtain rfl := hfree x hx
    rw [Typer.Context.bind_self] at ht
    cases ht
    exact ⟨ι, hι, if_pos rfl⟩
  obtain ⟨e, he⟩ := translate_typed htyped (supported_wrap hs.declarations hs.body) henv
  have htype := he.type
  rw [typeAnnot_wrap, ho] at htype
  refine ⟨e, ?_, htype, he.typed⟩
  rw [translateEntry, translateEntryAux_eq hname hfirst, entryLambda, hlam]
  exact translateMain_eq hfv he.eq hι htype

end Ligo.Transpiler
