import Ligo.AppendTree.Shape
import Ligo.Compiler.Calls
import Ligo.Main.ValueTypes
import Ligo.Operators.Agreement
import Ligo.Transpiler.ListLiteral
import Ligo.Transpiler.Match

/-!
# Expressions that compute values

An expression of the intermediate language that is built from literals and constants alone
compiles in every environment and computes one value there (`Computes`). The lemmas say so of
the expressions that the transpiler builds for the values of the source, one for each form. A
form whose code makes a type has to keep within the limit on the size of types; the injections
are not checked against it.
-/

namespace Ligo.Main

open AstTyped Michelson
open MiniC (Plain)
open CompilerProgram (WellTyped WellFormed Fits compileQuote)
open Fuel (bind_eq_ok)

variable {ctx : Context}

variable (ctx) in
/-- The expression has type `tv`; it compiles in every environment and computes `w` there. -/
structure Computes (tv : MiniC.TypeValue) (e : MiniC.Expression) (w : Michelson.Value Node) :
    Prop where
  typeValue : e.typeValue = tv
  wellTyped : ∀ env, WellTyped ctx env e
  plain : Plain e
  eval : ∀ exec n ρ, MiniC.eval ctx (compileQuote ctx) exec n e ρ = .ok (w, ρ)

variable {tv tv₁ tv₂ tv₃ : MiniC.TypeValue} {τ τ₁ τ₂ τ₃ : Ty} {e e₁ e₂ e₃ : MiniC.Expression}
  {w w₁ w₂ w₃ : Michelson.Value Node} {name : String}

/-! ### Constants -/

/-- A constant of one argument runs its code below the value of the argument. -/
theorem Computes.constant1 (h₁ : Computes ctx tv₁ e₁ w₁) (hs₁ : Storable tv₁ τ₁)
    (hs : Storable tv τ) (hfits : Fits ctx name tv [e₁] [τ₁] τ)
    (hconstant : MiniC.constant ctx tv name [w₁] = .ok w) :
    Computes ctx tv (.mk (.eConstant name [e₁]) tv) w where
  typeValue := rfl
  wellTyped env := by
    refine .constant (List.forall_mem_singleton.2 (h₁.wellTyped env)) ?_ hs.known hs.typed hfits
    rw [List.mapM_cons, h₁.typeValue, hs₁.typed]
    rfl
  plain := ⟨h₁.plain, trivial⟩
  eval exec n ρ := by
    exact MiniC.eval_eConstant (MiniC.evalArguments_singleton (h₁.eval exec n ρ)) hconstant

theorem Computes.constant2 (h₁ : Computes ctx tv₁ e₁ w₁) (h₂ : Computes ctx tv₂ e₂ w₂)
    (hs₁ : Storable tv₁ τ₁) (hs₂ : Storable tv₂ τ₂) (hs : Storable tv τ)
    (hfits : Fits ctx name tv [e₁, e₂] [τ₁, τ₂] τ)
    (hconstant : MiniC.constant ctx tv name [w₁, w₂] = .ok w) :
    Computes ctx tv (.mk (.eConstant name [e₁, e₂]) tv) w where
  typeValue := rfl
  wellTyped env := by
    refine .constant ?_ ?_ hs.known hs.typed hfits
    · exact List.forall_mem_cons.2 ⟨h₁.wellTyped env, List.forall_mem_singleton.2 (h₂.wellTyped env)⟩
    · rw [List.mapM_cons, List.mapM_cons, h₁.typeValue, h₂.typeValue, hs₁.typed, hs₂.typed]
      rfl
  plain := ⟨h₁.plain, h₂.plain, trivial⟩
  eval exec n ρ := by
    have hw₂ := MiniC.evalArguments_singleton (h₂.eval exec n ρ)
    have hargs := MiniC.evalArguments_cons hw₂ (h₁.eval exec n ρ)
    exact MiniC.eval_eConstant hargs hconstant

/-- A constant of three arguments. -/
theorem Computes.constant3 (h₁ : Computes ctx tv₁ e₁ w₁) (h₂ : Computes ctx tv₂ e₂ w₂)
    (h₃ : Computes ctx tv₃ e₃ w₃) (hs₁ : Storable tv₁ τ₁) (hs₂ : Storable tv₂ τ₂)
    (hs₃ : Storable tv₃ τ₃) (hs : Storable tv τ)
    (hfits : Fits ctx name tv [e₁, e₂, e₃] [τ₁, τ₂, τ₃] τ)
    (hconstant : MiniC.constant ctx tv name [w₁, w₂, w₃] = .ok w) :
    Computes ctx tv (.mk (.eConstant name [e₁, e₂, e₃]) tv) w where
  typeValue := rfl
  wellTyped env := by
    refine .constant ?_ ?_ hs.known hs.typed hfits
    · refine List.forall_mem_cons.2 ⟨h₁.wellTyped env, ?_⟩
      exact List.forall_mem_cons.2 ⟨h₂.wellTyped env, List.forall_mem_singleton.2 (h₃.wellTyped env)⟩
    · rw [List.mapM_cons, List.mapM_cons, List.mapM_cons, h₁.typeValue, h₂.typeValue, h₃.typeValue,
        hs₁.typed, hs₂.typed, hs₃.typed]
      rfl
  plain := ⟨h₁.plain, h₂.plain, h₃.plain, trivial⟩
  eval exec n ρ := by
    have hw₃ := MiniC.evalArguments_singleton (h₃.eval exec n ρ)
    have hw₂ := MiniC.evalArguments_cons hw₃ (h₂.eval exec n ρ)
    have hargs := MiniC.evalArguments_cons hw₂ (h₁.eval exec n ρ)
    exact MiniC.eval_eConstant hargs hconstant

/-- Pairs and options make types, which have to be within the limit. -/
theorem Computes.pair (h₁ : Computes ctx tv₁ e₁ w₁) (h₂ : Computes ctx tv₂ e₂ w₂)
    (hs₁ : Storable tv₁ τ₁) (hs₂ : Storable tv₂ τ₂)
    (hwithin : ctx.admits (.pair τ₁ τ₂) = true) :
    Computes ctx (.tPair tv₁ tv₂) (Transpiler.pairExpression e₁ e₂) (.pair w₁ w₂) := by
  rw [Transpiler.pairExpression, h₁.typeValue, h₂.typeValue]
  exact h₁.constant2 h₂ hs₁ hs₂ (hs₁.pair hs₂)
    (CompilerProgram.fits_of_predicates rfl rfl fun _ => types_iPair hwithin) rfl

theorem Computes.some (h₁ : Computes ctx tv₁ e₁ w₁) (hs₁ : Storable tv₁ τ₁)
    (hwithin : ctx.admits (.option τ₁) = true) :
    Computes ctx (.tOption tv₁) (.mk (.eConstant "SOME" [e₁]) (.tOption tv₁)) (.some w₁) :=
  h₁.constant1 hs₁ hs₁.option
    (CompilerProgram.fits_of_predicates rfl rfl fun _ => Operators.types_iSome_iff.2 hwithin) rfl

/-- The limit concerns the Michelson type. -/
theorem Storable.within (hs : Storable tv τ) (hwithin : ctx.admits τ = true) :
    CompilerProgram.Within ctx tv := by
  intro u hu
  obtain rfl : τ = u := Except.ok.inj (hs.typed.symm.trans hu)
  exact hwithin

/-- Injections are constants that name the other type of the sum. -/
theorem Computes.left (h₁ : Computes ctx tv₁ e₁ w₁) (hs₁ : Storable tv₁ τ₁)
    (hs₂ : Storable tv₂ τ₂) :
    Computes ctx (.tOr tv₁ tv₂) (.mk (.eConstant "LEFT" [e₁]) (.tOr tv₁ tv₂)) (.left w₁) := by
  obtain ⟨n, hn⟩ := hs₂.compiled
  have hfits : Fits ctx "LEFT" (.tOr tv₁ tv₂) [e₁] [τ₁] (.or τ₁ τ₂) :=
    CompilerProgram.fits_left hs₂.typed hn (Ty.allowed_of_false hs₂.allowed)
  exact h₁.constant1 hs₁ (hs₁.or hs₂) hfits rfl

theorem Computes.right (h₂ : Computes ctx tv₂ e₂ w₂) (hs₁ : Storable tv₁ τ₁)
    (hs₂ : Storable tv₂ τ₂) :
    Computes ctx (.tOr tv₁ tv₂) (.mk (.eConstant "RIGHT" [e₂]) (.tOr tv₁ tv₂)) (.right w₂) := by
  obtain ⟨n, hn⟩ := hs₁.compiled
  have hfits : Fits ctx "RIGHT" (.tOr tv₁ tv₂) [e₂] [τ₂] (.or τ₁ τ₂) :=
    CompilerProgram.fits_right hs₁.typed hn (Ty.allowed_of_false hs₁.allowed)
  exact h₂.constant1 hs₂ (hs₁.or hs₂) hfits rfl

/-! ### Lists and maps -/

section Sum

variable {ι : Type} {keys : ι → String} {ts : ι → AstTyped.TypeValue}
  {tvs : ι → MiniC.TypeValue} {τs : ι → Ty} {i : ι} {x : AnnotatedExpression}
  {tree : AppendTree ι}

end Sum

end Ligo.Main
