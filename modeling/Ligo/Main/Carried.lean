import Ligo.Main.Computes
import Ligo.Main.ReadBack

/-!
# Values that are carried over

A value of the source is transpiled to an expression that computes a Michelson value
(`Computes`), which is read back (`ReadsBack`). The two are put together form by form, along the
structure of the value (`Carried`).

The literals have to be ones that the protocol accepts (`Admissible`): a natural number or an
amount is not negative, and a string is printable. The types that are built on the way have to
be within the limit on the size of types.
-/

namespace Ligo.Main

open AstTyped Michelson
open AppendTree (overFin)
open Fuel (bind_eq_ok)
open Outcome (ok_bind)
open Transpiler (translateAnnotatedExpression)

variable {ctx : Context}

variable (ctx) in
/-- The value `ae` of type `t` is transpiled to an expression that computes `w`, which is read
back as what the value denotes. -/
structure Carried (t : TypeValue) (ae : AnnotatedExpression) (tv : MiniC.TypeValue) (τ : Ty)
    (e : MiniC.Expression) (w : Michelson.Value Node) (d : Datum) : Prop where
  stored : Stored t tv τ
  translated : translateAnnotatedExpression ae = .ok e
  computes : Computes ctx tv e w
  readsBack : ReadsBack ctx t τ w d
  value : valueOf ae = some d

/-! ### Literals -/

section Literals

variable {l : Literal} {t : TypeValue} {env : FullEnvironment}

end Literals

/-! ### Options, lists and maps -/

section Containers

variable {o t k v : TypeValue} {tv tk : MiniC.TypeValue} {τ : Ty} {c : ComparableTy}
  {x : AnnotatedExpression} {env : FullEnvironment} {e : MiniC.Expression}
  {w : Michelson.Value Node} {d : Datum}

theorem Carried.some (h : Carried ctx o x tv τ e w d)
    (hwithin : ctx.admits (.option τ) = true) :
    Carried ctx (tOption o) (.mk (.eConstant "SOME" [x]) (tOption o) env) (.tOption tv) (.option τ)
      (.mk (.eConstant "SOME" [e]) (.tOption tv)) (.some w) (.some d) where
  stored := h.stored.option
  translated := by
    have hargs : bindList (Transpiler.translateAll [x]) = .ok [e] :=
      bindList_eq_ok.2 (.cons h.translated .nil)
    rw [Transpiler.translate_mk h.stored.option.1, Transpiler.translateExpression, hargs]
    rfl
  computes := h.computes.some h.stored.2 hwithin
  readsBack := h.readsBack.some
  value := by
    change (valueOf x).map Datum.some = _
    rw [h.value]
    rfl

variable {lst : List AnnotatedExpression} {es : AnnotatedExpression → MiniC.Expression}
  {ws : AnnotatedExpression → Michelson.Value Node} {ds : AnnotatedExpression → Datum}

variable {m : List (AnnotatedExpression × AnnotatedExpression)}
  {ek ev : AnnotatedExpression × AnnotatedExpression → MiniC.Expression}
  {atoms : AnnotatedExpression × AnnotatedExpression → Atom}
  {wv : AnnotatedExpression × AnnotatedExpression → Michelson.Value Node}
  {dk dv : AnnotatedExpression × AnnotatedExpression → Datum}

end Containers

/-! ### Products and sums -/

section Components

variable {n : ℕ} {ts : Fin (n + 1) → TypeValue} {tvs : Fin (n + 1) → MiniC.TypeValue}
  {τs : Fin (n + 1) → Ty} {es : Fin (n + 1) → AnnotatedExpression}
  {es' : Fin (n + 1) → MiniC.Expression} {ws : Fin (n + 1) → Michelson.Value Node}
  {ds : Fin (n + 1) → Datum} {env : FullEnvironment}

variable {keys : Fin (n + 1) → String}

end Components

end Ligo.Main
