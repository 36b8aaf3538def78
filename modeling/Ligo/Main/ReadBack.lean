import Ligo.Compiler.Uncompiler
import Ligo.Main.ValueTypes
import Ligo.Transpiler.Match

/-!
# Reading values back

What the uncompiler and `untranspile` make of a Michelson value at a type of values
(`ReadsBack`): one lemma for each form, from what they make of the parts. The components of a
product or a sum are found on the append tree that `untranspile` rebuilds from the type alone.
-/

namespace Ligo.Main

open AstTyped Michelson
open AppendTree (overFin)
open Fuel (bind_eq_ok map_eq_ok map₂_eq_ok)

variable {ctx : Context}

variable (ctx) in
/-- The Michelson value is uncompiled, and then read at `t` as a value that denotes `d`. -/
def ReadsBack (t : TypeValue) (τ : Ty) (w : Michelson.Value Node) (d : Datum) : Prop :=
  ∃ v ae, Uncompiler.translateValue ctx τ w = .ok v ∧ Transpiler.untranspile t v = .ok ae ∧
    valueOf ae = some d

instance : Nonempty MiniC.Value := ⟨.dUnit⟩

instance : Nonempty AnnotatedExpression := ⟨makeAEEmpty (.eLiteral .unit) tUnit⟩

/-! ### Lists of results -/

section Lists

variable {α β γ : Type} {xs : List α}

variable {ae : α → AnnotatedExpression} {d : α → Datum}

end Lists

/-! ### Options, lists and maps -/

section Containers

variable {t : TypeValue} {τ : Ty}

theorem ReadsBack.some {w : Michelson.Value Node} {d : Datum} (h : ReadsBack ctx t τ w d) :
    ReadsBack ctx (tOption t) (.option τ) (.some w) (.some d) := by
  obtain ⟨v, ae, hv, hae, hd⟩ := h
  have hsome : Uncompiler.translateValue ctx (.option τ) (.some w) = .ok (.dSome v) := by
    rw [Uncompiler.translateValue, hv]
    rfl
  refine ⟨.dSome v, eASome ae Environment.fullEmpty, hsome, ?_, ?_⟩
  · have hget : Transpiler.getOption (.dSome v) = .ok (Option.some v) := rfl
    exact bind_eq_ok.2 ⟨Option.some v, hget, map_eq_ok.2 ⟨ae, hae, rfl⟩⟩
  · change (valueOf ae).map Datum.some = _
    rw [hd]
    rfl

variable {α : Type} {xs : List α} {ws : α → Michelson.Value Node} {ds : α → Datum}

end Containers

/-! ### Products and sums -/

section Components

variable {n : ℕ} {ts : Fin (n + 1) → TypeValue} {τs : Fin (n + 1) → Ty}
  {ws : Fin (n + 1) → Michelson.Value Node} {ds : Fin (n + 1) → Datum}

end Components

end Ligo.Main
