import Ligo.Library.Scope
import Ligo.MiniC.Types

/-!
# The names of an expression

`Uses` says that an expression takes a name from its environment: it reads it, captures it
or assigns to it where nothing in the expression binds the name. The body of a function
literal counts, below its parameter. An expression that loads an environment replaces the
bindings for what comes after it in a sequence.
-/

namespace Ligo.MiniC

/-- The names that an expression loads as the environment of what follows. -/
def loaded' : Expression' → List String
  | .eEnvironmentLoad _ env => Scope.names env
  | _ => []

def loaded : Expression → List String
  | .mk e _ => loaded' e

mutual

/-- The expression takes `x` from its environment. -/
def Uses (x : String) : Expression → Prop
  | .mk e _ => Uses' x e

def Uses' (x : String) : Expression' → Prop
  | .eLiteral v => UsesValue x v
  | .eSkip | .eEnvironmentSelect _ => False
  | .eMakeEmptyMap _ _ | .eMakeEmptyList _ | .eMakeNone _ => False
  | .eEnvironmentCapture selector => x ∈ selector
  | .eEnvironmentLoad e _ | .eEnvironmentReturn e => Uses x e
  | .eConstant _ lst => UsesAny x lst
  | .eApplication a b | .eWhile a b => Uses x a ∨ Uses x b
  | .eVariable y => y = x
  | .eIfBool c a b => Uses x c ∨ Uses x a ∨ Uses x b
  | .eIfNone c n y s => Uses x c ∨ Uses x n ∨ x ≠ y.1 ∧ Uses x s
  | .eIfLeft c y l z r => Uses x c ∨ x ≠ y.1 ∧ Uses x l ∨ x ≠ z.1 ∧ Uses x r
  | .eLetIn y e b => Uses x e ∨ x ≠ y.1 ∧ Uses x b
  | .eSequence a b => Uses x a ∨ x ∉ loaded a ∧ Uses x b
  | .eAssignment y _ e => y = x ∨ Uses x e

/-- A function literal takes what its body takes and its parameter does not bind; the other
literals of a program hold no function. -/
def UsesValue (x : String) : Value → Prop
  | .dFunction f => UsesFunction x f
  | _ => False

def UsesFunction (x : String) : AnonFunction → Prop
  | .mk b _ _ r => x ≠ b ∧ Uses x r

def UsesAny (x : String) : List Expression → Prop
  | [] => False
  | e :: lst => Uses x e ∨ UsesAny x lst

end

end Ligo.MiniC
