import Ligo.MiniC.Types

/-!
# Compile-time environments

An environment lists the bindings in scope, newest first; a name may occur several
times. Look-up (`getI`) finds the newest binding. `select` keeps the bindings a
list of names asks for, and hands the names out starting from the *oldest*
binding: a name that is listed once keeps its oldest binding only.
-/

namespace Ligo.MiniC.Environment

variable {α : Type}

/-- The name under which the value of an expression lies on the stack. No identifier
of the source languages has it. -/
abbrev tmpName : String := "_tmp_expression"

def add (x : String × TypeValue) (env : Environment) : Environment := x :: env

def getNames (env : Environment) : List String := env.map Prod.fst

/-- Take a name off the selector if it is there. -/
def selectStep (selector : List String) (entry : String × α) : List String × Bool :=
  if entry.1 ∈ selector then (selector.erase entry.1, true) else (selector, false)

/-- Every binding with whether the selector keeps it. -/
def selected (lst : List String) (env : List (String × α)) : List ((String × α) × Bool) :=
  env.zip (foldMapRight selectStep lst env)

/-- The bindings that a list of names keeps. -/
def select (lst : List String) (env : List (String × α)) : List (String × α) :=
  ((selected lst env).filter Prod.snd).map Prod.fst

/-- The type of the captured values, nested to the left. -/
def closureRepresentation : Environment → TypeValue
  | [] => .tBase .unit
  | [a] => a.2
  | hd :: tl => tl.foldl (fun acc cur => .tPair acc cur.2) hd.2

end Ligo.MiniC.Environment
