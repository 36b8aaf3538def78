import Ligo.AstTyped.Misc

/-!
# The environment of the type checker

The environment of the typed expressions together with the declared types, which only the
type checker reads. Both are lists of small environments, the innermost first, and what is
added is added to the innermost one.
-/

namespace Ligo.Typer

open AstTyped

/-- `type_environment`. -/
abbrev TypeEnvironment := List (String × TypeValue)

/-- `full_environment`; the type environments of the small environments are kept apart from
their elements. -/
structure Environment where
  elements : FullEnvironment
  typesHd : TypeEnvironment
  typesTl : List TypeEnvironment

namespace Environment

def fullEmpty : Environment := ⟨AstTyped.Environment.fullEmpty, [], []⟩

/-- Add an element to the innermost small environment. -/
def add (k : String) (v : EnvironmentElement) (e : Environment) : Environment :=
  match e.elements with
  | .mk hd tl => { e with elements := .mk ((k, v) :: hd) tl }

/-- `make_element_binder`. -/
def makeElementBinder (typeValue : TypeValue) : EnvironmentElement := .mk typeValue .binder

/-- `make_element_declaration`. -/
def makeElementDeclaration (ae : AnnotatedExpression) : EnvironmentElement :=
  .mk ae.typeAnnot (.declaration ae (FreeVariables.annotatedExpression [] ae))

def addEzBinder (k : String) (v : TypeValue) (e : Environment) : Environment :=
  add k (makeElementBinder v) e

def addEzDeclaration (k : String) (ae : AnnotatedExpression) (e : Environment) : Environment :=
  add k (makeElementDeclaration ae) e

def addType (k : String) (v : TypeValue) (e : Environment) : Environment :=
  { e with typesHd := (k, v) :: e.typesHd }

def getOpt (k : String) (e : Environment) : Option EnvironmentElement :=
  AstTyped.Environment.getOpt k e.elements

def getTypeOpt (k : String) (e : Environment) : Option TypeValue :=
  (e.typesHd :: e.typesTl).findSome? fun types => types.lookup k

/-- The parameter and the sum of a constructor, when the type is a sum that has it. -/
def constructorOf (k : String) (x : String × TypeValue) : Option (TypeValue × TypeValue) :=
  match x.2 with
  | .tSum m => (m.lookup k).map fun t => (t, x.2)
  | _ => none

/-- `get_constructor`: on the left what the constructor takes, on the right the sum type. -/
def getConstructor (k : String) (e : Environment) : Option (TypeValue × TypeValue) :=
  (e.typesHd :: e.typesTl).findSome? fun types => types.findSome? (constructorOf k)

end Environment

/-- The type of an element. -/
def elementType : EnvironmentElement → TypeValue
  | .mk t _ => t

@[simp] theorem elements_add (k : String) (v : EnvironmentElement) (e : Environment) :
    (Environment.add k v e).elements =
      match e.elements with | .mk hd tl => .mk ((k, v) :: hd) tl := by
  obtain ⟨⟨hd, tl⟩, types, typesTl⟩ := e
  rfl

end Ligo.Typer
