import Ligo.MiniC.Types

/-!
# The typed source language

The types and expressions that the type checker hands to the transpiler. A map keyed by
strings is the list of its bindings with increasing keys. An expression carries its type
and the environment in which it was typed; of the elements of an environment the model
keeps the type and the definition.
-/

namespace Ligo.AstTyped

inductive TypeValue where
  | tTuple (lst : List TypeValue)
  | tSum (m : List (String × TypeValue))
  | tRecord (m : List (String × TypeValue))
  | tConstant (name : String) (lst : List TypeValue)
  | tFunction (param result : TypeValue)
  deriving Repr

inductive Literal where
  | unit
  | bool (b : Bool)
  | int (n : OInt)
  | nat (n : OInt)
  | tez (n : OInt)
  | string (s : String)
  | bytes (b : List UInt8)
  | address (s : String)
  | operation (op : Michelson.Value Michelson.Node)

/-- `named_type_value`. -/
structure NamedTypeValue where
  typeName : String
  typeValue : TypeValue

mutual

inductive Expression where
  | eLiteral (l : Literal)
  | eConstant (name : String) (lst : List AnnotatedExpression)
  | eVariable (name : String)
  | eApplication (f arg : AnnotatedExpression)
  | eLambda (l : Lambda)
  | eLetIn (binder : String) (rhs result : AnnotatedExpression)
  | eTuple (lst : List AnnotatedExpression)
  | eTupleAccessor (tpl : AnnotatedExpression) (ind : ℕ)
  | eConstructor (name : String) (param : AnnotatedExpression)
  | eRecord (m : List (String × AnnotatedExpression))
  | eRecordAccessor (record : AnnotatedExpression) (property : String)
  | eMap (m : List (AnnotatedExpression × AnnotatedExpression))
  | eList (lst : List AnnotatedExpression)
  | eLookUp (ds i : AnnotatedExpression)
  | eMatching (expr : AnnotatedExpression) (m : MatchingExpr)
  | eFailwith (ae : AnnotatedExpression)
  | eSequence (a b : AnnotatedExpression)
  | eLoop (expr body : AnnotatedExpression)
  | eAssign (typedName : NamedTypeValue) (path : List Access) (expr : AnnotatedExpression)

inductive AnnotatedExpression where
  | mk (expression : Expression) (typeAnnot : TypeValue) (environment : FullEnvironment)

inductive Lambda where
  | mk (binder : String) (inputType outputType : TypeValue) (result : AnnotatedExpression)

inductive MatchingExpr where
  | matchBool (matchTrue matchFalse : AnnotatedExpression)
  | matchList (matchNil : AnnotatedExpression) (hd tl : String) (matchCons : AnnotatedExpression)
  | matchOption (matchNone : AnnotatedExpression) (name : String) (tv : TypeValue)
      (matchSome : AnnotatedExpression)
  | matchTuple (lst : List String) (body : AnnotatedExpression)
  | matchVariant (lst : List ((String × String) × AnnotatedExpression)) (variant : TypeValue)

inductive Access where
  | tuple (ind : ℕ)
  | record (property : String)
  | map (key : AnnotatedExpression)

inductive EnvironmentElementDefinition where
  | binder
  | declaration (ae : AnnotatedExpression) (freeVariables : List String)

inductive EnvironmentElement where
  | mk (typeValue : TypeValue) (definition : EnvironmentElementDefinition)

/-- A non-empty list of small environments, the innermost first; each lists its bindings,
newest first. -/
inductive FullEnvironment where
  | mk (hd : List (String × EnvironmentElement)) (tl : List (List (String × EnvironmentElement)))

end

abbrev SmallEnvironment := List (String × EnvironmentElement)

namespace AnnotatedExpression

def expression : AnnotatedExpression → Expression
  | .mk e _ _ => e

def typeAnnot : AnnotatedExpression → TypeValue
  | .mk _ t _ => t

def environment : AnnotatedExpression → FullEnvironment
  | .mk _ _ env => env

end AnnotatedExpression

namespace Lambda

def binder : Lambda → String
  | .mk b _ _ _ => b

def result : Lambda → AnnotatedExpression
  | .mk _ _ _ r => r

end Lambda

/-- A declaration of a constant. -/
structure Declaration where
  name : String
  annotatedExpression : AnnotatedExpression
  preEnvironment : FullEnvironment
  postEnvironment : FullEnvironment

abbrev Program := List Declaration

/-! ### Environments -/

namespace Environment

def fullEmpty : FullEnvironment := .mk [] []

/-- `List.assoc_opt`: the first binding of a name. -/
def smallGetOpt (k : String) : SmallEnvironment → Option EnvironmentElement
  | [] => none
  | (k', v) :: env => if k = k' then some v else smallGetOpt k env

/-- The innermost binding of a name. -/
def getOpt (k : String) : FullEnvironment → Option EnvironmentElement
  | .mk hd tl => (hd :: tl).findSome? (smallGetOpt k)

end Environment

/-! ### Combinators -/

def tBool : TypeValue := .tConstant "bool" []
def tString : TypeValue := .tConstant "string" []
def tBytes : TypeValue := .tConstant "bytes" []
def tInt : TypeValue := .tConstant "int" []
def tAddress : TypeValue := .tConstant "address" []
def tOperation : TypeValue := .tConstant "operation" []
def tNat : TypeValue := .tConstant "nat" []
def tTez : TypeValue := .tConstant "tez" []
def tUnit : TypeValue := .tConstant "unit" []
def tOption (o : TypeValue) : TypeValue := .tConstant "option" [o]
def tList (t : TypeValue) : TypeValue := .tConstant "list" [t]
def tContract (t : TypeValue) : TypeValue := .tConstant "contract" [t]
def tMap (k v : TypeValue) : TypeValue := .tConstant "map" [k, v]

def getTTuple : TypeValue → Result (List TypeValue)
  | .tTuple lst => .ok lst
  | _ => simpleFail "not a tuple"

def getTPair : TypeValue → Result (TypeValue × TypeValue)
  | .tTuple [a, b] => .ok (a, b)
  | .tTuple _ => simpleFail "not a pair"
  | _ => simpleFail "not a tuple"

def getTFunction : TypeValue → Result (TypeValue × TypeValue)
  | .tFunction a b => .ok (a, b)
  | _ => simpleFail "not a tuple"

def getTSum : TypeValue → Result (List (String × TypeValue))
  | .tSum m => .ok m
  | _ => simpleFail "not a sum"

def getTRecord : TypeValue → Result (List (String × TypeValue))
  | .tRecord m => .ok m
  | _ => simpleFail "not a record type"

def getTTez : TypeValue → Result Unit
  | .tConstant "tez" [] => .ok ()
  | _ => simpleFail "not a tez"

def getTBytes : TypeValue → Result Unit
  | .tConstant "bytes" [] => .ok ()
  | _ => simpleFail "not a bytes"

def getTContract : TypeValue → Result TypeValue
  | .tConstant "contract" [x] => .ok x
  | _ => simpleFail "not a contract"

def getTList : TypeValue → Result TypeValue
  | .tConstant "list" [o] => .ok o
  | _ => simpleFail "not a list"

def getTMap : TypeValue → Result (TypeValue × TypeValue)
  | .tConstant "map" [k, v] => .ok (k, v)
  | _ => simpleFail "get: not a map"

def isTMap (t : TypeValue) : Bool := toBool (getTMap t)

def isTList (t : TypeValue) : Bool := toBool (getTList t)

def assertTTez (t : TypeValue) : Result Unit := getTTez t

def assertTBytes (t : TypeValue) : Result Unit := do
  let _ ← getTBytes t
  return ()

def assertTInt : TypeValue → Result Unit
  | .tConstant "int" [] => .ok ()
  | _ => simpleFail "not an int"

def assertTNat : TypeValue → Result Unit
  | .tConstant "nat" [] => .ok ()
  | _ => simpleFail "not an nat"

def assertTOperation : TypeValue → Result Unit
  | .tConstant "operation" [] => .ok ()
  | _ => simpleFail "assert: not an operation"

def assertTListOperation (t : TypeValue) : Result Unit := do
  let t' ← getTList t
  assertTOperation t'

/-- The first declaration of a name. -/
def getDeclarationByName (p : Program) (name : String) : Result Declaration :=
  traceOption "no declaration with given name" (p.find? fun d => d.name == name)

/-- `make_a_e_empty`. -/
def makeAEEmpty (e : Expression) (t : TypeValue) : AnnotatedExpression :=
  .mk e t Environment.fullEmpty

/-- `e_a_some`. -/
def eASome (s : AnnotatedExpression) (env : FullEnvironment) : AnnotatedExpression :=
  .mk (.eConstant "SOME" [s]) (tOption s.typeAnnot) env

/-- `e_a_none`. -/
def eANone (t : TypeValue) (env : FullEnvironment) : AnnotatedExpression :=
  .mk (.eConstant "NONE" []) (tOption t) env

/-- `e_a_let_in`. -/
def eALetIn (binder : String) (expr body : AnnotatedExpression) (env : FullEnvironment) :
    AnnotatedExpression :=
  .mk (.eLetIn binder expr body) body.typeAnnot env

/-! ### Induction -/

/-- Induction on a type. -/
@[elab_as_elim]
theorem TypeValue.ind {P : TypeValue → Prop}
    (tuple : ∀ lst, (∀ t ∈ lst, P t) → P (.tTuple lst))
    (sum : ∀ m : List (String × TypeValue), (∀ x ∈ m, P x.2) → P (.tSum m))
    (record : ∀ m : List (String × TypeValue), (∀ x ∈ m, P x.2) → P (.tRecord m))
    (constant : ∀ name lst, (∀ t ∈ lst, P t) → P (.tConstant name lst))
    (function : ∀ a b, P a → P b → P (.tFunction a b)) (t : TypeValue) : P t :=
  @TypeValue.rec P (fun lst => ∀ t ∈ lst, P t) (fun m => ∀ x ∈ m, P x.2) (fun x => P x.2)
    tuple sum record constant function
    (by simp) (fun _ _ h hs => List.forall_mem_cons.2 ⟨h, hs⟩)
    (by simp) (fun _ _ h hs => List.forall_mem_cons.2 ⟨h, hs⟩) (fun _ _ h => h) t

/-- Induction on an expression; the keys of map accesses and the environments are leaves. -/
@[elab_as_elim]
theorem AnnotatedExpression.ind {P : AnnotatedExpression → Prop}
    (literal : ∀ l t env, P (.mk (.eLiteral l) t env))
    (constant : ∀ name lst t env, (∀ ae ∈ lst, P ae) → P (.mk (.eConstant name lst) t env))
    (variable' : ∀ name t env, P (.mk (.eVariable name) t env))
    (application : ∀ f arg t env, P f → P arg → P (.mk (.eApplication f arg) t env))
    (lambda : ∀ b i o r t env, P r → P (.mk (.eLambda (.mk b i o r)) t env))
    (letIn : ∀ b rhs r t env, P rhs → P r → P (.mk (.eLetIn b rhs r) t env))
    (tuple : ∀ lst t env, (∀ ae ∈ lst, P ae) → P (.mk (.eTuple lst) t env))
    (tupleAccessor : ∀ tpl ind t env, P tpl → P (.mk (.eTupleAccessor tpl ind) t env))
    (constructor' : ∀ name p t env, P p → P (.mk (.eConstructor name p) t env))
    (record : ∀ m t env, (∀ x ∈ m, P x.2) → P (.mk (.eRecord m) t env))
    (recordAccessor : ∀ r prop t env, P r → P (.mk (.eRecordAccessor r prop) t env))
    (map : ∀ m t env, (∀ x ∈ m, P x.1 ∧ P x.2) → P (.mk (.eMap m) t env))
    (list : ∀ lst t env, (∀ ae ∈ lst, P ae) → P (.mk (.eList lst) t env))
    (lookUp : ∀ ds i t env, P ds → P i → P (.mk (.eLookUp ds i) t env))
    (matchBool : ∀ e a b t env, P e → P a → P b → P (.mk (.eMatching e (.matchBool a b)) t env))
    (matchList : ∀ e n hd tl c t env, P e → P n → P c →
      P (.mk (.eMatching e (.matchList n hd tl c)) t env))
    (matchOption : ∀ e n name tv s t env, P e → P n → P s →
      P (.mk (.eMatching e (.matchOption n name tv s)) t env))
    (matchTuple : ∀ e lst b t env, P e → P b → P (.mk (.eMatching e (.matchTuple lst b)) t env))
    (matchVariant : ∀ e lst variant t env, P e → (∀ x ∈ lst, P x.2) →
      P (.mk (.eMatching e (.matchVariant lst variant)) t env))
    (failwith : ∀ ae t env, P ae → P (.mk (.eFailwith ae) t env))
    (sequence : ∀ a b t env, P a → P b → P (.mk (.eSequence a b) t env))
    (loop : ∀ e b t env, P e → P b → P (.mk (.eLoop e b) t env))
    (assign : ∀ name path e t env, P e → P (.mk (.eAssign name path e) t env))
    (ae : AnnotatedExpression) : P ae :=
  @AnnotatedExpression.rec (fun e => ∀ t env, P (.mk e t env)) P
    (fun l => ∀ t env, P (.mk (.eLambda l) t env))
    (fun m => ∀ e t env, P e → P (.mk (.eMatching e m) t env))
    (fun _ => True) (fun _ => True) (fun _ => True) (fun _ => True)
    (fun lst => ∀ ae ∈ lst, P ae) (fun m => ∀ x ∈ m, P x.2) (fun m => ∀ x ∈ m, P x.1 ∧ P x.2)
    (fun _ => True) (fun lst => ∀ x ∈ lst, P x.2) (fun _ => True) (fun _ => True)
    (fun x => P x.2) (fun x => P x.1 ∧ P x.2) (fun x => P x.2) (fun _ => True)
    literal (fun name lst h t env => constant name lst t env h) variable'
    (fun f arg hf harg t env => application f arg t env hf harg) (fun _ h => h)
    (fun b rhs r hrhs hr t env => letIn b rhs r t env hrhs hr)
    (fun lst h t env => tuple lst t env h)
    (fun tpl ind h t env => tupleAccessor tpl ind t env h)
    (fun name p h t env => constructor' name p t env h)
    (fun m h t env => record m t env h)
    (fun r prop h t env => recordAccessor r prop t env h)
    (fun m h t env => map m t env h) (fun lst h t env => list lst t env h)
    (fun ds i hds hi t env => lookUp ds i t env hds hi)
    (fun e _ he hm t env => hm e t env he) (fun ae h t env => failwith ae t env h)
    (fun a b ha hb t env => sequence a b t env ha hb)
    (fun e b he hb t env => loop e b t env he hb)
    (fun name path e _ h t env => assign name path e t env h)
    (fun _ t env h _ => h t env)
    (fun b i o r h t env => lambda b i o r t env h)
    (fun a b ha hb e t env he => matchBool e a b t env he ha hb)
    (fun n hd tl c hn hc e t env he => matchList e n hd tl c t env he hn hc)
    (fun n name tv s hn hs e t env he => matchOption e n name tv s t env he hn hs)
    (fun lst b hb e t env he => matchTuple e lst b t env he hb)
    (fun lst variant h e t env he => matchVariant e lst variant t env he h)
    (fun _ => trivial) (fun _ => trivial) (fun _ _ => trivial)
    trivial (fun _ _ _ => trivial) (fun _ _ _ => trivial) (fun _ _ _ _ => trivial)
    (by simp) (fun _ _ h hs => List.forall_mem_cons.2 ⟨h, hs⟩)
    (by simp) (fun _ _ h hs => List.forall_mem_cons.2 ⟨h, hs⟩)
    (by simp) (fun _ _ h hs => List.forall_mem_cons.2 ⟨h, hs⟩)
    trivial (fun _ _ _ _ => trivial)
    (by simp) (fun _ _ h hs => List.forall_mem_cons.2 ⟨h, hs⟩)
    trivial (fun _ _ _ _ => trivial) trivial (fun _ _ _ _ => trivial)
    (fun _ _ h => h) (fun _ _ h₁ h₂ => ⟨h₁, h₂⟩) (fun _ _ h => h) (fun _ _ _ => trivial) ae

end Ligo.AstTyped
