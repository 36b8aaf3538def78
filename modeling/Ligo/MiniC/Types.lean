import Ligo.Trace
import Ligo.Michelson.Value

/-!
# The intermediate language

The types, values and expressions of the language between the typed source and
Michelson. Integers are the host's 63-bit integers (`OInt`). The flag that marks
top-level expressions is read by no pass that is modelled here and left out.
-/

namespace Ligo

/-- The host's integers: 63 bits, signed. -/
abbrev OInt := { z : Int // -2 ^ 62 ≤ z ∧ z < 2 ^ 62 }

theorem OInt.one_mem : -2 ^ 62 ≤ (1 : Int) ∧ (1 : Int) < 2 ^ 62 := by
  decide

/-- An integer, when the host can represent it. -/
def OInt.ofInt (z : Int) : Option OInt :=
  if h : -2 ^ 62 ≤ z ∧ z < 2 ^ 62 then some ⟨z, h⟩ else none

theorem OInt.ofInt_val (n : OInt) : OInt.ofInt n.val = some n := by
  rw [OInt.ofInt, dif_pos n.property]

namespace MiniC

inductive TypeBase where
  | unit | bool | int | nat | tez | string | bytes | address | operation
  deriving DecidableEq, Repr

inductive TypeValue where
  | tPair (a b : TypeValue)
  | tOr (a b : TypeValue)
  | tFunction (a b : TypeValue)
  | tDeepClosure (env : List (String × TypeValue)) (a b : TypeValue)
  | tBase (b : TypeBase)
  | tMap (k v : TypeValue)
  | tList (t : TypeValue)
  | tContract (t : TypeValue)
  | tOption (t : TypeValue)
  deriving Repr

/-- The names in scope with their types, newest first. -/
abbrev Environment := List (String × TypeValue)

/-- A step of an access path. -/
inductive Step where
  | left | right
  deriving DecidableEq, Repr

mutual

inductive Value where
  | dUnit
  | dBool (b : Bool)
  | dNat (n : OInt)
  | dTez (n : OInt)
  | dInt (n : OInt)
  | dString (s : String)
  | dBytes (b : List UInt8)
  | dPair (a b : Value)
  | dLeft (a : Value)
  | dRight (b : Value)
  | dSome (a : Value)
  | dNone
  | dMap (lst : List (Value × Value))
  | dList (lst : List Value)
  | dFunction (anon : AnonFunction)
  /-- An operation that a run produced. -/
  | dOperation (op : Michelson.Value Michelson.Node)

inductive Expression' where
  | eLiteral (v : Value)
  | eEnvironmentCapture (selector : List String)
  | eEnvironmentSelect (env : Environment)
  | eEnvironmentLoad (expr : Expression) (env : Environment)
  | eEnvironmentReturn (expr : Expression)
  | eSkip
  | eConstant (name : String) (lst : List Expression)
  | eApplication (f arg : Expression)
  | eVariable (x : String)
  | eMakeEmptyMap (k v : TypeValue)
  | eMakeEmptyList (t : TypeValue)
  | eMakeNone (t : TypeValue)
  | eIfBool (c a b : Expression)
  | eIfNone (c n : Expression) (ntv : String × TypeValue) (s : Expression)
  | eIfLeft (c : Expression) (lNtv : String × TypeValue) (l : Expression)
      (rNtv : String × TypeValue) (r : Expression)
  | eLetIn (v : String × TypeValue) (expr body : Expression)
  | eSequence (a b : Expression)
  | eAssignment (name : String) (lrs : List Step) (expr : Expression)
  | eWhile (expr block : Expression)

inductive Expression where
  | mk (content : Expression') (typeValue : TypeValue)

inductive AnonFunction where
  | mk (binder : String) (input output : TypeValue) (result : Expression)

end

namespace Expression

def content : Expression → Expression'
  | .mk c _ => c

def typeValue : Expression → TypeValue
  | .mk _ t => t

/-- The pair of two expressions. -/
def pair (a b : Expression) : Expression' := .eConstant "PAIR" [a, b]

end Expression

namespace AnonFunction

def binder : AnonFunction → String
  | .mk b _ _ _ => b

def input : AnonFunction → TypeValue
  | .mk _ i _ _ => i

def output : AnonFunction → TypeValue
  | .mk _ _ o _ => o

def result : AnonFunction → Expression
  | .mk _ _ _ r => r

end AnonFunction

/-! ### Induction -/

/-- Induction on a type, with the hypothesis for each captured variable. -/
@[elab_as_elim]
theorem TypeValue.ind {P : TypeValue → Prop} (pair : ∀ a b, P a → P b → P (.tPair a b))
    (or : ∀ a b, P a → P b → P (.tOr a b)) (function : ∀ a b, P a → P b → P (.tFunction a b))
    (closure : ∀ env a b, (∀ x ∈ env, P x.2) → P a → P b → P (.tDeepClosure env a b))
    (base : ∀ b, P (.tBase b)) (map : ∀ k v, P k → P v → P (.tMap k v))
    (list : ∀ t, P t → P (.tList t)) (contract : ∀ t, P t → P (.tContract t))
    (option : ∀ t, P t → P (.tOption t)) (t : TypeValue) : P t :=
  @TypeValue.rec P (fun env => ∀ x ∈ env, P x.2) (fun x => P x.2) pair or function
    (fun env a b h ha hb => closure env a b h ha hb) base map list contract option
    (by simp) (fun _ _ h hs => List.forall_mem_cons.2 ⟨h, hs⟩) (fun _ _ h => h) t

/-- Induction on a value; the functions in it are leaves. -/
@[elab_as_elim]
theorem Value.ind {P : Value → Prop} (unit : P .dUnit) (bool : ∀ b, P (.dBool b))
    (nat : ∀ n, P (.dNat n)) (tez : ∀ n, P (.dTez n)) (int : ∀ n, P (.dInt n))
    (string : ∀ s, P (.dString s)) (bytes : ∀ b, P (.dBytes b))
    (pair : ∀ a b, P a → P b → P (.dPair a b)) (left : ∀ a, P a → P (.dLeft a))
    (right : ∀ b, P b → P (.dRight b)) (some : ∀ a, P a → P (.dSome a)) (none : P .dNone)
    (map : ∀ lst, (∀ x ∈ lst, P x.1 ∧ P x.2) → P (.dMap lst))
    (list : ∀ lst, (∀ v ∈ lst, P v) → P (.dList lst))
    (function : ∀ f, P (.dFunction f)) (operation : ∀ op, P (.dOperation op))
    (v : Value) : P v :=
  @Value.rec P (fun _ => True) (fun _ => True) (fun _ => True)
    (fun lst => ∀ x ∈ lst, P x.1 ∧ P x.2) (fun lst => ∀ v ∈ lst, P v) (fun _ => True)
    (fun x => P x.1 ∧ P x.2)
    unit bool nat tez int string bytes pair left right some none map list
    (fun f _ => function f) operation
    (fun _ _ => trivial) (fun _ => trivial) (fun _ => trivial) (fun _ _ _ => trivial)
    (fun _ _ => trivial) trivial (fun _ _ _ => trivial) (fun _ _ _ _ => trivial)
    (fun _ => trivial) (fun _ _ => trivial) (fun _ => trivial) (fun _ => trivial)
    (fun _ _ _ _ _ _ => trivial) (fun _ _ _ _ _ _ _ => trivial)
    (fun _ _ _ _ _ _ _ _ => trivial) (fun _ _ _ _ _ => trivial) (fun _ _ _ _ => trivial)
    (fun _ _ _ _ => trivial) (fun _ _ _ _ => trivial) (fun _ _ _ => trivial)
    (fun _ _ _ _ _ => trivial)
    (by simp) (fun _ _ h hs => List.forall_mem_cons.2 ⟨h, hs⟩)
    (by simp) (fun _ _ h hs => List.forall_mem_cons.2 ⟨h, hs⟩)
    trivial (fun _ _ _ _ => trivial) (fun _ _ ha hb => ⟨ha, hb⟩) v

/-- Induction on an expression; the literals in it are leaves. -/
@[elab_as_elim]
theorem Expression.ind {P : Expression → Prop}
    (literal : ∀ v t, P (.mk (.eLiteral v) t))
    (capture : ∀ s t, P (.mk (.eEnvironmentCapture s) t))
    (select : ∀ env t, P (.mk (.eEnvironmentSelect env) t))
    (load : ∀ e env t, P e → P (.mk (.eEnvironmentLoad e env) t))
    (ret : ∀ e t, P e → P (.mk (.eEnvironmentReturn e) t))
    (skip : ∀ t, P (.mk .eSkip t))
    (constant : ∀ name lst t, (∀ e ∈ lst, P e) → P (.mk (.eConstant name lst) t))
    (application : ∀ f arg t, P f → P arg → P (.mk (.eApplication f arg) t))
    (variable' : ∀ x t, P (.mk (.eVariable x) t))
    (makeEmptyMap : ∀ k v t, P (.mk (.eMakeEmptyMap k v) t))
    (makeEmptyList : ∀ u t, P (.mk (.eMakeEmptyList u) t))
    (makeNone : ∀ u t, P (.mk (.eMakeNone u) t))
    (ifBool : ∀ c a b t, P c → P a → P b → P (.mk (.eIfBool c a b) t))
    (ifNone : ∀ c n x s t, P c → P n → P s → P (.mk (.eIfNone c n x s) t))
    (ifLeft : ∀ c x l y r t, P c → P l → P r → P (.mk (.eIfLeft c x l y r) t))
    (letIn : ∀ x e b t, P e → P b → P (.mk (.eLetIn x e b) t))
    (sequence : ∀ a b t, P a → P b → P (.mk (.eSequence a b) t))
    (assignment : ∀ x lrs e t, P e → P (.mk (.eAssignment x lrs e) t))
    (while' : ∀ c b t, P c → P b → P (.mk (.eWhile c b) t))
    (e : Expression) : P e :=
  @Expression.rec (fun _ => True) (fun e' => ∀ t, P (.mk e' t)) P (fun _ => True)
    (fun _ => True) (fun _ => True) (fun lst => ∀ e ∈ lst, P e) (fun _ => True)
    trivial (fun _ => trivial) (fun _ => trivial) (fun _ => trivial) (fun _ => trivial)
    (fun _ => trivial) (fun _ => trivial) (fun _ _ _ _ => trivial) (fun _ _ => trivial)
    (fun _ _ => trivial) (fun _ _ => trivial) trivial (fun _ _ => trivial)
    (fun _ _ => trivial) (fun _ _ => trivial) (fun _ => trivial)
    (fun v _ => literal v) capture select (fun e env h t => load e env t h)
    (fun e h t => ret e t h) skip (fun name lst h t => constant name lst t h)
    (fun f arg hf ha t => application f arg t hf ha) variable' makeEmptyMap
    makeEmptyList makeNone (fun c a b hc ha hb t => ifBool c a b t hc ha hb)
    (fun c n x s hc hn hs t => ifNone c n x s t hc hn hs)
    (fun c x l y r hc hl hr t => ifLeft c x l y r t hc hl hr)
    (fun x e b he hb t => letIn x e b t he hb) (fun a b ha hb t => sequence a b t ha hb)
    (fun x lrs e he t => assignment x lrs e t he) (fun c b hc hb t => while' c b t hc hb)
    (fun _ t h => h t) (fun _ _ _ _ _ => trivial)
    trivial (fun _ _ _ _ => trivial) trivial (fun _ _ _ _ => trivial)
    (by simp) (fun _ _ h hs => List.forall_mem_cons.2 ⟨h, hs⟩)
    (fun _ _ _ _ => trivial) e

/-! ### Combinators -/

def getTPair : TypeValue → Result (TypeValue × TypeValue)
  | .tPair a b => .ok (a, b)
  | _ => simpleFail "not a type pair"

def getTMap : TypeValue → Result (TypeValue × TypeValue)
  | .tMap k v => .ok (k, v)
  | _ => simpleFail "not a type map"

def getTLeft : TypeValue → Result TypeValue
  | .tOr a _ => .ok a
  | _ => simpleFail "not a union"

def getTRight : TypeValue → Result TypeValue
  | .tOr _ b => .ok b
  | _ => simpleFail "not a union"

def getTContract : TypeValue → Result TypeValue
  | .tContract x => .ok x
  | _ => simpleFail "not a contract"

end MiniC

end Ligo
