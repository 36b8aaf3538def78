import Ligo.Compiler.EnvironmentTypes
import Ligo.Compiler.Predicate

/-!
# Well-typed expressions

The typing rules of the intermediate language, for expressions and for literals in one
inductive definition (`Derivable`), since the body of a quote is an expression. Types are
compared as types of the intermediate language, except at constants, whose predicates have
to fit the Michelson types of the arguments (`Fits`).

A type is known (`Known`) when both translations accept it. Three constructs write a type
into the code, where the protocol lets operations stand in certain places only: the
types of the elements of empty maps, empty lists and `NONE`, and the types of literals.

The types that the code makes have to be within the limit on the size of types (`Within`).
Without a limit the rules do not ask for anything there.
-/

namespace Ligo.CompilerProgram

open MiniC Michelson
open Fuel (bind_eq_ok)

variable (ctx : Michelson.Context)

/-- Both translations of types accept the type. -/
def Known (τ : TypeValue) : Prop :=
  (∃ u, CompilerType.Ty.type_ τ = .ok u) ∧ ∃ n, CompilerType.type_ τ = .ok n

/-- The Michelson type of `τ` is not too large. -/
def Within (τ : TypeValue) : Prop :=
  ∀ u, CompilerType.Ty.type_ τ = .ok u → ctx.admits u = true

/-- The type at the end of an access path. -/
def typeAt : List Step → TypeValue → Option TypeValue
  | [], τ => some τ
  | .left :: lrs, .tPair a _ => typeAt lrs a
  | .right :: lrs, .tPair _ b => typeAt lrs b
  | _, _ => none

/-- The key that a literal denotes. -/
def keyAtom (c : ComparableTy) (v : MiniC.Value) : Option Atom :=
  match denote ctx (fun _ => (none : Option Node)) (.comparable c) v with
  | some (.atom a) => some a
  | _ => none

/-- What is typed: an expression in an environment, or a literal at a type. -/
inductive Judgement where
  | expression (env : Environment) (e : Expression)
  | value (v : MiniC.Value) (τ : TypeValue)

/-- The typing rules. -/
inductive Derivable : Judgement → Prop
  | literal {env v τ u} (hτ : Known τ) (hu : CompilerType.Ty.type_ τ = .ok u)
    (hpush : u.allowed false = true) (hwithin : ctx.admits u = true)
    (hv : Derivable (.value v τ)) :
    Derivable (.expression env (.mk (.eLiteral v) τ))
  | skip {env} : Derivable (.expression env (.mk .eSkip (.tBase .unit)))
  | variable' {env x τ} (hx : x ≠ Environment.tmpName) (hlookup : Scope.lookup x env = some τ)
    (hτ : Known τ) : Derivable (.expression env (.mk (.eVariable x) τ))
  | constant {env name lst τ bef u} (hlst : ∀ e ∈ lst, Derivable (.expression env e))
    (hbef : lst.mapM (fun e => CompilerType.Ty.type_ e.typeValue) = .ok bef) (hτ : Known τ)
    (hu : CompilerType.Ty.type_ τ = .ok u) (hfits : Fits ctx name τ lst bef u) :
    Derivable (.expression env (.mk (.eConstant name lst) τ))
  | quoteApplication {env f arg τ} (hf : Derivable (.expression env f))
    (harg : Derivable (.expression env arg)) (hτ : Known τ)
    (htype : f.typeValue = .tFunction arg.typeValue τ) :
    Derivable (.expression env (.mk (.eApplication f arg) τ))
  | closureApplication {env f arg τ c} (hf : Derivable (.expression env f))
    (harg : Derivable (.expression env arg)) (hτ : Known τ)
    (htype : f.typeValue = .tDeepClosure c arg.typeValue τ)
    (hwithin : ∀ ua cap, CompilerType.Ty.type_ arg.typeValue = .ok ua →
      CompilerType.Ty.environmentRepresentation c = .ok cap →
        ctx.admits (.pair ua cap) = true) :
    Derivable (.expression env (.mk (.eApplication f arg) τ))
  | makeEmptyMap {env k v w} (hτ : Known (.tMap k v))
    (hw : CompilerType.Ty.type_ v = .ok w) (hallowed : w.allowed true = true)
    (hwithin : Within ctx (.tMap k v)) :
    Derivable (.expression env (.mk (.eMakeEmptyMap k v) (.tMap k v)))
  | makeEmptyList {env t w} (hτ : Known (.tList t)) (hw : CompilerType.Ty.type_ t = .ok w)
    (hallowed : w.allowed true = true) (hwithin : Within ctx (.tList t)) :
    Derivable (.expression env (.mk (.eMakeEmptyList t) (.tList t)))
  | makeNone {env t w} (hτ : Known (.tOption t)) (hw : CompilerType.Ty.type_ t = .ok w)
    (hallowed : w.allowed true = true) (hwithin : Within ctx (.tOption t)) :
    Derivable (.expression env (.mk (.eMakeNone t) (.tOption t)))
  | ifBool {env c a b} (hc : Derivable (.expression env c))
    (hbool : c.typeValue = .tBase .bool) (ha : Derivable (.expression env a))
    (hb : Derivable (.expression env b)) (htype : b.typeValue = a.typeValue) :
    Derivable (.expression env (.mk (.eIfBool c a b) a.typeValue))
  | ifNone {env c n x t s} (hc : Derivable (.expression env c))
    (hoption : c.typeValue = .tOption t) (hn : Derivable (.expression env n))
    (hx : x ≠ Environment.tmpName) (hs : Derivable (.expression ((x, t) :: env) s))
    (htype : s.typeValue = n.typeValue) :
    Derivable (.expression env (.mk (.eIfNone c n (x, t) s) n.typeValue))
  | ifLeft {env c x a l y b r} (hc : Derivable (.expression env c))
    (hor : c.typeValue = .tOr a b) (hx : x ≠ Environment.tmpName)
    (hl : Derivable (.expression ((x, a) :: env) l)) (hy : y ≠ Environment.tmpName)
    (hr : Derivable (.expression ((y, b) :: env) r)) (htype : r.typeValue = l.typeValue) :
    Derivable (.expression env (.mk (.eIfLeft c (x, a) l (y, b) r) l.typeValue))
  | letIn {env x e b} (hx : x ≠ Environment.tmpName) (he : Derivable (.expression env e))
    (hb : Derivable (.expression ((x, e.typeValue) :: env) b)) :
    Derivable (.expression env (.mk (.eLetIn (x, e.typeValue) e b) b.typeValue))
  | sequence {env a b} (ha : Derivable (.expression env a))
    (hb : Derivable (.expression env b)) :
    Derivable (.expression env (.mk (.eSequence a b) b.typeValue))
  | assignment {env x σ lrs e} (hx : x ≠ Environment.tmpName)
    (hlookup : Scope.lookup x env = some σ) (he : Derivable (.expression env e))
    (hpath : typeAt lrs σ = some e.typeValue) (hwithin : lrs ≠ [] → Within ctx σ) :
    Derivable (.expression env (.mk (.eAssignment x lrs e) (.tBase .unit)))
  | while' {env c b} (hc : Derivable (.expression env c))
    (hbool : c.typeValue = .tBase .bool) (hb : Derivable (.expression env b))
    (hunit : b.typeValue = .tBase .unit) :
    Derivable (.expression env (.mk (.eWhile c b) (.tBase .unit)))
  | unit : Derivable (.value .dUnit (.tBase .unit))
  | bool (b : Bool) : Derivable (.value (.dBool b) (.tBase .bool))
  | int (n : OInt) : Derivable (.value (.dInt n) (.tBase .int))
  | nat (n : OInt) (hn : 0 ≤ n.val) : Derivable (.value (.dNat n) (.tBase .nat))
  | tez (n : OInt) (hn : 0 ≤ n.val) : Derivable (.value (.dTez n) (.tBase .tez))
  | string (s : String) (hs : printableAscii s = true) :
    Derivable (.value (.dString s) (.tBase .string))
  | bytes (b : List UInt8) : Derivable (.value (.dBytes b) (.tBase .bytes))
  | address {s a} (hs : ctx.ofB58check s = some a) :
    Derivable (.value (.dString s) (.tBase .address))
  | contract {s a t u} (hs : ctx.ofB58check s = some a)
    (hu : CompilerType.Ty.type_ t = .ok u) (ha : ctx.contractTy a = some u) :
    Derivable (.value (.dString s) (.tContract t))
  | pair {v w a b} (hv : Derivable (.value v a)) (hw : Derivable (.value w b)) :
    Derivable (.value (.dPair v w) (.tPair a b))
  | left {v a b} (hv : Derivable (.value v a)) : Derivable (.value (.dLeft v) (.tOr a b))
  | right {w a b} (hw : Derivable (.value w b)) : Derivable (.value (.dRight w) (.tOr a b))
  | some {v a} (hv : Derivable (.value v a)) : Derivable (.value (.dSome v) (.tOption a))
  | none {a} : Derivable (.value .dNone (.tOption a))
  | list {lst a} (hlst : ∀ v ∈ lst, Derivable (.value v a)) :
    Derivable (.value (.dList lst) (.tList a))
  | map {lst k a c} (hk : CompilerType.Ty.comparableType k = .ok c)
    (hkeys : ∀ x ∈ lst, Derivable (.value x.1 k)) (hvals : ∀ x ∈ lst, Derivable (.value x.2 a))
    (hsorted : (lst.filterMap fun x => keyAtom ctx c x.1).Pairwise (· < ·)) :
    Derivable (.value (.dMap lst) (.tMap k a))
  | quote {b i e} (hb : b ≠ Environment.tmpName) (he : Derivable (.expression [(b, i)] e)) :
    Derivable (.value (.dFunction (.mk b i e.typeValue
      (.mk (.eEnvironmentReturn e) e.typeValue))) (.tFunction i e.typeValue))

/-- The expression is well scoped and well typed in the environment, and the types that its
code makes are within the limit. -/
abbrev WellTyped (env : Environment) (e : Expression) : Prop :=
  Derivable ctx (.expression env e)

/-- The literal is well formed for the type. -/
abbrev WellFormed (v : MiniC.Value) (τ : TypeValue) : Prop := Derivable ctx (.value v τ)

end Ligo.CompilerProgram
