import Ligo.Operators.Typer

/-!
# The typing rules

`Typed Γ ae` derives a typed expression, node by node, from the types that the context `Γ`
gives to the variables. There is one rule for each construct. A constant has a rule of the
table of operators (`Operators.Typer.Accepts`), with one restriction: a `NONE` has an option
type.
-/

namespace Ligo.Typer

open AstTyped
open Operators.Typer (Accepts)

/-- The types of the variables in scope. -/
abbrev Context := String → Option TypeValue

def Context.bind (Γ : Context) (x : String) (t : TypeValue) : Context :=
  fun y => if y = x then some t else Γ y

/-- Bind the names of a pattern for a tuple, the last one on top. -/
def Context.bindAll (Γ : Context) (lst : List (String × TypeValue)) : Context :=
  lst.foldl (fun Γ b => Γ.bind b.1 b.2) Γ

def literalType : Literal → TypeValue
  | .unit => tUnit
  | .bool _ => tBool
  | .int _ => tInt
  | .nat _ => tNat
  | .tez _ => tTez
  | .string _ => tString
  | .bytes _ => tBytes
  | .address _ => tAddress
  | .operation _ => tOperation

/-- The type of a constant applied to arguments of some types. -/
inductive ConstantType : String → List TypeValue → TypeValue → Prop
  | operator {name args expected t} (h : Accepts name args expected t)
    (hnone : name = "NONE" → ∃ o, t = tOption o) : ConstantType name args t
  | assert {a} : ConstantType "ASSERT" [tBool, a] tUnit

theorem ConstantType.of_none {name : String} {args : List TypeValue} {t : TypeValue}
    (h : ConstantType name args t) (hname : name = "NONE") : ∃ o, t = tOption o := by
  cases h with
  | operator _ hnone => exact hnone hname
  | assert => exact absurd hname (by decide)

/-- A path leads from the type of a structure to the type of a part. -/
inductive PathType : TypeValue → List Access → TypeValue → Prop
  | nil {t} : PathType t [] t
  | tuple {tys ind t path u} (h : tys[ind]? = some t) (hs : PathType t path u) :
    PathType (.tTuple tys) (.tuple ind :: path) u
  | record {m : List (String × TypeValue)} {property t path u} (h : m.lookup property = some t)
    (hs : PathType t path u) : PathType (.tRecord m) (.record property :: path) u

inductive Typed : Context → AnnotatedExpression → Prop
  | literal {Γ l env} : Typed Γ (.mk (.eLiteral l) (literalType l) env)
  | constant {Γ name lst t env} (hlst : ∀ ae ∈ lst, Typed Γ ae)
    (h : ConstantType name (lst.map AnnotatedExpression.typeAnnot) t) :
    Typed Γ (.mk (.eConstant name lst) t env)
  | variable' {Γ x t env} (h : Γ x = some t) : Typed Γ (.mk (.eVariable x) t env)
  | application {Γ f arg t env} (hf : Typed Γ f) (harg : Typed Γ arg)
    (h : f.typeAnnot = .tFunction arg.typeAnnot t) : Typed Γ (.mk (.eApplication f arg) t env)
  | lambda {Γ b i o r env} (hr : Typed (Γ.bind b i) r) (h : r.typeAnnot = o) :
    Typed Γ (.mk (.eLambda (.mk b i o r)) (.tFunction i o) env)
  | letIn {Γ b rhs r t env} (hrhs : Typed Γ rhs) (hr : Typed (Γ.bind b rhs.typeAnnot) r)
    (h : r.typeAnnot = t) : Typed Γ (.mk (.eLetIn b rhs r) t env)
  | tuple {Γ lst env} (hlst : ∀ ae ∈ lst, Typed Γ ae) :
    Typed Γ (.mk (.eTuple lst) (.tTuple (lst.map AnnotatedExpression.typeAnnot)) env)
  | tupleAccessor {Γ tpl ind tys t env} (htpl : Typed Γ tpl) (htys : tpl.typeAnnot = .tTuple tys)
    (h : tys[ind]? = some t) : Typed Γ (.mk (.eTupleAccessor tpl ind) t env)
  | constructor' {Γ name p m env} (hp : Typed Γ p) (h : m.lookup name = some p.typeAnnot) :
    Typed Γ (.mk (.eConstructor name p) (.tSum m) env)
  | record {Γ env} {m : List (String × AnnotatedExpression)} (hm : ∀ x ∈ m, Typed Γ x.2) :
    Typed Γ (.mk (.eRecord m) (.tRecord (m.map fun x => (x.1, x.2.typeAnnot))) env)
  | recordAccessor {Γ r property m t env} (hr : Typed Γ r) (hm : r.typeAnnot = .tRecord m)
    (h : m.lookup property = some t) : Typed Γ (.mk (.eRecordAccessor r property) t env)
  | map {Γ k v env} {m : List (AnnotatedExpression × AnnotatedExpression)}
    (hk : ∀ x ∈ m, Typed Γ x.1) (hv : ∀ x ∈ m, Typed Γ x.2)
    (h : ∀ x ∈ m, x.1.typeAnnot = k ∧ x.2.typeAnnot = v) : Typed Γ (.mk (.eMap m) (tMap k v) env)
  | list {Γ lst t env} (hlst : ∀ ae ∈ lst, Typed Γ ae) (h : ∀ ae ∈ lst, ae.typeAnnot = t) :
    Typed Γ (.mk (.eList lst) (tList t) env)
  | lookUp {Γ ds i v env} (hds : Typed Γ ds) (hi : Typed Γ i)
    (h : ds.typeAnnot = tMap i.typeAnnot v) : Typed Γ (.mk (.eLookUp ds i) (tOption v) env)
  | matchBool {Γ ex a b t env} (hex : Typed Γ ex) (h : ex.typeAnnot = tBool) (ha : Typed Γ a)
    (hb : Typed Γ b) (hat : a.typeAnnot = t) (hbt : b.typeAnnot = t) :
    Typed Γ (.mk (.eMatching ex (.matchBool a b)) t env)
  | matchList {Γ ex n hd tl c a t env} (hex : Typed Γ ex) (h : ex.typeAnnot = tList a)
    (hn : Typed Γ n) (hc : Typed ((Γ.bind hd a).bind tl (tList a)) c) (hnt : n.typeAnnot = t)
    (hct : c.typeAnnot = t) : Typed Γ (.mk (.eMatching ex (.matchList n hd tl c)) t env)
  | matchOption {Γ ex n name o s t env} (hex : Typed Γ ex) (h : ex.typeAnnot = tOption o)
    (hn : Typed Γ n) (hs : Typed (Γ.bind name o) s) (hnt : n.typeAnnot = t)
    (hst : s.typeAnnot = t) : Typed Γ (.mk (.eMatching ex (.matchOption n name o s)) t env)
  | matchTuple {Γ ex lst tys b t env} (hex : Typed Γ ex) (h : ex.typeAnnot = .tTuple tys)
    (hlength : lst.length = tys.length) (hb : Typed (Γ.bindAll (lst.zip tys)) b)
    (hbt : b.typeAnnot = t) : Typed Γ (.mk (.eMatching ex (.matchTuple lst b)) t env)
  | matchVariant {Γ ex m t env} {lst : List ((String × String) × AnnotatedExpression)}
    (hex : Typed Γ ex) (h : ex.typeAnnot = .tSum m)
    (howner : ∀ x ∈ lst, ∃ c, m.lookup x.1.1 = some c)
    (hlst : ∀ x ∈ lst, ∀ c, m.lookup x.1.1 = some c → Typed (Γ.bind x.1.2 c) x.2)
    (ht : ∀ x ∈ lst, x.2.typeAnnot = t) :
    Typed Γ (.mk (.eMatching ex (.matchVariant lst (.tSum m))) t env)
  | failwith {Γ ae t env} (hae : Typed Γ ae) : Typed Γ (.mk (.eFailwith ae) t env)
  | sequence {Γ a b t env} (ha : Typed Γ a) (h : a.typeAnnot = tUnit) (hb : Typed Γ b)
    (hbt : b.typeAnnot = t) : Typed Γ (.mk (.eSequence a b) t env)
  | loop {Γ ex body env} (hex : Typed Γ ex) (h : ex.typeAnnot = tBool) (hbody : Typed Γ body)
    (hunit : body.typeAnnot = tUnit) : Typed Γ (.mk (.eLoop ex body) tUnit env)
  | assign {Γ x tx path ae env} (hx : Γ x = some tx) (hpath : PathType tx path ae.typeAnnot)
    (hae : Typed Γ ae) : Typed Γ (.mk (.eAssign ⟨x, tx⟩ path ae) tUnit env)

end Ligo.Typer
