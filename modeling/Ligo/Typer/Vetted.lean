import Ligo.Typer.Expression
import Ligo.Typer.Rules

/-!
# What the type checker does not check

Not all that the rules (`Typed`) ask for is checked. Four conditions are left to the program,
and `Vetted` says that it keeps them: a `NONE` is given an option type, no path of an accessor
looks into a map, the body of a function has the output type, and what is matched on variants
has the sum type that owns the constructors.

`Vetted` speaks of the types of some parts of the program. They are read off the program,
without any check, by `typeOf`. Both depend on an environment by the types that it gives to
the variables (`context`) and by the types that it declares (`SameTypes`).
-/

namespace Ligo.Typer

open AstTyped
open Fuel (bind_eq_ok map_eq_ok)

/-! ### Types without checks -/

/-- What a type of the program is. -/
def evaluated (e : Environment) (te : AstSimplified.TypeExpression) : Option TypeValue :=
  (evaluateType e te).toOption

/-- The type of the part that a step of an accessor leads to. -/
def stepType : TypeValue → AstSimplified.Access → Option TypeValue
  | .tTuple tys, .tuple index => nth tys index
  | .tRecord m, .record property => m.lookup property
  | .tConstant "map" [_, v], .map _ => some v
  | _, _ => none

mutual

/-- The type of an expression, by its head and by what is declared; the declared types are
those of `e`. -/
@[simp] def typeOf (e : Environment) (Γ : Context) (tvOpt : Option TypeValue) :
    AstSimplified.Expression → Option TypeValue
  | .eFailwith _ => none
  | .eVariable name => Γ name
  | .eLiteral l => some (typeLiteral tvOpt l).2
  | .eSkip => some tUnit
  | .eTuple lst => (typesOf e Γ lst).map .tTuple
  | .eAccessor ae path => (typeOf e Γ none ae).bind fun t => path.foldlM stepType t
  | .eConstructor c _ => (Environment.getConstructor c e).map Prod.snd
  | .eRecord m => (fieldTypes e Γ m).map .tRecord
  | .eList lst =>
    match tvOpt with
    | some t => some t
    | none => (typesOf e Γ lst).bind fun tys => tys.head?.map tList
  | .eMap m =>
    match tvOpt with
    | some t => some t
    | none => (entryTypes e Γ m).bind fun tys => tys.head?.map fun x => tMap x.1 x.2
  | .eLambda _ _ inputType outputType _ =>
    (inputType.bind (evaluated e)).bind fun i =>
      (outputType.bind (evaluated e)).map fun o => .tFunction i o
  | .eConstant name lst => (typesOf e Γ lst).bind fun tys =>
      (Operators.Typer.typeConstant name tys tvOpt).toOption.map Prod.snd
  | .eApplication f _ =>
    match typeOf e Γ none f with
    | some (.tFunction _ t) => some t
    | _ => none
  | .eLookUp ds _ =>
    match typeOf e Γ none ds with
    | some (.tConstant "map" [_, v]) => some (tOption v)
    | _ => none
  | .eMatching ex m => branchType e Γ (typeOf e Γ none ex) m
  | .eSequence _ b => typeOf e Γ none b
  | .eLoop _ _ => some tUnit
  | .eAssign _ _ _ => some tUnit
  | .eLetIn binder binderType rhs result =>
    (typeOf e Γ (binderType.bind (evaluated e)) rhs).bind fun t =>
      typeOf e (Γ.bind binder t) none result
  | .eAnnotated _ te => evaluated e te

/-- The type of a branch of a match on something of the type `scrutinee`. -/
def branchType (e : Environment) (Γ : Context) (scrutinee : Option TypeValue) :
    AstSimplified.MatchingExpr → Option TypeValue
  | .matchBool _ matchFalse => typeOf e Γ none matchFalse
  | .matchOption matchNone _ _ => typeOf e Γ none matchNone
  | .matchList matchNil _ _ _ => typeOf e Γ none matchNil
  | .matchTuple lst b =>
    match scrutinee with
    | some (.tTuple tys) => typeOf e (Γ.bindAll (lst.zip tys)) none b
    | _ => none
  | .matchVariant lst => caseType e Γ lst

def caseType (e : Environment) (Γ : Context) :
    List ((String × String) × AstSimplified.Expression) → Option TypeValue
  | [] => none
  | (c, b) :: _ => (Environment.getConstructor c.1 e).bind fun x =>
      typeOf e (Γ.bind c.2 x.1) none b

def typesOf (e : Environment) (Γ : Context) :
    List AstSimplified.Expression → Option (List TypeValue)
  | [] => some []
  | ae :: lst => (typeOf e Γ none ae).bind fun t => (typesOf e Γ lst).map (t :: ·)

def fieldTypes (e : Environment) (Γ : Context) :
    List (String × AstSimplified.Expression) → Option (List (String × TypeValue))
  | [] => some []
  | (k, ae) :: m => (typeOf e Γ none ae).bind fun t => (fieldTypes e Γ m).map ((k, t) :: ·)

def entryTypes (e : Environment) (Γ : Context) :
    List (AstSimplified.Expression × AstSimplified.Expression) →
      Option (List (TypeValue × TypeValue))
  | [] => some []
  | (k, v) :: m => (typeOf e Γ none k).bind fun tk => (typeOf e Γ none v).bind fun tv =>
      (entryTypes e Γ m).map ((tk, tv) :: ·)

end

/-! ### What is not checked -/

/-- The program keeps the conditions that the type checker does not check. The rules with a
condition are the ones for constants, accessors, functions and matches on variants. -/
inductive Vetted (e : Environment) :
    Context → Option TypeValue → AstSimplified.Expression → Prop
  | literal {Γ tv l} : Vetted e Γ tv (.eLiteral l)
  | skip {Γ tv} : Vetted e Γ tv .eSkip
  | variable' {Γ tv x} : Vetted e Γ tv (.eVariable x)
  | constant {Γ tv name lst} (hlst : ∀ x ∈ lst, Vetted e Γ none x)
    (hnone : name = "NONE" → ∃ o, tv = some (tOption o)) : Vetted e Γ tv (.eConstant name lst)
  | tuple {Γ tv lst} (hlst : ∀ x ∈ lst, Vetted e Γ none x) : Vetted e Γ tv (.eTuple lst)
  | list {Γ tv lst} (hlst : ∀ x ∈ lst, Vetted e Γ none x) : Vetted e Γ tv (.eList lst)
  | record {Γ tv} {m : List (String × AstSimplified.Expression)}
    (hm : ∀ x ∈ m, Vetted e Γ none x.2) : Vetted e Γ tv (.eRecord m)
  | map {Γ tv} {m : List (AstSimplified.Expression × AstSimplified.Expression)}
    (hk : ∀ x ∈ m, Vetted e Γ none x.1) (hv : ∀ x ∈ m, Vetted e Γ none x.2) :
    Vetted e Γ tv (.eMap m)
  | accessor {Γ tv expr path} (h : Vetted e Γ none expr)
    (hpath : ∀ key, AstSimplified.Access.map key ∉ path) : Vetted e Γ tv (.eAccessor expr path)
  | constructor' {Γ tv c expr} (h : Vetted e Γ none expr) : Vetted e Γ tv (.eConstructor c expr)
  | lambda {Γ tv b bt it ot r i o} (hi : it.bind (evaluated e) = some i)
    (ho : ot.bind (evaluated e) = some o) (hr : Vetted e (Γ.bind b i) (some o) r)
    (h : typeOf e (Γ.bind b i) (some o) r = some o) : Vetted e Γ tv (.eLambda b bt it ot r)
  | application {Γ tv f arg} (hf : Vetted e Γ none f) (harg : Vetted e Γ none arg) :
    Vetted e Γ tv (.eApplication f arg)
  | lookUp {Γ tv ds i} (hds : Vetted e Γ none ds) (hi : Vetted e Γ none i) :
    Vetted e Γ tv (.eLookUp ds i)
  | sequence {Γ tv a b} (ha : Vetted e Γ none a) (hb : Vetted e Γ none b) :
    Vetted e Γ tv (.eSequence a b)
  | loop {Γ tv a b} (ha : Vetted e Γ none a) (hb : Vetted e Γ none b) :
    Vetted e Γ tv (.eLoop a b)
  | assign {Γ tv x path expr} (h : Vetted e Γ none expr) : Vetted e Γ tv (.eAssign x path expr)
  | letIn {Γ tv b bt rhs r t} (hrhs : Vetted e Γ (bt.bind (evaluated e)) rhs)
    (ht : typeOf e Γ (bt.bind (evaluated e)) rhs = some t) (hr : Vetted e (Γ.bind b t) none r) :
    Vetted e Γ tv (.eLetIn b bt rhs r)
  | annotated {Γ tv expr te} (h : Vetted e Γ (evaluated e te) expr) :
    Vetted e Γ tv (.eAnnotated expr te)
  | assertion {Γ tv ex fw b} (hex : Vetted e Γ none ex) (hfw : Vetted e Γ none fw)
    (hb : Vetted e Γ none b) : Vetted e Γ tv (.eMatching ex (.matchBool (.eFailwith fw) b))
  | matchBool {Γ tv ex a b} (hex : Vetted e Γ none ex) (ha : Vetted e Γ none a)
    (hb : Vetted e Γ none b) : Vetted e Γ tv (.eMatching ex (.matchBool a b))
  | matchOption {Γ tv ex n name s o} (hex : Vetted e Γ none ex)
    (h : typeOf e Γ none ex = some (tOption o)) (hn : Vetted e Γ none n)
    (hs : Vetted e (Γ.bind name o) none s) : Vetted e Γ tv (.eMatching ex (.matchOption n name s))
  | matchList {Γ tv ex n hd tl c a} (hex : Vetted e Γ none ex)
    (h : typeOf e Γ none ex = some (tList a)) (hn : Vetted e Γ none n)
    (hc : Vetted e ((Γ.bind hd a).bind tl (tList a)) none c) :
    Vetted e Γ tv (.eMatching ex (.matchList n hd tl c))
  | matchTuple {Γ tv ex lst b tys} (hex : Vetted e Γ none ex)
    (h : typeOf e Γ none ex = some (.tTuple tys))
    (hb : Vetted e (Γ.bindAll (lst.zip tys)) none b) :
    Vetted e Γ tv (.eMatching ex (.matchTuple lst b))
  | matchVariant {Γ tv ex} {lst : List ((String × String) × AstSimplified.Expression)}
    (hex : Vetted e Γ none ex)
    (howner : ∀ x ∈ lst, (Environment.getConstructor x.1.1 e).map Prod.snd = typeOf e Γ none ex)
    (hlst : ∀ x ∈ lst, ∀ c V, Environment.getConstructor x.1.1 e = some (c, V) →
      Vetted e (Γ.bind x.1.2 c) none x.2) : Vetted e Γ tv (.eMatching ex (.matchVariant lst))

/-! ### Environments -/

/-- The types that the environment gives to the variables. -/
def context (e : Environment) : Context := fun x => (Environment.getOpt x e).map elementType

/-- The environments declare the same types. -/
def SameTypes (e e₀ : Environment) : Prop :=
  e.typesHd = e₀.typesHd ∧ e.typesTl = e₀.typesTl

section Environments

variable {e e₀ : Environment} {x : String}

/-- What is bound in the environment is bound in the context. -/
theorem context_add {v : EnvironmentElement} :
    context (Environment.add x v e) = (context e).bind x (elementType v) := by
  obtain ⟨⟨hd, tl⟩, types, typesTl⟩ := e
  funext y
  have hcons : AstTyped.Environment.smallGetOpt y ((x, v) :: hd) =
      if y = x then some v else AstTyped.Environment.smallGetOpt y hd := rfl
  simp only [context, Context.bind, Environment.add, Environment.getOpt,
    AstTyped.Environment.getOpt, List.findSome?_cons]
  rw [hcons]
  by_cases hy : y = x
  · rw [if_pos hy, if_pos hy]
    rfl
  · rw [if_neg hy, if_neg hy]

@[simp] theorem context_addEzBinder {t : TypeValue} :
    context (Environment.addEzBinder x t e) = (context e).bind x t := context_add

@[simp] theorem context_addEzDeclaration {ae : AnnotatedExpression} :
    context (Environment.addEzDeclaration x ae e) = (context e).bind x ae.typeAnnot := context_add

@[simp] theorem context_addBinders {lst : List (String × TypeValue)} :
    context (addBinders e lst) = (context e).bindAll lst := by
  induction lst generalizing e with
  | nil => rfl
  | cons b lst ih =>
    have hrest := ih (e := Environment.addEzBinder b.1 b.2 e)
    rw [context_addEzBinder] at hrest
    exact hrest

/-- Bindings of values declare no type. -/
theorem SameTypes.add (h : SameTypes e e₀) {v : EnvironmentElement} :
    SameTypes (Environment.add x v e) e₀ := by
  obtain ⟨⟨hd, tl⟩, types, typesTl⟩ := e
  exact h

theorem SameTypes.addEzBinder (h : SameTypes e e₀) {t : TypeValue} :
    SameTypes (Environment.addEzBinder x t e) e₀ := h.add

theorem SameTypes.addEzDeclaration (h : SameTypes e e₀) {ae : AnnotatedExpression} :
    SameTypes (Environment.addEzDeclaration x ae e) e₀ := h.add

theorem SameTypes.addBinders (h : SameTypes e e₀) {lst : List (String × TypeValue)} :
    SameTypes (addBinders e lst) e₀ := by
  induction lst generalizing e with
  | nil => exact h
  | cons b lst ih => exact ih h.addEzBinder

/-- The declared types decide what names and constructors mean. -/
theorem SameTypes.getTypeOpt (h : SameTypes e e₀) (name : String) :
    Environment.getTypeOpt name e = Environment.getTypeOpt name e₀ := by
  rw [Environment.getTypeOpt, h.1, h.2]
  rfl

mutual

/-- Types are evaluated with the declared types only. -/
theorem SameTypes.evaluateType (h : SameTypes e e₀) :
    (te : AstSimplified.TypeExpression) → evaluateType e te = evaluateType e₀ te
  | .tFunction a b => by
    rw [Typer.evaluateType, Typer.evaluateType, h.evaluateType a, h.evaluateType b]
  | .tTuple lst => by rw [Typer.evaluateType, Typer.evaluateType, h.evaluateTypes lst]
  | .tSum m => by rw [Typer.evaluateType, Typer.evaluateType, h.evaluateTypeMap m]
  | .tRecord m => by rw [Typer.evaluateType, Typer.evaluateType, h.evaluateTypeMap m]
  | .tVariable name => by rw [Typer.evaluateType, Typer.evaluateType, h.getTypeOpt]
  | .tConstant _ lst => by rw [Typer.evaluateType, Typer.evaluateType, h.evaluateTypes lst]

theorem SameTypes.evaluateTypes (h : SameTypes e e₀) :
    (lst : List AstSimplified.TypeExpression) → evaluateTypes e lst = evaluateTypes e₀ lst
  | [] => rfl
  | t :: lst => by
    rw [Typer.evaluateTypes, Typer.evaluateTypes, h.evaluateType t, h.evaluateTypes lst]

theorem SameTypes.evaluateTypeMap (h : SameTypes e e₀) :
    (m : List (String × AstSimplified.TypeExpression)) →
      evaluateTypeMap e m = evaluateTypeMap e₀ m
  | [] => rfl
  | (_, t) :: m => by
    rw [Typer.evaluateTypeMap, Typer.evaluateTypeMap, h.evaluateType t, h.evaluateTypeMap m]

end

theorem SameTypes.getConstructor (h : SameTypes e e₀) (k : String) :
    Environment.getConstructor k e = Environment.getConstructor k e₀ := by
  rw [Environment.getConstructor, h.1, h.2]
  rfl

/-- A type expression that is evaluated has the same value in both environments. -/
theorem SameTypes.evaluated (h : SameTypes e e₀) {te : AstSimplified.TypeExpression}
    {t : TypeValue} (ht : Typer.evaluateType e te = .ok t) : Typer.evaluated e₀ te = some t := by
  rw [Typer.evaluated, ← h.evaluateType, ht]
  rfl

/-- An annotation that may be missing. -/
theorem SameTypes.bindMapOption (h : SameTypes e e₀) {o : Option AstSimplified.TypeExpression}
    {tvOpt : Option TypeValue} (ht : Typer.bindMapOption (Typer.evaluateType e) o = .ok tvOpt) :
    o.bind (Typer.evaluated e₀) = tvOpt := by
  cases o with
  | none =>
    cases ht
    rfl
  | some te =>
    obtain ⟨t, hte, rfl⟩ := map_eq_ok.1 ht
    exact h.evaluated hte

end Environments

end Ligo.Typer
