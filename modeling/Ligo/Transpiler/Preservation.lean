import Ligo.Operators.Agreement
import Ligo.Transpiler.Assign
import Ligo.Transpiler.ListLiteral
import Ligo.Transpiler.Match
import Ligo.Typer.Rules

/-!
# Type preservation of the transpiler

A typed expression translates, and its translation is well typed in the intermediate language
(`translate_typed`), at the translation of its type. This holds of the expressions that are
`Supported`, whose rules say for each construct what the transpiler relies on without checking
it. Four of them keep clear of programs that it gets wrong: a lambda has no free names, the path
of an assignment reads the same in both directions, no clause of a match on a variant mentions
`left` or `right`, and `CONTRACT` is applied to an address. The types have to be within the
limit on the size of types (`Written`).

The environment of the intermediate language has to know the free names of the expression only
(`Reflects`). The branches of a match on a variant run below binders that the source does not
have, and the body of a lambda runs where nothing but its parameter is bound.
-/

namespace Ligo.Transpiler

open AstTyped
open CompilerProgram (Known WellTyped Fits known_base fits_of_predicates)
open MiniC.Environment (tmpName)
open Operators (Denotes Arguments TablesAgree)
open Typer (Typed ConstantType PathType literalType)
open Michelson (Types)
open Fuel (bind_eq_ok map_eq_ok map₂_eq_ok)
open Outcome (ok_bind)

/-! ### Types -/

variable {ctx : Michelson.Context}

variable (ctx) in
/-- A type of the intermediate language that may stand in the code and that code may make. -/
def Written (σ : MiniC.TypeValue) : Prop :=
  (∃ u, CompilerType.Ty.type_ σ = .ok u ∧ u.allowed true = true ∧ ctx.admits u = true) ∧
    ∃ n, CompilerType.type_ σ = .ok n

/-- A type that can be written in Michelson has a translation. -/
theorem Written.known {σ : MiniC.TypeValue} (h : Written ctx σ) : Known σ := by
  obtain ⟨⟨u, hu, -⟩, hn⟩ := h
  exact ⟨⟨u, hu⟩, hn⟩

/-- Its Michelson type may stand where operations may. -/
theorem Written.allowed {σ : MiniC.TypeValue} (h : Written ctx σ) {u : Michelson.Ty}
    (hu : CompilerType.Ty.type_ σ = .ok u) : u.allowed true = true := by
  obtain ⟨⟨_, hu', ha, -⟩, -⟩ := h
  cases hu.symm.trans hu'
  exact ha

/-- It is within the limit on the size of types, and so are its parts, below. -/
theorem Written.within {σ : MiniC.TypeValue} (h : Written ctx σ) :
    CompilerProgram.Within ctx σ := by
  obtain ⟨⟨_, hu', -, hwithin⟩, -⟩ := h
  intro u hu
  cases hu.symm.trans hu'
  exact hwithin

section Parts

variable {a b : MiniC.TypeValue}

theorem Written.of_tPair (h : Written ctx (.tPair a b)) : Written ctx a ∧ Written ctx b := by
  obtain ⟨⟨_, hu, ha, hwithin⟩, _, hn⟩ := h
  obtain ⟨ua, ub, hua, hub, rfl⟩ := map₂_eq_ok.1 hu
  obtain ⟨na, hna, hn⟩ := bind_eq_ok.1 hn
  obtain ⟨nb, hnb, -⟩ := bind_eq_ok.1 hn
  obtain ⟨haa, hab⟩ := Bool.and_eq_true_iff.1 ha
  have hwa := Michelson.Context.admits_fst hwithin
  have hwb := Michelson.Context.admits_snd hwithin
  exact ⟨⟨⟨ua, hua, haa, hwa⟩, na, hna⟩, ⟨ub, hub, hab, hwb⟩, nb, hnb⟩

theorem Written.of_tOr (h : Written ctx (.tOr a b)) : Written ctx a ∧ Written ctx b := by
  obtain ⟨⟨_, hu, ha, hwithin⟩, _, hn⟩ := h
  obtain ⟨ua, ub, hua, hub, rfl⟩ := map₂_eq_ok.1 hu
  obtain ⟨na, hna, hn⟩ := bind_eq_ok.1 hn
  obtain ⟨nb, hnb, -⟩ := bind_eq_ok.1 hn
  obtain ⟨haa, hab⟩ := Bool.and_eq_true_iff.1 ha
  have hwa : ctx.admits ua = true :=
    Michelson.Context.admits_of_size_le hwithin (by simp only [Michelson.Ty.size]; omega)
  have hwb : ctx.admits ub = true :=
    Michelson.Context.admits_of_size_le hwithin (by simp only [Michelson.Ty.size]; omega)
  exact ⟨⟨⟨ua, hua, haa, hwa⟩, na, hna⟩, ⟨ub, hub, hab, hwb⟩, nb, hnb⟩

theorem Written.of_tOption (h : Written ctx (.tOption a)) : Written ctx a := by
  obtain ⟨⟨_, hu, ha, hwithin⟩, _, hn⟩ := h
  obtain ⟨ua, hua, rfl⟩ := map_eq_ok.1 hu
  obtain ⟨na, hna, -⟩ := bind_eq_ok.1 hn
  have hwa : ctx.admits ua = true :=
    Michelson.Context.admits_of_size_le hwithin (by simp only [Michelson.Ty.size]; omega)
  exact ⟨⟨ua, hua, ha, hwa⟩, na, hna⟩

theorem Written.of_tList (h : Written ctx (.tList a)) : Written ctx a := by
  obtain ⟨⟨_, hu, ha, hwithin⟩, _, hn⟩ := h
  obtain ⟨ua, hua, rfl⟩ := map_eq_ok.1 hu
  obtain ⟨na, hna, -⟩ := bind_eq_ok.1 hn
  have hwa : ctx.admits ua = true :=
    Michelson.Context.admits_of_size_le hwithin (by simp only [Michelson.Ty.size]; omega)
  exact ⟨⟨ua, hua, ha, hwa⟩, na, hna⟩

/-- The keys of a map have a comparable type. An option of its values is smaller than the
map. -/
theorem Written.of_tMap (h : Written ctx (.tMap a b)) :
    (∃ c, CompilerType.Ty.type_ a = .ok (.comparable c)) ∧ Written ctx (.tOption b) := by
  obtain ⟨⟨_, hu, ha, hwithin⟩, _, hn⟩ := h
  obtain ⟨c, ub, hc, hub, rfl⟩ := map₂_eq_ok.1 hu
  obtain ⟨_, -, hn⟩ := bind_eq_ok.1 hn
  obtain ⟨nb, hnb, -⟩ := bind_eq_ok.1 hn
  have hoption : CompilerType.Ty.type_ (.tOption b) = .ok (.option ub) :=
    bind_eq_ok.2 ⟨ub, hub, rfl⟩
  have hwb : ctx.admits (.option ub) = true :=
    Michelson.Context.admits_of_size_le hwithin (by simp only [Michelson.Ty.size]; omega)
  exact ⟨⟨c, CompilerType.type_of_comparableType hc⟩, ⟨.option ub, hoption, ha, hwb⟩, _,
    bind_eq_ok.2 ⟨nb, hnb, rfl⟩⟩

/-- A function may be pushed when its type may stand in the code. -/
theorem Written.of_tFunction (h : Written ctx (.tFunction a b)) {u : Michelson.Ty}
    (hu : CompilerType.Ty.type_ (.tFunction a b) = .ok u) : u.allowed false = true := by
  have ha := h.allowed hu
  obtain ⟨ua, ub, -, -, rfl⟩ := map₂_eq_ok.1 hu
  exact ha

end Parts

variable (ctx) in
/-- A type of the source whose translation may stand in the code. -/
def Expressible (t : TypeValue) : Prop := ∃ σ, translateType t = .ok σ ∧ Written ctx σ

/-- The types of the source are written as what they are translated to. -/
theorem Expressible.written {t : TypeValue} (h : Expressible ctx t) {σ : MiniC.TypeValue}
    (hσ : translateType t = .ok σ) : Written ctx σ := by
  obtain ⟨_, hσ', hw⟩ := h
  cases hσ.symm.trans hσ'
  exact hw

/-- They have a Michelson type. -/
theorem Expressible.denotes {t : TypeValue} (h : Expressible ctx t) {σ : MiniC.TypeValue}
    (hσ : translateType t = .ok σ) : ∃ u, Denotes t σ u := by
  obtain ⟨⟨u, hu, -⟩, -⟩ := h.written hσ
  exact ⟨u, hσ, hu⟩

/-! ### The expressions that are supported -/

section Supported

variable (ctx)

/-- A literal that the protocol reads. -/
def Readable : Literal → Prop
  | .nat n | .tez n => 0 ≤ n.val
  | .string s => Michelson.printableAscii s = true
  | .address s => ∃ a, ctx.ofB58check s = some a
  | .operation _ => False
  | _ => True

/-- What the transpiler relies on. -/
inductive Supported : AnnotatedExpression → Prop
  | literal {l t env} (ht : Expressible ctx t) (hl : Readable ctx l) :
    Supported (.mk (.eLiteral l) t env)
  | constant {name lst t env} (ht : Expressible ctx t) (hlst : ∀ ae ∈ lst, Supported ae)
    (hcontract : name = "CONTRACT" → lst.map AnnotatedExpression.typeAnnot = [tAddress] ∧
      Expressible ctx (tOption t)) :
    Supported (.mk (.eConstant name lst) t env)
  | variable' {x t env ele} (ht : Expressible ctx t) (hx : x ≠ tmpName)
    (hele : Environment.getOpt x env = some ele)
    (htype : transpileEnvironmentElementType ele = translateType t) :
    Supported (.mk (.eVariable x) t env)
  | application {f arg t env} (ht : Expressible ctx t) (hf : Supported f) (harg : Supported arg) :
    Supported (.mk (.eApplication f arg) t env)
  | lambda {b i o r t env env'} (ht : Expressible ctx t) (hb : b ≠ tmpName)
    (hclosed : FreeNames.annotatedExpression [b] r = [])
    (henv : transpileEnvironment env = .ok env') (hr : Supported r) :
    Supported (.mk (.eLambda (.mk b i o r)) t env)
  | letIn {b rhs r t env} (ht : Expressible ctx t) (hb : b ≠ tmpName) (hrhs : Supported rhs)
    (hr : Supported r) : Supported (.mk (.eLetIn b rhs r) t env)
  | tuple {lst t env} (ht : Expressible ctx t) (hlst : ∀ ae ∈ lst, Supported ae) :
    Supported (.mk (.eTuple lst) t env)
  | tupleAccessor {tpl ind t env} (ht : Expressible ctx t) (htpl : Supported tpl) :
    Supported (.mk (.eTupleAccessor tpl ind) t env)
  | constructor' {name p m env} (ht : Expressible ctx (.tSum m)) (hkeys : (m.map Prod.fst).Nodup)
    (hp : Supported p) : Supported (.mk (.eConstructor name p) (.tSum m) env)
  | record {m t env} (ht : Expressible ctx t)
    (hm : ∀ x : String × AnnotatedExpression, x ∈ m → Supported x.2) :
    Supported (.mk (.eRecord m) t env)
  | recordAccessor {r property t env} (ht : Expressible ctx t) (hr : Supported r) :
    Supported (.mk (.eRecordAccessor r property) t env)
  | map {m t env} (ht : Expressible ctx t)
    (hk : ∀ x : AnnotatedExpression × AnnotatedExpression, x ∈ m → Supported x.1)
    (hv : ∀ x : AnnotatedExpression × AnnotatedExpression, x ∈ m → Supported x.2) :
    Supported (.mk (.eMap m) t env)
  | list {lst t env} (ht : Expressible ctx t) (hlst : ∀ ae ∈ lst, Supported ae) :
    Supported (.mk (.eList lst) t env)
  | lookUp {ds i t env} (ht : Expressible ctx t) (hds : Supported ds) (hi : Supported i) :
    Supported (.mk (.eLookUp ds i) t env)
  | matchBool {ex a b t env} (ht : Expressible ctx t) (hex : Supported ex) (ha : Supported a)
    (hb : Supported b) : Supported (.mk (.eMatching ex (.matchBool a b)) t env)
  | matchOption {ex n name o s t env} (ht : Expressible ctx t) (hex : Supported ex)
    (hn : Supported n) (hname : name ≠ tmpName) (hs : Supported s) :
    Supported (.mk (.eMatching ex (.matchOption n name o s)) t env)
  | matchVariant {ex m t env} {lst : List ((String × String) × AnnotatedExpression)}
    (ht : Expressible ctx t) (hex : Supported ex) (hkeys : (m.map Prod.fst).Nodup)
    (hall : ∀ c ∈ m, ∃ x ∈ lst, x.1.1 = c.1)
    (hnames : ∀ x ∈ lst, x.1.2 ≠ tmpName ∧ "left" ∉ FreeNames.annotatedExpression [x.1.2] x.2 ∧
      "right" ∉ FreeNames.annotatedExpression [x.1.2] x.2)
    (hlst : ∀ x ∈ lst, Supported x.2) :
    Supported (.mk (.eMatching ex (.matchVariant lst (.tSum m))) t env)
  | sequence {a b t env} (ht : Expressible ctx t) (ha : Supported a) (hb : Supported b) :
    Supported (.mk (.eSequence a b) t env)
  | loop {ex body t env} (ht : Expressible ctx t) (hex : Supported ex) (hbody : Supported body) :
    Supported (.mk (.eLoop ex body) t env)
  | assign {x tx path ae t env} (ht : Expressible ctx t) (hx : x ≠ tmpName)
    (hpath : path.reverse = path) (htx : Expressible ctx tx) (hae : Supported ae) :
    Supported (.mk (.eAssign ⟨x, tx⟩ path ae) t env)

end Supported

/-- The type of every supported expression can be expressed. -/
theorem Supported.expressible {ae : AnnotatedExpression} (h : Supported ctx ae) :
    Expressible ctx ae.typeAnnot := by
  cases h <;> assumption

/-! ### Environments -/

/-- The environment binds the names to the translations of the types that the context gives
them. -/
def Reflects (Γ : Typer.Context) (env : MiniC.Environment) (ae : AnnotatedExpression) : Prop :=
  ∀ x ∈ FreeNames.annotatedExpression [] ae, ∀ t, Γ x = some t →
    ∃ σ, translateType t = .ok σ ∧ Scope.lookup x env = some σ

section Reflects

variable {Γ : Typer.Context} {env : MiniC.Environment} {ae ae' : AnnotatedExpression}

/-- The environment reflects the context for an expression that has fewer free names. -/
theorem Reflects.mono (h : Reflects Γ env ae)
    (hsub : ∀ x ∈ FreeNames.annotatedExpression [] ae', x ∈ FreeNames.annotatedExpression [] ae) :
    Reflects Γ env ae' :=
  fun x hx => h x (hsub x hx)

variable {y : String} {t : TypeValue} {σ : MiniC.TypeValue}

/-- Below a binder, in an environment that has the other free names as they were. -/
theorem Reflects.bind_of_lookup (h : Reflects Γ env ae) {env' : MiniC.Environment}
    (hσ : translateType t = .ok σ)
    (hsub : ∀ x ∈ FreeNames.annotatedExpression [y] ae',
      x ∈ FreeNames.annotatedExpression [] ae ∧ Scope.lookup x env' = Scope.lookup x env) :
    Reflects (Γ.bind y t) ((y, σ) :: env') ae' := by
  intro x hx s hs
  by_cases hxy : x = y
  · subst hxy
    rw [Typer.Context.bind, if_pos rfl] at hs
    cases hs
    exact ⟨σ, hσ, by rw [Scope.lookup, if_pos rfl]⟩
  · have hfree : x ∈ FreeNames.annotatedExpression [y] ae' :=
      FreeNames.mem_iff.2 ⟨by simpa using hxy, hx⟩
    obtain ⟨hmem, hlookup⟩ := hsub x hfree
    rw [Typer.Context.bind, if_neg hxy] at hs
    rw [Scope.lookup, if_neg hxy, hlookup]
    exact h x hmem s hs

/-- Under a binder of a translated type it reflects the extended context. -/
theorem Reflects.bind (h : Reflects Γ env ae) (hσ : translateType t = .ok σ)
    (hsub : ∀ x ∈ FreeNames.annotatedExpression [y] ae',
      x ∈ FreeNames.annotatedExpression [] ae) :
    Reflects (Γ.bind y t) ((y, σ) :: env) ae' :=
  h.bind_of_lookup hσ fun x hx => ⟨hsub x hx, rfl⟩

end Reflects

/-! ### Translations -/

section Cases

variable {env : MiniC.Environment}

variable (ctx env) in
/-- The expression is translated to `e`, which has the translation of its type. -/
structure Lowers (ae : AnnotatedExpression) (e : MiniC.Expression) : Prop where
  eq : translateAnnotatedExpression ae = .ok e
  type : translateType ae.typeAnnot = .ok e.typeValue
  typed : WellTyped ctx env e

/-- Expressions that all can be lowered are lowered one by one. -/
theorem exists_forall₂ {lst : List AnnotatedExpression}
    (h : ∀ ae ∈ lst, ∃ e, Lowers ctx env ae e) : ∃ es, List.Forall₂ (Lowers ctx env) lst es := by
  induction lst with
  | nil => exact ⟨[], .nil⟩
  | cons ae lst ih =>
    obtain ⟨e, he⟩ := h ae List.mem_cons_self
    obtain ⟨es, hes⟩ := ih fun ae hae => h ae (List.mem_cons_of_mem _ hae)
    exact ⟨e :: es, .cons he hes⟩

/-- The list of them is translated without an error. -/
theorem bindList_translateAll {lst : List AnnotatedExpression} {es : List MiniC.Expression}
    (h : List.Forall₂ (Lowers ctx env) lst es) : bindList (translateAll lst) = .ok es := by
  rw [translateAll_eq, bindList_eq_ok, List.forall₂_map_left_iff]
  exact h.imp fun _ _ h => h.eq

theorem wellTyped_of_forall₂ {α : Type} {f : α → AnnotatedExpression} {lst : List α}
    {es : List MiniC.Expression} (h : List.Forall₂ (fun x => Lowers ctx env (f x)) lst es) :
    ∀ e ∈ es, WellTyped ctx env e := by
  induction h with
  | nil => simp
  | cons he _ ih => exact List.forall_mem_cons.2 ⟨he.typed, ih⟩

/-- A constant on arguments whose types have a place on the stack. -/
theorem wellTyped_constant {name : String} {es : List MiniC.Expression} {σ : MiniC.TypeValue}
    {u : Michelson.Ty} (bef : Michelson.StackTy) (hes : ∀ e ∈ es, WellTyped ctx env e)
    (hbef : List.Forall₂ (fun e v => CompilerType.Ty.type_ e.typeValue = .ok v) es bef)
    (hσ : Known σ) (hu : CompilerType.Ty.type_ σ = .ok u) (hfits : Fits ctx name σ es bef u) :
    WellTyped ctx env (.mk (.eConstant name es) σ) := by
  refine .constant hes ?_ hσ hu hfits
  clear hes hfits
  induction hbef with
  | nil => rfl
  | cons hv _ ih =>
    rw [List.mapM_cons, hv, ih]
    rfl

/-! ### Literals and variables -/

/-- Literals whose text can be read back. -/
theorem lowers_literal {l : Literal} {aenv : FullEnvironment} (ht : Expressible ctx (literalType l))
    (hl : Readable ctx l) :
    ∃ e, Lowers ctx env (.mk (.eLiteral l) (literalType l) aenv) e := by
  obtain ⟨σ, hσ, hw⟩ := ht
  -- a literal denotes at the base type that it is written at
  have hall : CompilerProgram.WellFormed ctx (translateLiteral l) σ ∧
      ∀ u, CompilerType.Ty.type_ σ = .ok u → u.allowed false = true := by
    cases l with
    | bytes => cases hσ
    | operation => exact hl.elim
    | address s =>
      obtain ⟨a, ha⟩ := hl
      cases hσ
      refine ⟨.address ha, fun u hu => ?_⟩
      cases hu
      rfl
    | unit | bool | int | nat | tez | string =>
      cases hσ
      refine ⟨by constructor <;> exact hl, fun u hu => ?_⟩
      cases hu
      rfl
  obtain ⟨⟨u, hu, -⟩, -⟩ := id hw
  exact ⟨.mk (.eLiteral (translateLiteral l)) σ, translate_mk hσ, hσ,
    .literal hw.known hu (hall.2 u hu) (hw.within u hu) hall.1⟩

/-- A variable is found at the type of its binding: the environment reflects the context. -/
theorem lowers_variable {Γ : Typer.Context} {x : String} {t : TypeValue}
    {aenv : FullEnvironment} {ele : EnvironmentElement} (ht : Expressible ctx t) (hx : x ≠ tmpName)
    (hele : Environment.getOpt x aenv = some ele)
    (htype : transpileEnvironmentElementType ele = translateType t) (hΓ : Γ x = some t)
    (henv : Reflects Γ env (.mk (.eVariable x) t aenv)) :
    ∃ e, Lowers ctx env (.mk (.eVariable x) t aenv) e := by
  obtain ⟨σ, hσ, hlookup⟩ := henv x (List.mem_singleton_self x) t hΓ
  refine ⟨.mk (.eVariable x) σ, ?_, hσ, .variable' hx hlookup (ht.written hσ).known⟩
  rw [translate_mk hσ, translateExpression]
  exact bind_eq_ok.2 ⟨ele, traceOption_eq_ok.2 hele,
    bind_eq_ok.2 ⟨σ, htype.trans hσ, rfl⟩⟩

/-! ### Constants -/

/-- The arguments of a constant have the types that the predicate of the constant expects. -/
theorem arguments_of_forall₂ {lst : List AnnotatedExpression} {es : List MiniC.Expression}
    (h : List.Forall₂ (Lowers ctx env) lst es) (hlst : ∀ ae ∈ lst, Expressible ctx ae.typeAnnot) :
    ∃ bef, Arguments (lst.map AnnotatedExpression.typeAnnot) es bef ∧
      List.Forall₂ (fun e v => CompilerType.Ty.type_ e.typeValue = .ok v) es bef := by
  induction h with
  | nil => exact ⟨[], .nil, .nil⟩
  | cons he _ ih =>
    obtain ⟨hae, hlst⟩ := List.forall_mem_cons.1 hlst
    obtain ⟨u, hu⟩ := hae.denotes he.type
    obtain ⟨bef, hargs, hbef⟩ := ih hlst
    exact ⟨u :: bef, .cons hu hargs, .cons hu.2 hbef⟩

theorem nil_of_none {name : String} {args : List TypeValue} {t : TypeValue}
    (h : ConstantType name args t) (hname : name = "NONE") : args = [] := by
  cases h with
  | assert => exact absurd hname (by decide)
  | operator ha _ =>
    cases ha with
    | none => rfl
    | compare hs | logical hs =>
      rw [hname] at hs
      simp at hs
    | _ => exact absurd hname (by decide)

/-- The result of `PACK` has no translation. -/
theorem ne_pack {name : String} {args : List TypeValue} {expected : Option TypeValue}
    {t : TypeValue} {σ : MiniC.TypeValue} (h : Operators.Typer.Accepts name args expected t)
    (hσ : translateType t = .ok σ) : name ≠ "PACK" := by
  intro hname
  cases h with
  | pack => cases hσ
  | compare hs | logical hs =>
    rw [hname] at hs
    simp at hs
  | _ => exact absurd hname (by decide)

/-- Either branch of an assertion may be left with the message: one fails with it, the other one
drops it for the unit. -/
theorem types_assert {v : Michelson.Ty} {rest : Michelson.StackTy} :
    Types ctx (Michelson.iIf (Michelson.seq [Michelson.iFailwith])
      (Michelson.seq [Michelson.iDrop, Michelson.iPushUnit]))
      (.comparable .bool :: v :: rest) (.unit :: rest) := by
  have hrest : Types ctx (Michelson.seq [Michelson.iDrop, Michelson.iPushUnit]) (v :: rest)
      (.unit :: rest) := Michelson.types_iDrop.cons Michelson.types_iPushUnit.singleton
  change (do
    let a ← Michelson.typeSeq ctx [Michelson.seq [Michelson.iFailwith]] (v :: rest)
    let b ← Michelson.typeSeq ctx [Michelson.strip
      (Michelson.seq [Michelson.iDrop, Michelson.iPushUnit])] (v :: rest)
    Michelson.merge a b) = _
  rw [Michelson.typeSeq_singleton, hrest]
  rfl

/-- The code of every constant that the type checker accepts takes its arguments. -/
theorem agree_of_constantType {name : String} {args : List TypeValue} {t : TypeValue}
    {es : List MiniC.Expression} {bef : Michelson.StackTy} (h : ConstantType name args t)
    (hargs : Arguments args es bef) (ht : Expressible ctx t) (hnone : name ≠ "NONE")
    (hcontract : name = "CONTRACT" → args = [tAddress] ∧ Expressible ctx (tOption t)) :
    TablesAgree ctx name es bef t := by
  obtain ⟨σ, hσ, hw⟩ := ht
  cases h with
  | assert =>
    obtain ⟨e₁, e₂, u, v, rfl, rfl, h₁, -⟩ := hargs.of_two
    obtain rfl := h₁.of_base rfl
    refine ⟨.tBase .unit, .unit, ⟨rfl, rfl⟩, fits_of_predicates rfl rfl fun rest => ?_⟩
    -- the branch that goes on drops the condition and pushes the unit
    exact types_assert
  | @operator _ _ expected _ ha hopt =>
    -- an option of the values of a map is as good a type as the map
    have hoption {k v : TypeValue} {τ : MiniC.TypeValue} {u : Michelson.Ty}
        (hσ : translateType (tMap k v) = .ok σ) (hv : Denotes v τ u) :
        u.allowed true = true ∧ ctx.admits (.option u) = true := by
      obtain ⟨κ, ω, hκ, hω, rfl⟩ := map₂_eq_ok.1 hσ
      cases hω.symm.trans hv.1
      have hwo := hw.of_tMap.2
      have hou : CompilerType.Ty.type_ (.tOption τ) = .ok (.option u) := by
        rw [CompilerType.Ty.type_, hv.2]
        rfl
      exact ⟨hwo.of_tOption.allowed hv.2, hwo.within _ hou⟩
    -- `MAP_REMOVE` and `CONTRACT` write a type into the code, which the protocol has to allow
    by_cases hremove : name = "MAP_REMOVE"
    · obtain ⟨k, v, rfl, rfl⟩ := ha.of_mapRemove hremove
      subst hremove
      exact (Operators.agree_mapRemove_iff hargs).2 fun τ u hv => hoption hσ hv
    by_cases hupdate : name = "MAP_UPDATE"
    · obtain ⟨k, v, rfl, rfl⟩ := ha.of_mapUpdate hupdate
      subst hupdate
      exact (Operators.agree_mapUpdate_iff hargs).2 fun τ u hv => (hoption hσ hv).2
    by_cases hsome : name = "SOME"
    · obtain ⟨a, rfl, rfl⟩ := ha.of_some hsome
      subst hsome
      refine (Operators.agree_some_iff hargs).2 fun τ u hv => ?_
      obtain ⟨τ', hτ', rfl⟩ := map_eq_ok.1 hσ
      cases hv.1.symm.trans hτ'
      have hou : CompilerType.Ty.type_ (.tOption τ) = .ok (.option u) := by
        rw [CompilerType.Ty.type_, hv.2]
        rfl
      exact hw.within _ hou
    by_cases hname : name = "CONTRACT"
    · obtain ⟨a, p, rfl, -, rfl⟩ := ha.of_contract hname
      obtain ⟨haddress, σ', hσ', hw'⟩ := hcontract hname
      cases haddress
      subst hname
      refine (Operators.agree_contract_iff hargs).2 ⟨hargs.address_iff.2 rfl, ?_⟩
      obtain ⟨π, hπ, rfl⟩ := map_eq_ok.1 hσ
      obtain ⟨⟨u, hu, hallowed, -⟩, -⟩ := hw
      obtain ⟨v, hv, rfl⟩ := map_eq_ok.1 hu
      -- the code pushes an option, so the option of the contract has to be within the limit too
      have hcp : translateType (tContract p) = .ok (.tContract π) := bind_eq_ok.2 ⟨π, hπ, rfl⟩
      have hocp : translateType (tOption (tContract p)) = .ok (.tOption (.tContract π)) :=
        bind_eq_ok.2 ⟨_, hcp, rfl⟩
      cases hσ'.symm.trans hocp
      have hty : CompilerType.Ty.type_ (.tOption (.tContract π)) = .ok (.option (.contract v)) := by
        rw [CompilerType.Ty.type_, CompilerType.Ty.type_, hv]
        rfl
      exact ⟨π, v, ⟨hπ, hv⟩, hallowed, hw'.within _ hty⟩
    exact Operators.agree_of_accepts ha hargs hnone (ne_pack ha hσ) hsome hupdate hremove hname

/-- Constants: the table of the type checker agrees with the table of predicates on the names
that are covered. -/
theorem lowers_constant {name : String} {lst : List AnnotatedExpression} {t : TypeValue}
    {aenv : FullEnvironment} {es : List MiniC.Expression}
    (h : ConstantType name (lst.map AnnotatedExpression.typeAnnot) t) (ht : Expressible ctx t)
    (hlst : ∀ ae ∈ lst, Expressible ctx ae.typeAnnot)
    (hcontract : name = "CONTRACT" → lst.map AnnotatedExpression.typeAnnot = [tAddress] ∧
      Expressible ctx (tOption t))
    (hes : List.Forall₂ (Lowers ctx env) lst es) :
    ∃ e, Lowers ctx env (.mk (.eConstant name lst) t aenv) e := by
  obtain ⟨σ, hσ, hw⟩ := id ht
  by_cases hnone : name = "NONE"
  · -- it is written as `NONE` with the type of its value
    obtain ⟨o, rfl⟩ := h.of_none hnone
    obtain rfl := List.map_eq_nil_iff.1 (nil_of_none h hnone)
    subst hnone
    cases hes
    obtain ⟨τ, hτ, rfl⟩ := map_eq_ok.1 hσ
    obtain ⟨⟨u, hu, ha, -⟩, -⟩ := hw.of_tOption
    refine ⟨.mk (.eMakeNone τ) (.tOption τ), ?_, hσ, .makeNone hw.known hu ha hw.within⟩
    rw [translate_mk hσ]
    rfl
  · obtain ⟨bef, hargs, hbef⟩ := arguments_of_forall₂ hes hlst
    obtain ⟨σ', u, ⟨hσ', hu⟩, hfits⟩ : TablesAgree ctx name es bef t :=
      agree_of_constantType h hargs ht hnone hcontract
    cases hσ.symm.trans hσ'
    refine ⟨.mk (.eConstant name es) σ, ?_, hσ,
      wellTyped_constant bef (wellTyped_of_forall₂ (f := id) hes) hbef hw.known hu hfits⟩
    rw [translate_mk hσ, translateExpression]
    refine bind_eq_ok.2 ⟨es, bindList_translateAll hes, ?_⟩
    split
    · exact absurd rfl hnone
    · rfl

/-! ### Functions and bindings -/

/-- The types of the function and its argument fit, so the code executes a quote or a closure.
-/
theorem lowers_application {f arg : AnnotatedExpression} {f' arg' : MiniC.Expression}
    {t : TypeValue} {aenv : FullEnvironment} (ht : Expressible ctx t)
    (h : f.typeAnnot = .tFunction arg.typeAnnot t) (hf : Lowers ctx env f f')
    (harg : Lowers ctx env arg arg') :
    ∃ e, Lowers ctx env (.mk (.eApplication f arg) t aenv) e := by
  obtain ⟨σ, hσ, hw⟩ := ht
  refine ⟨.mk (.eApplication f' arg') σ, ?_, hσ, .quoteApplication hf.typed harg.typed hw.known ?_⟩
  · rw [translate_mk hσ, translateExpression, hf.eq, harg.eq]
    rfl
  · -- the type of the function is translated to the function of the translated types
    have htype := hf.type
    rw [h] at htype
    obtain ⟨α, hα, htype⟩ := bind_eq_ok.1 htype
    obtain ⟨β, hβ, htype⟩ := bind_eq_ok.1 htype
    cases harg.type.symm.trans hα
    cases hσ.symm.trans hβ
    exact (Except.ok.inj htype).symm

/-- A lambda without free names becomes a quote. -/
theorem lowers_lambda {b : String} {i o : TypeValue} {r : AnnotatedExpression}
    {aenv : FullEnvironment} {env' : MiniC.Environment} (ht : Expressible ctx (.tFunction i o))
    (hb : b ≠ tmpName) (hclosed : FreeNames.annotatedExpression [b] r = [])
    (henv : transpileEnvironment aenv = .ok env') (ho : r.typeAnnot = o)
    (hr : ∀ σ, translateType i = .ok σ → ∃ r', Lowers ctx [(b, σ)] r r') :
    ∃ e, Lowers ctx env (.mk (.eLambda (.mk b i o r)) (.tFunction i o) aenv) e := by
  obtain ⟨σ, hσ, hw⟩ := ht
  obtain ⟨ι, ω, hι, hω, rfl⟩ := map₂_eq_ok.1 hσ
  obtain ⟨r', hr'⟩ := hr ι hι
  have hω' := hr'.type
  rw [ho] at hω'
  cases hω.symm.trans hω'
  -- no variable is captured: the transpiler makes a quote, not a closure
  have hfv : FreeVariables.annotatedExpression [b] r = [] := by
    refine List.eq_nil_iff_forall_not_mem.2 fun x hx => ?_
    have hname := FreeVariables.mem_freeNames hx
    rw [hclosed] at hname
    cases hname
  obtain ⟨⟨u, hu, -⟩, -⟩ := id hw
  refine ⟨.mk (.eLiteral (.dFunction (.mk b ι r'.typeValue (ezEReturn r'))))
    (.tFunction ι r'.typeValue), ?_, hσ, ?_⟩
  · rw [translate_mk hσ, translateExpression, henv, ok_bind]
    exact translateLambda_quote hfv hr'.eq hι hω
  · exact .literal hw.known hu (hw.of_tFunction hu) (hw.within u hu) (.quote hb hr'.typed)

/-- The body is lowered under the binding; the name is none that the compiler uses. -/
theorem lowers_letIn {b : String} {rhs r : AnnotatedExpression} {rhs' r' : MiniC.Expression}
    {aenv : FullEnvironment} (hb : b ≠ tmpName) (hrhs : Lowers ctx env rhs rhs')
    (hr : Lowers ctx ((b, rhs'.typeValue) :: env) r r') :
    ∃ e, Lowers ctx env (.mk (.eLetIn b rhs r) r.typeAnnot aenv) e := by
  refine ⟨.mk (.eLetIn (b, rhs'.typeValue) rhs' r') r'.typeValue, ?_, hr.type,
    .letIn hb hrhs.typed hr.typed⟩
  rw [translate_mk hr.type, translateExpression, hrhs.eq, hr.eq]
  rfl

theorem lowers_sequence {a b : AnnotatedExpression} {a' b' : MiniC.Expression}
    {aenv : FullEnvironment} (ha : Lowers ctx env a a') (hb : Lowers ctx env b b') :
    ∃ e, Lowers ctx env (.mk (.eSequence a b) b.typeAnnot aenv) e := by
  refine ⟨.mk (.eSequence a' b') b'.typeValue, ?_, hb.type, .sequence ha.typed hb.typed⟩
  rw [translate_mk hb.type, translateExpression, ha.eq, hb.eq]
  rfl

/-- The translation has a base type. -/
theorem Lowers.typeValue_of {ae : AnnotatedExpression} {e : MiniC.Expression} {t : TypeValue}
    {σ : MiniC.TypeValue} (h : Lowers ctx env ae e) (ht : ae.typeAnnot = t)
    (hσ : translateType t = .ok σ) : e.typeValue = σ := by
  have htype := h.type
  rw [ht, hσ] at htype
  exact (Except.ok.inj htype).symm

/-- The condition is a boolean and the body leaves nothing. -/
theorem lowers_loop {ex body : AnnotatedExpression} {ex' body' : MiniC.Expression}
    {aenv : FullEnvironment} (hbool : ex.typeAnnot = tBool) (hunit : body.typeAnnot = tUnit)
    (hex : Lowers ctx env ex ex') (hbody : Lowers ctx env body body') :
    ∃ e, Lowers ctx env (.mk (.eLoop ex body) tUnit aenv) e := by
  have hcond : ex'.typeValue = .tBase .bool := hex.typeValue_of hbool rfl
  have hnothing : body'.typeValue = .tBase .unit := hbody.typeValue_of hunit rfl
  have hσ : translateType tUnit = .ok (.tBase .unit) := rfl
  refine ⟨.mk (.eWhile ex' body') (.tBase .unit), ?_, hσ,
    .while' hex.typed hcond hbody.typed hnothing⟩
  rw [translate_mk hσ, translateExpression, hex.eq, hbody.eq]
  rfl

/-- A path that has a type leads to a component. -/
theorem resolve_of_pathType {t u : TypeValue} {path : List Access} (h : PathType t path u) :
    ∃ fs : List Field, path = fs.map Field.typed ∧ ∃ steps, resolve t fs = some (u, steps) := by
  -- every step of the path is a component of the type that it steps into
  induction h with
  | nil => exact ⟨[], rfl, [], rfl⟩
  | @tuple tys ind t path u h _ ih =>
    obtain ⟨fs, rfl, steps, hsteps⟩ := ih
    obtain ⟨steps₁, hsteps₁⟩ := (componentOf_iff (T := .tTuple tys) (f := .tuple ind)).2
      ((componentOf_fst _ _).trans h)
    refine ⟨.tuple ind :: fs, rfl, steps₁ ++ steps, ?_⟩
    rw [resolve, hsteps₁]
    change (resolve t fs).bind _ = _
    rw [hsteps]
    rfl
  | @record m property t path u h _ ih =>
    obtain ⟨fs, rfl, steps, hsteps⟩ := ih
    obtain ⟨steps₁, hsteps₁⟩ := (componentOf_iff (T := .tRecord m) (f := .record property)).2
      ((componentOf_fst _ _).trans h)
    refine ⟨.record property :: fs, rfl, steps₁ ++ steps, ?_⟩
    rw [resolve, hsteps₁]
    change (resolve t fs).bind _ = _
    rw [hsteps]
    rfl

/-- A path that reads the same in both directions is resolved as the type checker does. -/
theorem lowers_assign {Γ : Typer.Context} {x : String} {tx : TypeValue} {path : List Access}
    {ae : AnnotatedExpression} {e' : MiniC.Expression} {aenv : FullEnvironment}
    (hx : x ≠ tmpName) (hreverse : path.reverse = path) (hΓ : Γ x = some tx)
    (hpath : PathType tx path ae.typeAnnot) (htx : Expressible ctx tx)
    (henv : Reflects Γ env (.mk (.eAssign ⟨x, tx⟩ path ae) tUnit aenv))
    (hae : Lowers ctx env ae e') :
    ∃ e, Lowers ctx env (.mk (.eAssign ⟨x, tx⟩ path ae) tUnit aenv) e := by
  obtain ⟨σ, hσ, hlookup⟩ := henv x (List.mem_append_left _ (List.mem_singleton_self x)) tx hΓ
  obtain ⟨fs, rfl, steps, hsteps⟩ := resolve_of_pathType hpath
  -- the transpiler resolves a path from its other end
  have hfs : fs.reverse = fs := by
    refine List.map_injective_iff.2 Field.typed_injective ?_
    rw [List.map_reverse, hreverse]
  obtain ⟨τ, hτ, hat⟩ := resolve_translateType hsteps hσ
  cases hae.type.symm.trans hτ
  refine ⟨.mk (.eAssignment x steps e') (.tBase .unit), ?_, rfl,
    .assignment hx hlookup hae.typed hat fun _ => (htx.written hσ).within⟩
  have hunit : translateType tUnit = .ok (.tBase .unit) := rfl
  have hpath' : assignPath tx (fs.map Field.typed) = .ok (ae.typeAnnot, steps) :=
    (transpiler_assignPath_iff hσ).2 (by rw [hfs, hsteps])
  rw [translate_mk hunit, translateExpression, hpath', hae.eq]
  rfl

/-! ### Products -/

/-- The pair of the components, when the pair of their types may stand in the code. -/
theorem wellTyped_fold_pair {ι : Type} {es : ι → MiniC.Expression}
    (hes : ∀ i, WellTyped ctx env (es i)) {t : AppendTree ι}
    (hw : Written ctx (t.fold (fun i => (es i).typeValue) .tPair)) :
    (t.fold es pairExpression).typeValue = t.fold (fun i => (es i).typeValue) .tPair ∧
      WellTyped ctx env (t.fold es pairExpression) := by
  induction t with
  | leaf i => exact ⟨rfl, hes i⟩
  | node a b size full iha ihb =>
    obtain ⟨hwa, hwb⟩ := hw.of_tPair
    obtain ⟨htypea, ha⟩ := iha hwa
    obtain ⟨htypeb, hb⟩ := ihb hwb
    obtain ⟨⟨ua, hua, -⟩, -⟩ := hwa
    obtain ⟨⟨ub, hub, -⟩, -⟩ := hwb
    rw [AppendTree.fold] at hw ⊢
    rw [AppendTree.fold, pairExpression, htypea, htypeb]
    -- a node is a `PAIR`, whose type is a part of the type of the whole
    have hpair : CompilerType.Ty.type_ (.tPair (a.fold (fun i => (es i).typeValue) .tPair)
        (b.fold (fun i => (es i).typeValue) .tPair)) = .ok (.pair ua ub) := by
      rw [CompilerType.Ty.type_, hua, hub]
      rfl
    have hwithin : ctx.admits (.pair ua ub) = true := hw.within _ hpair
    refine ⟨rfl, wellTyped_constant [ua, ub] (u := .pair ua ub) ?_ ?_ hw.known hpair
      (fits_of_predicates rfl rfl fun _ => Michelson.types_iPair hwithin)⟩
    · exact List.forall_mem_cons.2 ⟨ha, List.forall_mem_singleton.2 hb⟩
    · exact .cons (by rw [htypea, hua]) (.cons (by rw [htypeb, hub]) .nil)

/-- A product of components that translate. -/
theorem lowers_product {α : Type} {f : α → AnnotatedExpression} {xs : List α}
    (h : ∀ x ∈ xs, ∃ e, Lowers ctx env (f x) e) {σ : MiniC.TypeValue}
    (hσ : foldNe id (fun a b => .ok (.tPair a b))
      (AppendTree.ofList (xs.map fun x => translateType (f x).typeAnnot)) = .ok σ)
    (hw : Written ctx σ) :
    ∃ e, foldNe id pairNode (AppendTree.ofList (xs.map fun x =>
        translateAnnotatedExpression (f x))) = .ok e ∧ e.typeValue = σ ∧ WellTyped ctx env e := by
  -- the components with their translations
  obtain ⟨ps, rfl⟩ : ∃ ps : List { p : α × MiniC.Expression // Lowers ctx env (f p.1) p.2 },
      xs = ps.map fun p => p.1.1 := by
    clear hσ hw
    induction xs with
    | nil => exact ⟨[], rfl⟩
    | cons x xs ih =>
      obtain ⟨e, he⟩ := h x List.mem_cons_self
      obtain ⟨ps, rfl⟩ := ih fun x hx => h x (List.mem_cons_of_mem _ hx)
      exact ⟨⟨(x, e), he⟩ :: ps, rfl⟩
  rw [List.map_map, AppendTree.ofList_map] at hσ ⊢
  cases ht : AppendTree.ofList ps with
  | none =>
    rw [ht] at hσ
    cases hσ
  | some t =>
    rw [ht] at hσ
    rw [Option.map_some] at hσ ⊢
    have htype : t.fold (fun p => p.1.2.typeValue) .tPair = σ := by
      refine Except.ok.inj (Eq.trans (Eq.symm ?_) hσ)
      exact foldNe_map (fun p => p.2.type) (fun a b => rfl) t
    subst htype
    obtain ⟨htype, htyped⟩ := wellTyped_fold_pair (fun p => p.2.typed) hw
    refine ⟨t.fold (fun p => p.1.2) pairExpression, ?_, htype, htyped⟩
    exact foldNe_map (fun p => p.2.eq) (fun a b => rfl) t

/-- The components of a tuple are paired up in a balanced tree. -/
theorem lowers_tuple {lst : List AnnotatedExpression} {aenv : FullEnvironment}
    (ht : Expressible ctx (.tTuple (lst.map AnnotatedExpression.typeAnnot)))
    (h : ∀ ae ∈ lst, ∃ e, Lowers ctx env ae e) :
    ∃ e, Lowers ctx env
      (.mk (.eTuple lst) (.tTuple (lst.map AnnotatedExpression.typeAnnot)) aenv) e := by
  obtain ⟨σ, hσ, hw⟩ := ht
  have hfold := hσ
  rw [translateType, translateTypes_eq, List.map_map] at hfold
  obtain ⟨e, he, rfl, htyped⟩ := lowers_product (f := id) h hfold hw
  refine ⟨e, ?_, hσ, htyped⟩
  rw [translate_mk hσ, translateExpression, translateAll_eq]
  exact he

theorem lowers_record {m : List (String × AnnotatedExpression)} {aenv : FullEnvironment}
    (ht : Expressible ctx (.tRecord (m.map fun x => (x.1, x.2.typeAnnot))))
    (h : ∀ x ∈ m, ∃ e, Lowers ctx env x.2 e) :
    ∃ e, Lowers ctx env
      (.mk (.eRecord m) (.tRecord (m.map fun x => (x.1, x.2.typeAnnot))) aenv) e := by
  obtain ⟨σ, hσ, hw⟩ := ht
  have hfold := hσ
  rw [translateType, translateFieldTypes_eq, List.map_map] at hfold
  obtain ⟨e, he, rfl, htyped⟩ := lowers_product (f := Prod.snd) h hfold hw
  refine ⟨e, ?_, hσ, htyped⟩
  rw [translate_mk hσ, translateExpression, translateFields_eq]
  exact he

/-- The accessor along a path has the type that is recorded last. -/
theorem typeValue_access {path : List (MiniC.TypeValue × MiniC.Step)} {e : MiniC.Expression}
    {τ τ' : MiniC.TypeValue} (he : e.typeValue = τ) (h : Recorded path τ τ') :
    (path.foldl accessNode e).typeValue = τ' := by
  -- from the front: the first component is what the rest of the path starts from
  induction path generalizing e τ with
  | nil => exact he.trans h
  | cons x path ih =>
    obtain ⟨σ, step⟩ := x
    cases step <;> cases τ
    case left.tPair a b =>
      obtain ⟨rfl, h⟩ := h
      exact ih rfl h
    case right.tPair a b =>
      obtain ⟨rfl, h⟩ := h
      exact ih rfl h
    all_goals exact h.elim

/-- An accessor whose steps are recorded. -/
theorem lowers_steps {prev : AnnotatedExpression} {prev' : MiniC.Expression} {e : Expression}
    {path : List (MiniC.TypeValue × MiniC.Step)} {t : TypeValue} {τ : MiniC.TypeValue}
    {aenv : FullEnvironment} (hexpr : Expressible ctx prev.typeAnnot) (hprev : Lowers ctx env prev prev')
    (hrecorded : Recorded path prev'.typeValue τ) (hτ : translateType t = .ok τ)
    (he : translateExpression e t aenv τ = .ok (path.foldl accessNode prev')) :
    Lowers ctx env (.mk e t aenv) (path.foldl accessNode prev') where
  eq := (translate_mk hτ).trans he
  type := hτ.trans (congrArg Except.ok (typeValue_access rfl hrecorded).symm)
  typed := wellTyped_access hprev.typed rfl (hexpr.written hprev.type).known hrecorded

/-- The path to a component passes through pairs only. -/
theorem lowers_tupleAccessor {tpl : AnnotatedExpression} {tpl' : MiniC.Expression} {ind : ℕ}
    {tys : List TypeValue} {t : TypeValue} {aenv : FullEnvironment}
    (htpl : Expressible ctx tpl.typeAnnot) (htys : tpl.typeAnnot = .tTuple tys)
    (h : tys[ind]? = some t) (htpl' : Lowers ctx env tpl tpl') :
    ∃ e, Lowers ctx env (.mk (.eTupleAccessor tpl ind) t aenv) e := by
  have hσ := htpl'.type
  rw [htys] at hσ
  obtain ⟨steps, hsteps⟩ := (componentOf_iff (T := .tTuple tys) (f := .tuple ind)).2
    ((componentOf_fst _ _).trans h)
  obtain ⟨tys', path, τ, htys', hpath, -, hrecorded, hτ⟩ := tupleAccess_ok hsteps hσ
  exact ⟨path.foldl accessNode tpl', lowers_steps htpl htpl' hrecorded hτ
    (translate_eTupleAccessor htys hσ htys' hpath htpl'.eq)⟩

theorem lowers_recordAccessor {r : AnnotatedExpression} {r' : MiniC.Expression}
    {property : String} {m : List (String × TypeValue)} {t : TypeValue} {aenv : FullEnvironment}
    (hr : Expressible ctx r.typeAnnot) (hm : r.typeAnnot = .tRecord m)
    (h : m.lookup property = some t) (hr' : Lowers ctx env r r') :
    ∃ e, Lowers ctx env (.mk (.eRecordAccessor r property) t aenv) e := by
  have hσ := hr'.type
  rw [hm] at hσ
  obtain ⟨steps, hsteps⟩ := (componentOf_iff (T := .tRecord m) (f := .record property)).2
    ((componentOf_fst _ _).trans h)
  obtain ⟨m', path, τ, hm', hpath, -, hrecorded, hτ⟩ := recordAccess_ok hsteps hσ
  exact ⟨path.foldl accessNode r', lowers_steps hr hr' hrecorded hτ
    (translate_eRecordAccessor hm hσ hm' hpath hr'.eq)⟩

/-! ### Sums -/

section Sum

variable {c : String} {p : AnnotatedExpression} {p' : MiniC.Expression}

/-- The type of the sum over a tree. -/
def sumType (t : AppendTree (String × TypeValue)) : Result MiniC.TypeValue :=
  foldNe id (fun a b => .ok (.tOr a b)) (some (t.map fun x => translateType x.2))

/-- A sum of several constructors is an `or` of two sums. -/
theorem sumType_node {a b : AppendTree (String × TypeValue)} {size : ℕ} {full : Bool}
    {σ : MiniC.TypeValue} (h : sumType (.node a b size full) = .ok σ) :
    ∃ α β, sumType a = .ok α ∧ sumType b = .ok β ∧ σ = .tOr α β := by
  obtain ⟨α, hα, h⟩ := bind_eq_ok.1 h
  obtain ⟨β, hβ, h⟩ := bind_eq_ok.1 h
  exact ⟨α, β, hα, hβ, (Except.ok.inj h).symm⟩

/-- Where the constructor is not, there are only types. -/
theorem foldNe_absent {t : AppendTree (String × TypeValue)} {σ : MiniC.TypeValue}
    (habsent : c ∉ t.toList.map Prod.fst) (hσ : sumType t = .ok σ) :
    foldNe (constructorLeaf c p p') constructorNode (some t) = .ok (none, σ) := by
  rw [foldNe]
  induction t generalizing σ with
  | leaf x =>
    have hx : x.1 ≠ c := fun hx => habsent (List.mem_singleton.2 hx.symm)
    rw [AppendTree.fold, constructorLeaf, if_neg hx]
    exact bind_eq_ok.2 ⟨σ, hσ, rfl⟩
  | node a b size full iha ihb =>
    obtain ⟨α, β, hα, hβ, rfl⟩ := sumType_node hσ
    rw [AppendTree.toList, List.map_append, List.mem_append, not_or] at habsent
    rw [AppendTree.fold, iha habsent.1 hα, ihb habsent.2 hβ]
    rfl

/-- The injection of the parameter. -/
theorem exists_injection (hp : Lowers ctx env p p') {t : AppendTree (String × TypeValue)}
    (hkeys : (t.toList.map Prod.fst).Nodup) (hmem : (c, p.typeAnnot) ∈ t.toList)
    {σ : MiniC.TypeValue} (hσ : sumType t = .ok σ) (hw : Written ctx σ) :
    ∃ e, foldNe (constructorLeaf c p p') constructorNode (some t) = .ok (some e, σ) ∧
      WellTyped ctx env (.mk e σ) := by
  rw [foldNe]
  -- down the tree to the leaf of the constructor
  induction t generalizing σ with
  | leaf x =>
    obtain rfl := List.mem_singleton.1 hmem
    obtain rfl : p'.typeValue = σ := Except.ok.inj (hp.type.symm.trans hσ)
    refine ⟨p'.content, ?_, ?_⟩
    · rw [AppendTree.fold, constructorLeaf, if_pos rfl]
      exact bind_eq_ok.2 ⟨(), trace_eq_ok.2 (assertTypeValueEq_iff.2 rfl), rfl⟩
    · obtain ⟨content, τ⟩ := p'
      exact hp.typed
  | node a b size full iha ihb =>
    obtain ⟨α, β, hα, hβ, rfl⟩ := sumType_node hσ
    obtain ⟨hwα, hwβ⟩ := hw.of_tOr
    obtain ⟨⟨⟨uα, huα, haα, -⟩, nα, hnα⟩, ⟨uβ, huβ, haβ, -⟩, nβ, hnβ⟩ := And.intro hwα hwβ
    have hu : CompilerType.Ty.type_ (.tOr α β) = .ok (.or uα uβ) := by
      rw [CompilerType.Ty.type_, huα, huβ]
      rfl
    rw [AppendTree.toList, List.map_append] at hkeys
    obtain ⟨hka, hkb, hdisjoint⟩ := List.nodup_append.1 hkeys
    rw [AppendTree.toList, List.mem_append] at hmem
    -- the half without the constructor gives the type that the injection is annotated with
    rcases hmem with hmem | hmem
    · obtain ⟨e, he, htyped⟩ := iha hka hmem hα hwα
      have habsent : c ∉ b.toList.map Prod.fst :=
        fun hc => hdisjoint c (List.mem_map_of_mem hmem) c hc rfl
      refine ⟨.eConstant "LEFT" [.mk e α], ?_, ?_⟩
      · have hb : foldNe (constructorLeaf c p p') constructorNode (some b) = .ok (none, β) :=
          foldNe_absent habsent hβ
        rw [foldNe] at hb
        rw [AppendTree.fold, he, hb]
        rfl
      · exact wellTyped_constant [uα] (List.forall_mem_singleton.2 htyped) (.cons huα .nil)
          hw.known hu (CompilerProgram.fits_left huβ hnβ haβ)
    · obtain ⟨e, he, htyped⟩ := ihb hkb hmem hβ hwβ
      have habsent : c ∉ a.toList.map Prod.fst :=
        fun hc => hdisjoint c hc c (List.mem_map_of_mem hmem) rfl
      refine ⟨.eConstant "RIGHT" [.mk e β], ?_, ?_⟩
      · have ha : foldNe (constructorLeaf c p p') constructorNode (some a) = .ok (none, α) :=
          foldNe_absent habsent hα
        rw [foldNe] at ha
        rw [AppendTree.fold, he, ha]
        rfl
      · exact wellTyped_constant [uβ] (List.forall_mem_singleton.2 htyped) (.cons huβ .nil)
          hw.known hu (CompilerProgram.fits_right huα hnα haα)

/-- A sum that translates has a tree. -/
theorem exists_tree {m : List (String × TypeValue)} {σ : MiniC.TypeValue}
    (hσ : translateType (.tSum m) = .ok σ) :
    ∃ t, AppendTree.ofList m = some t ∧ sumType t = .ok σ := by
  rw [translateType, translateFieldTypes_eq, AppendTree.ofList_map] at hσ
  cases ht : AppendTree.ofList m with
  | none =>
    rw [ht] at hσ
    cases hσ
  | some t =>
    rw [ht] at hσ
    exact ⟨t, rfl, hσ⟩

/-- A constructor is injected along the path to its leaf. -/
theorem lowers_constructor {m : List (String × TypeValue)} {aenv : FullEnvironment}
    (ht : Expressible ctx (.tSum m)) (hkeys : (m.map Prod.fst).Nodup)
    (h : m.lookup c = some p.typeAnnot) (hp : Lowers ctx env p p') :
    ∃ e, Lowers ctx env (.mk (.eConstructor c p) (.tSum m) aenv) e := by
  obtain ⟨σ, hσ, hw⟩ := ht
  obtain ⟨t, htree, hsum⟩ := exists_tree hσ
  have hlist := AppendTree.toList_ofList htree
  obtain ⟨m₁, m₂, hm, -⟩ := List.lookup_eq_some_iff.1 h
  have hmem : (c, p.typeAnnot) ∈ m := by simp [hm]
  obtain ⟨e, he, htyped⟩ := exists_injection hp (by rwa [hlist]) (by rwa [hlist]) hsum hw
  refine ⟨.mk e σ, ?_, hσ, htyped⟩
  have hnode : treeOfSum (.tSum m) = .ok (some t) := congrArg Except.ok htree
  rw [translate_mk hσ, translateExpression, hp.eq, ok_bind, hnode, ok_bind, he]
  rfl

end Sum

/-! ### Lists and maps -/

/-- The elements of a list are put in front of an empty one. -/
theorem wellTyped_consList {τ : MiniC.TypeValue} (hw : Written ctx (.tList τ))
    {es : List MiniC.Expression} (hes : ∀ e ∈ es, WellTyped ctx env e ∧ e.typeValue = τ) :
    (consList τ (.tList τ) es).typeValue = .tList τ ∧
      WellTyped ctx env (consList τ (.tList τ) es) := by
  obtain ⟨⟨u, hu, hallowed, -⟩, -⟩ := hw.of_tList
  have hlist : CompilerType.Ty.type_ (.tList τ) = .ok (.list u) := by
    rw [CompilerType.Ty.type_, hu]
    rfl
  -- from the end, where the list is built first
  induction es using List.reverseRecOn with
  | nil => exact ⟨rfl, .makeEmptyList hw.known hu hallowed hw.within⟩
  | append_singleton es e ih =>
    obtain ⟨htype, htyped⟩ := ih fun e he => hes e (List.mem_append_left _ he)
    obtain ⟨he, rfl⟩ := hes e (by simp)
    rw [consList_concat]
    have hargs : ∀ e' ∈ [e, consList e.typeValue (.tList e.typeValue) es], WellTyped ctx env e' :=
      List.forall_mem_cons.2 ⟨he, List.forall_mem_singleton.2 htyped⟩
    have hrest : CompilerType.Ty.type_ (consList e.typeValue (.tList e.typeValue) es).typeValue =
        .ok (.list u) := by
      rw [htype, hlist]
    refine ⟨rfl, wellTyped_constant [u, .list u] hargs (.cons hu (.cons hrest .nil)) hw.known hlist
      (fits_of_predicates rfl rfl fun rest => ?_)⟩
    change (if u = u then Michelson.grow ctx (.list u) rest else none) = _
    rw [if_pos rfl]
    exact Michelson.grow_of_admits (hw.within _ hlist)

theorem lowers_list {lst : List AnnotatedExpression} {t : TypeValue} {aenv : FullEnvironment}
    {es : List MiniC.Expression} (ht : Expressible ctx (tList t)) (h : ∀ ae ∈ lst, ae.typeAnnot = t)
    (hes : List.Forall₂ (Lowers ctx env) lst es) :
    ∃ e, Lowers ctx env (.mk (.eList lst) (tList t) aenv) e := by
  obtain ⟨σ, hσ, hw⟩ := ht
  obtain ⟨τ, hτ, rfl⟩ := map_eq_ok.1 hσ
  -- all elements have the type that the list literal is annotated with
  have hall : ∀ e ∈ es, WellTyped ctx env e ∧ e.typeValue = τ := by
    clear hσ
    induction hes with
    | nil => simp
    | cons he _ ih =>
      obtain ⟨hae, h⟩ := List.forall_mem_cons.1 h
      exact List.forall_mem_cons.2 ⟨⟨he.typed, he.typeValue_of hae hτ⟩, ih h⟩
  obtain ⟨htype, htyped⟩ := wellTyped_consList hw hall
  refine ⟨consList τ (.tList τ) es, ?_, hσ.trans (congrArg Except.ok htype.symm), htyped⟩
  have hget : getTList (.tList τ) = .ok τ := rfl
  rw [translate_mk hσ, translateExpression, hget, bindList_translateAll hes]
  rfl

/-- The bindings of a map literal, put in one after the other. -/
theorem wellTyped_updates {κ ω : MiniC.TypeValue} (hw : Written ctx (.tMap κ ω))
    {es : List (MiniC.Expression × MiniC.Expression)}
    (hes : ∀ x ∈ es, (WellTyped ctx env x.1 ∧ x.1.typeValue = κ) ∧
      WellTyped ctx env x.2 ∧ x.2.typeValue = .tOption ω)
    {e : MiniC.Expression} (he : WellTyped ctx env e) (htype : e.typeValue = .tMap κ ω) :
    (es.foldl (fun prev x => .mk (.eConstant "UPDATE" [x.1, x.2, prev]) (.tMap κ ω)) e).typeValue =
        .tMap κ ω ∧
      WellTyped ctx env
        (es.foldl (fun prev x => .mk (.eConstant "UPDATE" [x.1, x.2, prev]) (.tMap κ ω)) e) := by
  -- the map that is built so far varies
  induction es generalizing e with
  | nil => exact ⟨htype, he⟩
  | cons x es ih =>
    obtain ⟨⟨⟨hk, hκ⟩, hv, hω⟩, hes⟩ := List.forall_mem_cons.1 hes
    refine ih hes ?_ rfl
    obtain ⟨⟨u, hu, -⟩, -⟩ := id hw
    obtain ⟨c, v, hc, hvu, rfl⟩ := map₂_eq_ok.1 hu
    have hoption : CompilerType.Ty.type_ (.tOption ω) = .ok (.option v) := by
      rw [CompilerType.Ty.type_, hvu]
      rfl
    rw [← hκ] at hc
    have hargs : ∀ e' ∈ [x.1, x.2, e], WellTyped ctx env e' :=
      List.forall_mem_cons.2 ⟨hk, List.forall_mem_cons.2 ⟨hv, List.forall_mem_singleton.2 he⟩⟩
    have hkey : CompilerType.Ty.type_ x.1.typeValue = .ok (.comparable c) :=
      CompilerType.type_of_comparableType hc
    have hvalue : CompilerType.Ty.type_ x.2.typeValue = .ok (.option v) := by
      rw [hω, hoption]
    have hprev : CompilerType.Ty.type_ e.typeValue = .ok (.map c v) := by
      rw [htype, hu]
    exact wellTyped_constant [.comparable c, .option v, .map c v] hargs
      (.cons hkey (.cons hvalue (.cons hprev .nil))) hw.known hu
      (fits_of_predicates rfl rfl fun _ => Operators.types_iUpdate)

/-- The entries of a map are added one by one, to an empty map. -/
theorem lowers_map {k v : TypeValue} {m : List (AnnotatedExpression × AnnotatedExpression)}
    {aenv : FullEnvironment} (ht : Expressible ctx (tMap k v))
    (h : ∀ x ∈ m, x.1.typeAnnot = k ∧ x.2.typeAnnot = v)
    (hk : ∀ x ∈ m, ∃ e, Lowers ctx env x.1 e) (hv : ∀ x ∈ m, ∃ e, Lowers ctx env x.2 e) :
    ∃ e, Lowers ctx env (.mk (.eMap m) (tMap k v) aenv) e := by
  obtain ⟨σ, hσ, hw⟩ := ht
  obtain ⟨κ, ω, hκ, hω, rfl⟩ := map₂_eq_ok.1 hσ
  have hwo := hw.of_tMap.2
  have hwω := hwo.of_tOption
  have hoption : translateType (tOption v) = .ok (.tOption ω) :=
    bind_eq_ok.2 ⟨ω, hω, rfl⟩
  -- the entries, with the values under a `SOME`
  obtain ⟨es, hentries, hes⟩ : ∃ es, bindList (translateEntries m) = .ok es ∧
      ∀ x ∈ es, (WellTyped ctx env x.1 ∧ x.1.typeValue = κ) ∧
        WellTyped ctx env x.2 ∧ x.2.typeValue = .tOption ω := by
    clear hσ
    rw [translateEntries_eq]
    induction m with
    | nil => exact ⟨[], rfl, by simp⟩
    | cons x m ih =>
      obtain ⟨⟨hxk, hxv⟩, h⟩ := List.forall_mem_cons.1 h
      obtain ⟨⟨k', hk'⟩, hk⟩ := List.forall_mem_cons.1 hk
      obtain ⟨⟨v', hv'⟩, hv⟩ := List.forall_mem_cons.1 hv
      obtain ⟨es, hentries, hes⟩ := ih h hk hv
      obtain rfl := hv'.typeValue_of hxv hω
      obtain ⟨⟨u, hu, -⟩, -⟩ := id hwω
      have hsome : WellTyped ctx env (.mk (.eConstant "SOME" [v']) (.tOption v'.typeValue)) := by
        have hou : CompilerType.Ty.type_ (.tOption v'.typeValue) = .ok (.option u) := by
          rw [CompilerType.Ty.type_, hu]
          rfl
        exact wellTyped_constant [u] (List.forall_mem_singleton.2 hv'.typed)
          (.cons hu .nil) hwo.known hou
          (fits_of_predicates rfl rfl fun _ => Operators.types_iSome_iff.2 (hwo.within _ hou))
      have hkey : WellTyped ctx env k' ∧ k'.typeValue = κ :=
        ⟨hk'.typed, hk'.typeValue_of hxk hκ⟩
      refine ⟨(k', .mk (.eConstant "SOME" [v']) (.tOption v'.typeValue)) :: es, ?_,
        List.forall_mem_cons.2 ⟨⟨hkey, hsome, rfl⟩, hes⟩⟩
      rw [List.map_cons, bindList, hentries, hk'.eq, hxv, hoption, hv'.eq]
      rfl
  obtain ⟨⟨u, hu, -⟩, -⟩ := id hwω
  obtain ⟨htype, htyped⟩ := wellTyped_updates hw hes
    (.makeEmptyMap hw.known hu (hwω.allowed hu) hw.within) rfl
  refine ⟨_, ?_, hσ.trans (congrArg Except.ok htype.symm), htyped⟩
  have hget : MiniC.getTMap (.tMap κ ω) = .ok (κ, ω) := rfl
  rw [translate_mk hσ, translateExpression, hget, hentries]
  rfl

/-- A key that is looked up has the type of the keys of the map. -/
theorem lowers_lookUp {ds i : AnnotatedExpression} {ds' i' : MiniC.Expression} {v : TypeValue}
    {aenv : FullEnvironment} (ht : Expressible ctx (tOption v)) (hmap : Expressible ctx ds.typeAnnot)
    (h : ds.typeAnnot = tMap i.typeAnnot v) (hds : Lowers ctx env ds ds')
    (hi : Lowers ctx env i i') :
    ∃ e, Lowers ctx env (.mk (.eLookUp ds i) (tOption v) aenv) e := by
  obtain ⟨σ, hσ, hw⟩ := ht
  obtain ⟨ω, hω, rfl⟩ := map_eq_ok.1 hσ
  -- the map gives the types of the key and of the value, as the type checker has them
  have hdsσ := hds.type
  have hwds := hmap.written hdsσ
  rw [h] at hdsσ
  obtain ⟨κ, hκ, hdsσ⟩ := bind_eq_ok.1 hdsσ
  obtain ⟨ω', hω', hdsσ⟩ := bind_eq_ok.1 hdsσ
  cases hω.symm.trans hω'
  cases hκ.symm.trans hi.type
  have htype := (Except.ok.inj hdsσ).symm
  obtain ⟨⟨u, hu, -⟩, -⟩ := id hwds
  have hu' := hu
  rw [htype] at hu'
  obtain ⟨c, w, hc, hwu, rfl⟩ := map₂_eq_ok.1 hu'
  refine ⟨.mk (.eConstant "MAP_GET" [i', ds']) (.tOption ω), ?_, hσ, ?_⟩
  · rw [translate_mk hσ, translateExpression, hds.eq, hi.eq]
    rfl
  · refine wellTyped_constant [.comparable c, .map c w] (u := .option w)
      (List.forall_mem_cons.2 ⟨hi.typed, List.forall_mem_singleton.2 hds.typed⟩)
      (.cons (CompilerType.type_of_comparableType hc) (.cons hu .nil)) hw.known ?_
      (fits_of_predicates rfl rfl fun _ => Operators.types_iGet)
    rw [CompilerType.Ty.type_, hwu]
    rfl

/-! ### Matches -/

theorem lowers_matchBool {ex a b : AnnotatedExpression} {ex' a' b' : MiniC.Expression}
    {aenv : FullEnvironment} (hbool : ex.typeAnnot = tBool) (htype : b.typeAnnot = a.typeAnnot)
    (hex : Lowers ctx env ex ex') (ha : Lowers ctx env a a') (hb : Lowers ctx env b b') :
    ∃ e, Lowers ctx env (.mk (.eMatching ex (.matchBool a b)) a.typeAnnot aenv) e := by
  have hex' : ex'.typeValue = .tBase .bool := hex.typeValue_of hbool rfl
  have hb' : b'.typeValue = a'.typeValue := hb.typeValue_of htype ha.type
  refine ⟨.mk (.eIfBool ex' a' b') a'.typeValue, ?_, ha.type,
    .ifBool hex.typed hex' ha.typed hb.typed hb'⟩
  rw [translate_mk ha.type, translateExpression, hex.eq, ok_bind, translateMatching, ha.eq, hb.eq]
  rfl

/-- What is matched is bound in the second branch. -/
theorem lowers_matchOption {ex n s : AnnotatedExpression} {ex' n' s' : MiniC.Expression}
    {name : String} {o : TypeValue} {ω : MiniC.TypeValue} {aenv : FullEnvironment}
    (hoption : ex.typeAnnot = tOption o) (hω : translateType o = .ok ω) (hname : name ≠ tmpName)
    (htype : s.typeAnnot = n.typeAnnot) (hex : Lowers ctx env ex ex') (hn : Lowers ctx env n n')
    (hs : Lowers ctx ((name, ω) :: env) s s') :
    ∃ e, Lowers ctx env (.mk (.eMatching ex (.matchOption n name o s)) n.typeAnnot aenv) e := by
  have hex' : ex'.typeValue = .tOption ω :=
    hex.typeValue_of hoption (bind_eq_ok.2 ⟨ω, hω, rfl⟩)
  have hs' : s'.typeValue = n'.typeValue := hs.typeValue_of htype hn.type
  refine ⟨.mk (.eIfNone ex' n' (name, ω) s') n'.typeValue, ?_, hn.type,
    .ifNone hex.typed hex' hn.typed hname hs.typed hs'⟩
  rw [translate_mk hn.type, translateExpression, hex.eq, ok_bind, translateMatching, hn.eq, hω,
    hs.eq]
  rfl

/-- An environment below conditionals of a match, which bind `left` and `right`. -/
def Below (env env' : MiniC.Environment) : Prop :=
  ∀ x, x ≠ "left" → x ≠ "right" → Scope.lookup x env' = Scope.lookup x env

/-- One more conditional binds one of the two names. -/
theorem Below.cons {env env' : MiniC.Environment} (h : Below env env') {y : String}
    (hy : y = "left" ∨ y = "right") {σ : MiniC.TypeValue} : Below env ((y, σ) :: env') := by
  intro x hl hr
  have hxy : x ≠ y := by
    rcases hy with rfl | rfl
    · exact hl
    · exact hr
  rw [Scope.lookup, if_neg hxy, h x hl hr]

/-- The nest of conditionals over the tree of a sum. -/
theorem exists_matchVariant {lst : List ((String × String) × AnnotatedExpression)}
    {t : AppendTree (String × TypeValue)} {ty : MiniC.TypeValue} {env₀ : MiniC.Environment}
    (hclauses : ∀ c ∈ t.toList, ∃ y clause,
      (lst.find? fun x => x.1.1 == c.1) = some ((c.1, y), clause) ∧ y ≠ tmpName ∧
        ∀ env, Below env₀ env → ∀ σ, translateType c.2 = .ok σ →
          ∃ body, Lowers ctx ((y, σ) :: env) clause body ∧ body.typeValue = ty)
    {σ : MiniC.TypeValue} (hσ : sumType t = .ok σ) :
    ∃ tree, matchTree t = .ok tree ∧ tree.tv = σ ∧
      ∀ env top, Below env₀ env → WellTyped ctx env top → top.typeValue = σ → Written ctx σ →
        ∃ r, matchVariant (translateCases lst) ty top tree = .ok r ∧ r.typeValue = ty ∧
          WellTyped ctx env r := by
  induction t generalizing σ with
  | leaf c =>
    obtain ⟨y, clause, hfind, hy, hlower⟩ := hclauses c (List.mem_singleton_self c)
    -- what is left of the value is bound to the name in the clause
    refine ⟨.leaf c.1 σ, bind_eq_ok.2 ⟨σ, hσ, rfl⟩, rfl, fun env top hbelow htop htype _ => ?_⟩
    subst htype
    obtain ⟨body, hbody, rfl⟩ := hlower env hbelow _ hσ
    refine ⟨.mk (.eLetIn (y, top.typeValue) top body) body.typeValue, ?_, rfl,
      .letIn hy htop hbody.typed⟩
    have hclause : traceOption "not supposed to happen here: missing match clause"
        ((translateCases lst).find? fun x => x.1.1 == c.1) =
          .ok ((c.1, y), translateAnnotatedExpression clause) := by
      rw [find?_translateCases, hfind]
      rfl
    rw [matchVariant, hclause, ok_bind, hbody.eq]
    rfl
  | node a b size full iha ihb =>
    obtain ⟨α, β, hα, hβ, rfl⟩ := sumType_node hσ
    obtain ⟨ta, hta, rfl, ha⟩ := iha (fun c hc => hclauses c (List.mem_append_left _ hc)) hα
    obtain ⟨tb, htb, rfl, hb⟩ := ihb (fun c hc => hclauses c (List.mem_append_right _ hc)) hβ
    have htree : matchTree (.node a b size full) = .ok (.node ta tb (.tOr ta.tv tb.tv)) := by
      rw [matchTree, hta, htb]
      rfl
    refine ⟨.node ta tb (.tOr ta.tv tb.tv), htree, rfl, fun env top hbelow htop htype hw => ?_⟩
    obtain ⟨hwa, hwb⟩ := hw.of_tOr
    -- the parts of the value lie below the binders of this conditional
    have hleft : "left" ≠ tmpName := by decide
    have hright : "right" ≠ tmpName := by decide
    obtain ⟨l, hl, hlty, hltyped⟩ := ha (("left", ta.tv) :: env) (.mk (.eVariable "left") ta.tv)
      (hbelow.cons (.inl rfl)) (.variable' hleft (if_pos rfl) hwa.known) rfl hwa
    obtain ⟨r, hr, hrty, hrtyped⟩ := hb (("right", tb.tv) :: env) (.mk (.eVariable "right") tb.tv)
      (hbelow.cons (.inr rfl)) (.variable' hright (if_pos rfl) hwb.known) rfl hwb
    refine ⟨.mk (.eIfLeft top ("left", ta.tv) l ("right", tb.tv) r) ty, ?_, rfl, ?_⟩
    · have htl : MiniC.getTLeft (.tOr ta.tv tb.tv) = .ok ta.tv := rfl
      have htr : MiniC.getTRight (.tOr ta.tv tb.tv) = .ok tb.tv := rfl
      rw [matchVariant, htl, ok_bind, hl, ok_bind, htr, ok_bind, hr]
      rfl
    · subst hlty
      exact .ifLeft htop htype hleft hltyped hright hrtyped hrty

/-- A match on a sum: nested `if left` expressions along the tree of the sum, with a clause at
every leaf. -/
theorem lowers_matchVariant {ex : AnnotatedExpression} {ex' : MiniC.Expression}
    {m : List (String × TypeValue)} {t : TypeValue} {aenv : FullEnvironment}
    {lst : List ((String × String) × AnnotatedExpression)} (ht : Expressible ctx t)
    (hsum : ex.typeAnnot = .tSum m) (hexpr : Expressible ctx ex.typeAnnot)
    (hex : Lowers ctx env ex ex')
    (hclauses : ∀ c ∈ m, ∃ y clause,
      (lst.find? fun x => x.1.1 == c.1) = some ((c.1, y), clause) ∧ y ≠ tmpName ∧
        clause.typeAnnot = t ∧ ∀ env', Below env env' → ∀ σ, translateType c.2 = .ok σ →
          ∃ body, Lowers ctx ((y, σ) :: env') clause body) :
    ∃ e, Lowers ctx env (.mk (.eMatching ex (.matchVariant lst (.tSum m))) t aenv) e := by
  obtain ⟨τ, hτ, -⟩ := ht
  have hσ := hex.type
  have hw := hexpr.written hσ
  rw [hsum] at hσ
  obtain ⟨tree, htree, htype⟩ := exists_tree hσ
  -- the clauses under the types of the leaves, all of the type of the match
  have hbodies : ∀ c ∈ tree.toList, ∃ y clause,
      (lst.find? fun x => x.1.1 == c.1) = some ((c.1, y), clause) ∧ y ≠ tmpName ∧
        ∀ env', Below env env' → ∀ σ, translateType c.2 = .ok σ →
          ∃ body, Lowers ctx ((y, σ) :: env') clause body ∧ body.typeValue = τ := by
    intro c hc
    rw [AppendTree.toList_ofList htree] at hc
    obtain ⟨y, clause, hfind, hy, hclause, hbody⟩ := hclauses c hc
    refine ⟨y, clause, hfind, hy, fun env' hbelow σ hσ => ?_⟩
    obtain ⟨body, hbody⟩ := hbody env' hbelow σ hσ
    exact ⟨body, hbody, hbody.typeValue_of hclause hτ⟩
  obtain ⟨tree', htree', -, hmatch⟩ := exists_matchVariant hbodies htype
  obtain ⟨r, hr, rfl, htyped⟩ := hmatch env ex' (fun _ _ _ => rfl) hex.typed rfl hw
  exact ⟨r, translate_eMatching hτ hex.eq htree htree' hr, hτ, htyped⟩

end Cases

/-! ### The theorem -/

/-- In a map without repeated keys, every binding is found. -/
theorem lookup_of_nodup {α β : Type} [BEq α] [LawfulBEq α] {m : List (α × β)}
    (hkeys : (m.map Prod.fst).Nodup) {x : α × β} (hx : x ∈ m) : m.lookup x.1 = some x.2 := by
  induction m with
  | nil => cases hx
  | cons y m ih =>
    obtain ⟨hy, hkeys⟩ := List.nodup_cons.1 hkeys
    rcases List.mem_cons.1 hx with rfl | hx
    · exact List.lookup_cons_self
    · have hne : x.1 ≠ y.1 := fun h => hy (h ▸ List.mem_map_of_mem hx)
      rw [List.lookup_cons, beq_false_of_ne hne]
      exact ih hkeys hx

/-- Well-typed expressions translate, at their types. -/
theorem translate_typed {Γ : Typer.Context}
    {env : MiniC.Environment} {ae : AnnotatedExpression} (h : Typed Γ ae)
    (hs : Supported ctx ae) (henv : Reflects Γ env ae) : ∃ e, Lowers ctx env ae e := by
  -- by induction on the typing, whose last rule tells which rule of `Supported` was the last;
  -- the environment varies, since it grows below binders and starts anew below a lambda
  induction h generalizing env with
  | literal =>
    cases hs with
    | literal ht hl => exact lowers_literal ht hl
  | constant _ hconst ih =>
    cases hs with
    | constant ht hlst hcontract =>
      obtain ⟨es, hes⟩ := exists_forall₂ fun ae hae => ih ae hae (hlst ae hae)
        (henv.mono fun x hx => FreeNames.mem_all.2 ⟨ae, hae, hx⟩)
      exact lowers_constant hconst ht (fun ae hae => (hlst ae hae).expressible) hcontract hes
  | variable' hΓ =>
    cases hs with
    | variable' ht hx hele htype => exact lowers_variable ht hx hele htype hΓ henv
  | application _ _ htype ihf iharg =>
    cases hs with
    | application ht hf harg =>
      obtain ⟨f', hf'⟩ := ihf hf (henv.mono fun x hx => List.mem_append_left _ hx)
      obtain ⟨arg', harg'⟩ := iharg harg (henv.mono fun x hx => List.mem_append_right _ hx)
      exact lowers_application ht htype hf' harg'
  | lambda _ ho ihr =>
    cases hs with
    | lambda ht hb hclosed htranspile hr =>
      -- nothing but the parameter is free in the body, so that it runs where nothing else is
      refine lowers_lambda ht hb hclosed htranspile ho fun σ hσ => ihr hr ?_
      refine henv.bind_of_lookup hσ fun x hx => ?_
      rw [hclosed] at hx
      cases hx
  | letIn _ _ htype ihrhs ihr =>
    cases hs with
    | letIn ht hb hrhs hr =>
      subst htype
      obtain ⟨rhs', hrhs'⟩ := ihrhs hrhs (henv.mono fun x hx => List.mem_append_right _ hx)
      obtain ⟨r', hr'⟩ := ihr hr (henv.bind hrhs'.type fun x hx => List.mem_append_left _ hx)
      exact lowers_letIn hb hrhs' hr'
  | tuple _ ih =>
    cases hs with
    | tuple ht hlst =>
      exact lowers_tuple ht fun ae hae => ih ae hae (hlst ae hae)
        (henv.mono fun x hx => FreeNames.mem_all.2 ⟨ae, hae, hx⟩)
  | tupleAccessor _ htys hind ih =>
    cases hs with
    | tupleAccessor _ htpl =>
      obtain ⟨tpl', htpl'⟩ := ih htpl henv
      exact lowers_tupleAccessor htpl.expressible htys hind htpl'
  | constructor' _ hlookup ih =>
    cases hs with
    | constructor' ht hkeys hp =>
      obtain ⟨p', hp'⟩ := ih hp henv
      exact lowers_constructor ht hkeys hlookup hp'
  | record _ ih =>
    cases hs with
    | record ht hm =>
      exact lowers_record ht fun x hx => ih x hx (hm x hx)
        (henv.mono fun y hy => FreeNames.mem_fields.2 ⟨x, hx, hy⟩)
  | recordAccessor _ hm hproperty ih =>
    cases hs with
    | recordAccessor _ hr =>
      obtain ⟨r', hr'⟩ := ih hr henv
      exact lowers_recordAccessor hr.expressible hm hproperty hr'
  | map _ _ htypes ihk ihv =>
    cases hs with
    | map ht hk hv =>
      refine lowers_map ht htypes (fun x hx => ?_) fun x hx => ?_
      · refine ihk x hx (hk x hx) (henv.mono fun y hy => ?_)
        exact FreeNames.mem_entries.2 ⟨x, hx, .inl hy⟩
      · refine ihv x hx (hv x hx) (henv.mono fun y hy => ?_)
        exact FreeNames.mem_entries.2 ⟨x, hx, .inr hy⟩
  | list _ htypes ih =>
    cases hs with
    | list ht hlst =>
      obtain ⟨es, hes⟩ := exists_forall₂ fun ae hae => ih ae hae (hlst ae hae)
        (henv.mono fun x hx => FreeNames.mem_all.2 ⟨ae, hae, hx⟩)
      exact lowers_list ht htypes hes
  | lookUp _ _ htype ihds ihi =>
    cases hs with
    | lookUp ht hds hi =>
      obtain ⟨ds', hds'⟩ := ihds hds (henv.mono fun x hx => List.mem_append_left _ hx)
      obtain ⟨i', hi'⟩ := ihi hi (henv.mono fun x hx => List.mem_append_right _ hx)
      exact lowers_lookUp ht hds.expressible htype hds' hi'
  | matchBool _ hbool _ _ hat hbt ihex iha ihb =>
    cases hs with
    | matchBool _ hex ha hb =>
      subst hat
      obtain ⟨ex', hex'⟩ := ihex hex (henv.mono fun x hx => List.mem_append_left _ hx)
      obtain ⟨a', ha'⟩ := iha ha
        (henv.mono fun x hx => List.mem_append_right _ (List.mem_append_left _ hx))
      obtain ⟨b', hb'⟩ := ihb hb
        (henv.mono fun x hx => List.mem_append_right _ (List.mem_append_right _ hx))
      exact lowers_matchBool hbool hbt hex' ha' hb'
  | matchList => cases hs
  | matchOption _ hoption _ _ hnt hst ihex ihn ihs =>
    cases hs with
    | matchOption _ hex hn hname hs =>
      subst hnt
      obtain ⟨ex', hex'⟩ := ihex hex (henv.mono fun x hx => List.mem_append_left _ hx)
      obtain ⟨n', hn'⟩ := ihn hn
        (henv.mono fun x hx => List.mem_append_right _ (List.mem_append_left _ hx))
      have htype := hex'.type
      rw [hoption] at htype
      obtain ⟨ω, hω, -⟩ := bind_eq_ok.1 htype
      obtain ⟨s', hs'⟩ := ihs hs
        (henv.bind hω fun x hx => List.mem_append_right _ (List.mem_append_right _ hx))
      exact lowers_matchOption hoption hω hname hst hex' hn' hs'
  | matchTuple => cases hs
  | @matchVariant Γ ex m t aenv lst _ hsum _ _ htypes ihex ihlst =>
    cases hs with
    | matchVariant ht hex hkeys hall hnames hlst =>
      obtain ⟨ex', hex'⟩ := ihex hex (henv.mono fun x hx => List.mem_append_left _ hx)
      refine lowers_matchVariant ht hsum hex.expressible hex' fun c hc => ?_
      -- the clause that the transpiler finds is one of the typed clauses
      obtain ⟨x, hfind⟩ : ∃ x, (lst.find? fun x => x.1.1 == c.1) = some x := by
        obtain ⟨x, hx, hxc⟩ := hall c hc
        exact Option.isSome_iff_exists.1 (List.find?_isSome.2 ⟨x, hx, by simp [hxc]⟩)
      have hx := List.mem_of_find?_eq_some hfind
      have hxc : x.1.1 = c.1 := by simpa using List.find?_some hfind
      obtain ⟨⟨name, y⟩, clause⟩ := x
      obtain rfl : name = c.1 := hxc
      obtain ⟨hy, hleft, hright⟩ := hnames _ hx
      refine ⟨y, clause, hfind, hy, htypes _ hx, fun env' hbelow σ hσ => ?_⟩
      refine ihlst _ hx c.2 (lookup_of_nodup hkeys hc) (hlst _ hx) ?_
      -- the conditionals above the clause hide `left` and `right`, which it does not mention
      refine henv.bind_of_lookup hσ fun z hz => ⟨?_, ?_⟩
      · exact List.mem_append_right _ (FreeNames.mem_variantCases.2 ⟨_, hx, hz⟩)
      · have hzl : z ≠ "left" := fun h => hleft (h ▸ hz)
        have hzr : z ≠ "right" := fun h => hright (h ▸ hz)
        exact hbelow z hzl hzr
  | failwith => cases hs
  | sequence _ _ _ htype iha ihb =>
    cases hs with
    | sequence _ ha hb =>
      subst htype
      obtain ⟨a', ha'⟩ := iha ha (henv.mono fun x hx => List.mem_append_left _ hx)
      obtain ⟨b', hb'⟩ := ihb hb (henv.mono fun x hx => List.mem_append_right _ hx)
      exact lowers_sequence ha' hb'
  | loop _ hbool _ hunit ihex ihbody =>
    cases hs with
    | loop _ hex hbody =>
      obtain ⟨ex', hex'⟩ := ihex hex (henv.mono fun x hx => List.mem_append_left _ hx)
      obtain ⟨body', hbody'⟩ := ihbody hbody (henv.mono fun x hx => List.mem_append_right _ hx)
      exact lowers_loop hbool hunit hex' hbody'
  | assign hΓ hpath _ ih =>
    cases hs with
    | assign _ hx hreverse htx hae =>
      obtain ⟨ae', hae'⟩ := ih hae (henv.mono fun x hx => List.mem_append_right _ hx)
      exact lowers_assign hx hreverse hΓ hpath htx henv hae'

end Ligo.Transpiler
