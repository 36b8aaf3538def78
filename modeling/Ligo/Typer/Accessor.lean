import Ligo.Library.Fuel
import Ligo.Typer.Expression

/-!
# Accessors under an expected type

A path leads from the type of a structure to the type of a component (`Reaches`). The type
checker follows the path, and compares the type that is expected of the accessor with the
type after every step, not with the last one only (`typeAccess_iff`). So it agrees with the
path when no type is expected, or when there is one step. A component is smaller than what
it is a component of (`Component.sizeOf_lt`): the types after two steps are never both the
one that is expected, and the check rejects every longer path. With no step at all nothing
is compared.
-/

namespace Ligo.Typer

open AstTyped
open Fuel (bind_eq_ok)

/-! ### Components -/

/-- The expression has the type `T` when none is expected. -/
def HasType (env : Environment) (expr : AstSimplified.Expression) (T : TypeValue) : Prop :=
  ∃ ae, typeExpression env none expr = .ok ae ∧ ae.typeAnnot = T

/-- A step is valid at a type and leads to a component. -/
inductive Component (env : Environment) : TypeValue → AstSimplified.Access → TypeValue → Prop
  | tuple {tys t} {index : ℕ} (h : tys[index]? = some t) :
    Component env (.tTuple tys) (.tuple index) t
  | record {m : List (String × TypeValue)} {property t} (h : m.lookup property = some t) :
    Component env (.tRecord m) (.record property) t
  | map {key k v} (h : HasType env key k) : Component env (tMap k v) (.map key) v

/-- Every step of a path is valid, and the last one leads to the final component. -/
inductive Reaches (env : Environment) : TypeValue → List AstSimplified.Access → TypeValue → Prop
  | nil {t} : Reaches env t [] t
  | cons {t a u path v} (h : Component env t a u) (hs : Reaches env u path v) :
    Reaches env t (a :: path) v

/-- A component is a part of the type. -/
theorem Component.sizeOf_lt {env : Environment} {t u : TypeValue} {a : AstSimplified.Access}
    (h : Component env t a u) : sizeOf u < sizeOf t := by
  cases h with
  | tuple h =>
    have hmem := List.sizeOf_lt_of_mem (List.mem_of_getElem? h)
    simp only [TypeValue.tTuple.sizeOf_spec]
    omega
  | @record m property _ h =>
    have hmem : (property, u) ∈ m := by
      obtain ⟨l₁, l₂, rfl, -⟩ := List.lookup_eq_some_iff.1 h
      simp
    have hlt := List.sizeOf_lt_of_mem hmem
    simp only [TypeValue.tRecord.sizeOf_spec, Prod.mk.sizeOf_spec] at hlt ⊢
    omega
  | map h =>
    simp [tMap]
    omega

/-- What `return` checks. -/
theorem annotate_iff {env : Environment} {tvOpt : Option TypeValue} {expr : Expression}
    {tv : TypeValue} {ae : AnnotatedExpression} :
    annotate env tvOpt expr tv = .ok ae ↔
      (∀ tv' ∈ tvOpt, tv = tv') ∧ ae = .mk expr tv env.elements := by
  cases tvOpt with
  | none => simp [annotate, eq_comm]
  | some tv' =>
    rw [annotate, bind_eq_ok]
    constructor
    · rintro ⟨_, hcheck, h⟩
      have heq : tv' = tv := assertTypeValueEq_iff.1 hcheck
      cases h
      exact ⟨fun _ hmem => by rw [← heq, Option.mem_some.1 hmem], rfl⟩
    · rintro ⟨heq, rfl⟩
      exact ⟨(), assertTypeValueEq_iff.2 (heq tv' rfl).symm, rfl⟩

/-- A step of the type checker: the step is valid and its component is what is expected. -/
theorem typeAccess_iff {env : Environment} {tvOpt : Option TypeValue}
    {prev : AnnotatedExpression} {a : AstSimplified.Access} {u : TypeValue} :
    (∃ ae, typeAccess env tvOpt prev a = .ok ae ∧ ae.typeAnnot = u) ↔
      Component env prev.typeAnnot a u ∧ ∀ tv ∈ tvOpt, u = tv := by
  constructor
  · rintro ⟨ae, h, rfl⟩
    cases a with
    | tuple index =>
      obtain ⟨tys, htys, h⟩ := bind_eq_ok.1 h
      obtain ⟨t, ht, h⟩ := bind_eq_ok.1 h
      obtain ⟨hexpected, rfl⟩ := annotate_iff.1 h
      cases hT : prev.typeAnnot <;> rw [hT] at htys <;> cases htys
      obtain ⟨i, rfl, hi⟩ := nth_eq_some (traceOption_eq_ok.1 ht)
      exact ⟨.tuple hi, hexpected⟩
    | record property =>
      obtain ⟨m, hm, h⟩ := bind_eq_ok.1 h
      obtain ⟨t, ht, h⟩ := bind_eq_ok.1 h
      obtain ⟨hexpected, rfl⟩ := annotate_iff.1 h
      cases hT : prev.typeAnnot <;> rw [hT] at hm <;> cases hm
      exact ⟨.record (traceOption_eq_ok.1 ht), hexpected⟩
    | map key =>
      rw [typeAccess] at h
      obtain ⟨key', hkey, h⟩ := bind_eq_ok.1 h
      obtain ⟨⟨k, v⟩, hmap, h⟩ := bind_eq_ok.1 h
      obtain ⟨_, hcheck, h⟩ := bind_eq_ok.1 h
      obtain ⟨hexpected, rfl⟩ := annotate_iff.1 h
      rw [Operators.Typer.getTMap_eq_ok.1 hmap]
      exact ⟨.map ⟨key', hkey, (assertTypeValueEq_iff.1 hcheck).symm⟩, hexpected⟩
  · rintro ⟨hcomponent, hexpected⟩
    have hann : ∀ ex, annotate env tvOpt ex u = .ok (.mk ex u env.elements) :=
      fun ex => annotate_iff.2 ⟨hexpected, rfl⟩
    -- what a component is depends on the type of `prev` alone
    generalize hT : prev.typeAnnot = T at hcomponent
    cases hcomponent with
    | @tuple tys _ index h =>
      refine ⟨.mk (.eTupleAccessor prev index) u env.elements, ?_, rfl⟩
      change accessTuple env tvOpt prev index = _
      have hnth : nth tys index = some u := by rw [nth_natCast, h]
      rw [accessTuple, hT]
      exact bind_eq_ok.2 ⟨tys, rfl, bind_eq_ok.2 ⟨u, traceOption_eq_ok.2 hnth, hann _⟩⟩
    | @record m property _ h =>
      refine ⟨.mk (.eRecordAccessor prev property) u env.elements, ?_, rfl⟩
      change accessRecord env tvOpt prev property = _
      rw [accessRecord, hT]
      exact bind_eq_ok.2 ⟨m, rfl, bind_eq_ok.2 ⟨u, traceOption_eq_ok.2 h, hann _⟩⟩
    | @map key k _ h =>
      obtain ⟨key', hkey, hk⟩ := h
      refine ⟨.mk (.eLookUp prev key') u env.elements, ?_, rfl⟩
      have hcheck : assertTypeValueEq k key'.typeAnnot = .ok () := assertTypeValueEq_iff.2 hk.symm
      rw [typeAccess, hT, hkey]
      refine bind_eq_ok.2 ⟨key', rfl, bind_eq_ok.2 ⟨(k, u), rfl, ?_⟩⟩
      exact bind_eq_ok.2 ⟨(), hcheck, hann _⟩

/-- The rest of an accessor of which no type is expected. -/
theorem typeAccesses_iff {env : Environment} {prev : AnnotatedExpression}
    {path : List AstSimplified.Access} {t : TypeValue} :
    (∃ ae, typeAccesses env none prev path = .ok ae ∧ ae.typeAnnot = t) ↔
      Reaches env prev.typeAnnot path t := by
  induction path generalizing prev with
  | nil =>
    constructor
    · rintro ⟨_, h, rfl⟩
      cases h
      exact .nil
    · intro h
      cases h
      exact ⟨prev, rfl, rfl⟩
  | cons a path ih =>
    -- the accessors after the first one start from what it returns
    constructor
    · rintro ⟨ae, h, hty⟩
      rw [typeAccesses] at h
      obtain ⟨ae', hstep, h⟩ := bind_eq_ok.1 h
      obtain ⟨hcomponent, -⟩ := typeAccess_iff.1 ⟨ae', hstep, rfl⟩
      exact .cons hcomponent (ih.1 ⟨ae, h, hty⟩)
    · intro h
      cases h with
      | cons hcomponent hs =>
        obtain ⟨ae', hstep, rfl⟩ := (@typeAccess_iff env none _ _ _).2 ⟨hcomponent, by simp⟩
        obtain ⟨ae, hae, hty⟩ := ih.2 hs
        refine ⟨ae, ?_, hty⟩
        rw [typeAccesses]
        exact bind_eq_ok.2 ⟨ae', hstep, hae⟩

/-- No path of two steps or more has a type that is expected after each of them. -/
theorem typeAccesses_some {env : Environment} {tv : TypeValue} {prev ae : AnnotatedExpression}
    {a b : AstSimplified.Access} {path : List AstSimplified.Access} :
    typeAccesses env (some tv) prev (a :: b :: path) ≠ .ok ae := by
  intro h
  rw [typeAccesses] at h
  obtain ⟨ae₁, h₁, h⟩ := bind_eq_ok.1 h
  rw [typeAccesses] at h
  obtain ⟨ae₂, h₂, -⟩ := bind_eq_ok.1 h
  obtain ⟨-, hexpected₁⟩ := typeAccess_iff.1 ⟨ae₁, h₁, rfl⟩
  obtain ⟨hcomponent, hexpected₂⟩ := typeAccess_iff.1 ⟨ae₂, h₂, rfl⟩
  have hlt := hcomponent.sizeOf_lt
  rw [hexpected₁ tv rfl, hexpected₂ tv rfl] at hlt
  exact lt_irrefl _ hlt

/-! ### Accessors -/

/-- The expression has a type, and the path leads from it to `t`. -/
def Leads (env : Environment) (expr : AstSimplified.Expression)
    (path : List AstSimplified.Access) (t : TypeValue) : Prop :=
  ∃ T, HasType env expr T ∧ Reaches env T path t

/-- An accessor has the type `t` exactly when its path leads there and `t` is the type that
is expected, if there is one. -/
def AccessorLaw (env : Environment) (tvOpt : Option TypeValue) (expr : AstSimplified.Expression)
    (path : List AstSimplified.Access) : Prop :=
  ∀ t, (∃ ae, typeExpression env tvOpt (.eAccessor expr path) = .ok ae ∧ ae.typeAnnot = t) ↔
    Leads env expr path t ∧ ∀ tv ∈ tvOpt, t = tv

/-- The comparisons with the type that is expected, one after every step, accept what a
comparison with the final component does. -/
def ComparedAlike (env : Environment) (expr : AstSimplified.Expression) :
    Option TypeValue → List AstSimplified.Access → Prop
  | none, _ => True
  | some tv, [] => ∀ T, HasType env expr T → T = tv
  | some _, [_] => True
  | some tv, path => ¬ Leads env expr path tv

section Law

variable {env : Environment} {tv : TypeValue} {tvOpt : Option TypeValue}
  {expr : AstSimplified.Expression} {a b : AstSimplified.Access}
  {path : List AstSimplified.Access} {ae : AnnotatedExpression}

/-- An accessor types the record and then the path. -/
theorem typeExpression_accessor_iff :
    typeExpression env tvOpt (.eAccessor expr path) = .ok ae ↔
      ∃ ae', typeExpression env none expr = .ok ae' ∧
        typeAccesses env tvOpt ae' path = .ok ae := by
  rw [typeExpression, trace_eq_ok, bind_eq_ok]
  simp only [trace_eq_ok]

/-- Where nothing is expected, nothing is compared. -/
theorem accessorLaw_none : AccessorLaw env none expr path := by
  intro t
  constructor
  · rintro ⟨ae, h, hty⟩
    obtain ⟨ae', hexpr, h⟩ := typeExpression_accessor_iff.1 h
    exact ⟨⟨_, ⟨ae', hexpr, rfl⟩, typeAccesses_iff.1 ⟨ae, h, hty⟩⟩, by simp⟩
  · rintro ⟨⟨_, ⟨ae', hexpr, rfl⟩, hreaches⟩, -⟩
    obtain ⟨ae, h, hty⟩ := typeAccesses_iff.2 hreaches
    exact ⟨ae, typeExpression_accessor_iff.2 ⟨ae', hexpr, h⟩, hty⟩

/-- The only step of a path is compared with the expected type. -/
theorem accessorLaw_single : AccessorLaw env (some tv) expr [a] := by
  intro t
  constructor
  · rintro ⟨ae, h, hty⟩
    obtain ⟨ae', hexpr, h⟩ := typeExpression_accessor_iff.1 h
    obtain ⟨ae₁, hstep, h⟩ := bind_eq_ok.1 h
    cases h
    obtain ⟨hcomponent, hexpected⟩ := typeAccess_iff.1 ⟨ae, hstep, hty⟩
    exact ⟨⟨_, ⟨ae', hexpr, rfl⟩, .cons hcomponent .nil⟩, hexpected⟩
  · rintro ⟨⟨_, ⟨ae', hexpr, rfl⟩, hreaches⟩, hexpected⟩
    cases hreaches with
    | cons hcomponent hnil =>
      cases hnil
      obtain ⟨ae, hstep, hty⟩ := typeAccess_iff.2 ⟨hcomponent, hexpected⟩
      refine ⟨ae, typeExpression_accessor_iff.2 ⟨ae', hexpr, ?_⟩, hty⟩
      exact bind_eq_ok.2 ⟨ae, hstep, rfl⟩

/-- An empty path is not compared, so the record itself has to have the expected type. -/
theorem accessorLaw_nil_iff :
    AccessorLaw env (some tv) expr [] ↔ ∀ T, HasType env expr T → T = tv := by
  -- an empty path leaves the expression as it is typed, without the expected type
  have haccessor : ∀ T, (∃ ae, typeExpression env (some tv) (.eAccessor expr []) = .ok ae ∧
      ae.typeAnnot = T) ↔ HasType env expr T := by
    intro T
    constructor
    · rintro ⟨ae, h, hty⟩
      obtain ⟨ae', hexpr, h⟩ := typeExpression_accessor_iff.1 h
      cases h
      exact ⟨ae, hexpr, hty⟩
    · rintro ⟨ae, hexpr, hty⟩
      exact ⟨ae, typeExpression_accessor_iff.2 ⟨ae, hexpr, rfl⟩, hty⟩
  constructor
  -- so the law asks for the expected type, which nothing has compared
  · intro h T hT
    have hexpected := ((h T).1 ((haccessor T).2 hT)).2
    exact hexpected tv rfl
  · intro h T
    rw [haccessor]
    constructor
    · intro hT
      refine ⟨⟨T, hT, .nil⟩, fun tv' hmem => ?_⟩
      rw [← Option.mem_some.1 hmem]
      exact h T hT
    · rintro ⟨⟨_, hT, hnil⟩, -⟩
      cases hnil
      exact hT

/-- On a longer path the steps before the last are compared with the expected type too, so a
path that leads to this type is rejected. -/
theorem accessorLaw_cons_cons_iff :
    AccessorLaw env (some tv) expr (a :: b :: path) ↔ ¬ Leads env expr (a :: b :: path) tv := by
  -- what is expected of the whole is expected of the first step, with its own type
  have hrejects : ∀ ae, typeExpression env (some tv) (.eAccessor expr (a :: b :: path)) ≠
      .ok ae := by
    intro ae h
    obtain ⟨ae', -, h⟩ := typeExpression_accessor_iff.1 h
    exact typeAccesses_some h
  constructor
  · intro h hleads
    obtain ⟨ae, hae, -⟩ := (h tv).2 ⟨hleads, by simp⟩
    exact hrejects ae hae
  · intro h t
    constructor
    · rintro ⟨ae, hae, -⟩
      exact (hrejects ae hae).elim
    · rintro ⟨hleads, hexpected⟩
      rw [hexpected tv rfl] at hleads
      exact (h hleads).elim

/-- The law holds exactly of the paths on which the comparisons after every step accept what one
comparison at the end would. -/
theorem accessorLaw_iff : AccessorLaw env tvOpt expr path ↔ ComparedAlike env expr tvOpt path := by
  match tvOpt, path with
  | none, _ => exact iff_of_true accessorLaw_none trivial
  | some _, [] => exact accessorLaw_nil_iff
  | some _, [_] => exact iff_of_true accessorLaw_single trivial
  | some _, _ :: _ :: _ => exact accessorLaw_cons_cons_iff

end Law

/-- `((1, 2), 3).0.0`, of which an integer is expected: after the first step there is a pair. -/
theorem accessorLaw_pairs :
    ¬ AccessorLaw Environment.fullEmpty (some tInt)
      (.eTuple [.eTuple [.eLiteral (.int ⟨1, by decide⟩), .eLiteral (.int ⟨2, by decide⟩)],
        .eLiteral (.int ⟨3, by decide⟩)]) [.tuple 0, .tuple 0] := by
  rw [accessorLaw_cons_cons_iff, not_not]
  refine ⟨.tTuple [.tTuple [tInt, tInt], tInt], ⟨_, rfl, rfl⟩, ?_⟩
  exact .cons (.tuple rfl) (.cons (.tuple rfl) .nil)

end Ligo.Typer
