import Ligo.AstTyped.Misc
import Ligo.Exceptions
import Ligo.Library.SortedMap
import Mathlib.Order.Lattice
import Mathlib.Data.String.Basic

/-!
# Equality of types

`assert_type_value_eq` with the exception that `List.combine` raises on lists of different
lengths (`assertTypeValueEqRaising`). The lengths are compared first, so it is never raised,
and what is returned is what `assertTypeValueEq` returns (`assertTypeValueEqRaising_eq`).

What the check decides is `Same`: types are equal when their components are, and sums and
records are compared as finite maps. A map is represented by the list of its bindings with
increasing keys (`Wf`), and of these there is one for each map (`same_iff_eq`).
-/

namespace Ligo.AstTyped

/-! ### The check with its exception -/

mutual

/-- `assert_type_value_eq`. -/
def assertTypeValueEqRaising : TypeValue → TypeValue → Raising Unit
  | .tTuple ta, .tTuple tb => do
    Raising.lift (traceStrong "tuples have different sizes" (assertTrue (ta.length == tb.length)))
    let _ ← combine ta tb
    assertAllEqRaising ta tb
  | .tConstant ca lsta, .tConstant cb lstb => do
    Raising.lift
      (traceStrong "constants have different sizes" (assertTrue (lsta.length == lstb.length)))
    Raising.lift (traceStrong "different constants" (assertTrue (ca == cb)))
    Raising.trace "constant sub-expression" do
      let _ ← combine lsta lstb
      assertAllEqRaising lsta lstb
  | .tSum sa, .tSum sb => do
    Raising.lift (traceStrong "sums have different sizes" (assertTrue (sa.length == sb.length)))
    Raising.trace "sum type" do
      let _ ← combine sa sb
      assertFieldsEqRaising "different keys in sum types" sa sb
  | .tRecord ra, .tRecord rb => do
    Raising.lift
      (traceStrong "records have different sizes" (assertTrue (ra.length == rb.length)))
    Raising.trace "record type" do
      let _ ← combine ra rb
      assertFieldsEqRaising "different props in record" ra rb
  | .tFunction param result, .tFunction param' result' => do
    assertTypeValueEqRaising param param'
    assertTypeValueEqRaising result result'
  | _, _ => Raising.lift (simpleFail "different kinds")

/-- The pairs that `List.combine` makes, one after the other. -/
def assertAllEqRaising : List TypeValue → List TypeValue → Raising Unit
  | a :: ta, b :: tb => do
    assertTypeValueEqRaising a b
    assertAllEqRaising ta tb
  | _, _ => Raising.lift (.ok ())

/-- The bindings that `List.combine` pairs, from the greatest key to the least. -/
def assertFieldsEqRaising (msg : String) :
    List (String × TypeValue) → List (String × TypeValue) → Raising Unit
  | (ka, va) :: sa, (kb, vb) :: sb => do
    assertFieldsEqRaising msg sa sb
    Raising.lift (assertTrueMsg msg (ka == kb))
    assertTypeValueEqRaising va vb
  | _, _ => Raising.lift (.ok ())

end

section Returns

open Raising

/-- Lists of one length are combined without an exception. -/
theorem combine_of_length {α β : Type} {as : List α} {bs : List β} (h : as.length = bs.length) :
    combine as bs = lift (.ok (as.zip bs)) := if_pos h

theorem combine_bind {α β γ : Type} {as : List α} {bs : List β} {x : Raising γ}
    (h : as.length = bs.length) : (combine as bs >>= fun _ => x) = x := by
  rw [combine_of_length h]
  rfl

/-- What follows a comparison of lengths is run on lists of one length only. -/
theorem sized_bind {α β γ : Type} {title : String} {as : List α} {bs : List β}
    {x : Raising γ} {r : Result γ} (hx : as.length = bs.length → x = lift r) :
    (lift (traceStrong title (assertTrue (as.length == bs.length))) >>= fun _ => x) =
      lift (traceStrong title (assertTrue (as.length == bs.length)) >>= fun _ => r) := by
  by_cases hlen : as.length = bs.length
  · rw [hx hlen, lift_bind_lift]
  · have hfalse : (as.length == bs.length) = false := by simpa using hlen
    rw [hfalse]
    rfl

/-- The comparison with exceptions never raises, since lengths are compared before. -/
theorem assertAllEqRaising_eq {ta : List TypeValue}
    (ih : ∀ t ∈ ta, ∀ u, assertTypeValueEqRaising t u = lift (assertTypeValueEq t u))
    (tb : List TypeValue) : assertAllEqRaising ta tb = lift (assertAllEq ta tb) := by
  induction ta generalizing tb with
  | nil => cases tb <;> rfl
  | cons a ta ihta =>
    cases tb with
    | nil => rfl
    | cons b tb =>
      have hhead := ih a List.mem_cons_self b
      have htail := ihta (fun t ht => ih t (List.mem_cons_of_mem _ ht)) tb
      rw [assertAllEqRaising, assertAllEq, hhead, htail, lift_bind_lift]

theorem assertFieldsEqRaising_eq {msg : String} {sa : List (String × TypeValue)}
    (ih : ∀ x ∈ sa, ∀ u, assertTypeValueEqRaising x.2 u = lift (assertTypeValueEq x.2 u))
    (sb : List (String × TypeValue)) :
    assertFieldsEqRaising msg sa sb = lift (assertFieldsEq msg sa sb) := by
  induction sa generalizing sb with
  | nil => cases sb <;> rfl
  | cons a sa ihsa =>
    cases sb with
    | nil => rfl
    | cons b sb =>
      obtain ⟨ka, va⟩ := a
      obtain ⟨kb, vb⟩ := b
      have hhead := ih (ka, va) List.mem_cons_self vb
      have htail := ihsa (fun x hx => ih x (List.mem_cons_of_mem _ hx)) sb
      rw [assertFieldsEqRaising, assertFieldsEq, htail, hhead, lift_bind_lift, lift_bind_lift]

/-- The check returns. -/
theorem assertTypeValueEqRaising_eq (a b : TypeValue) :
    assertTypeValueEqRaising a b = lift (assertTypeValueEq a b) := by
  induction a using TypeValue.ind generalizing b with
  | tuple ta ih =>
    cases b with
    | tTuple tb =>
      rw [assertTypeValueEqRaising, assertTypeValueEq]
      -- `combine` runs under the check of the sizes, so it cannot raise
      refine sized_bind fun hlen => ?_
      rw [combine_bind hlen, assertAllEqRaising_eq ih]
    | _ => rfl
  | sum sa ih =>
    cases b with
    | tSum sb =>
      rw [assertTypeValueEqRaising, assertTypeValueEq]
      refine sized_bind fun hlen => ?_
      rw [combine_bind hlen, assertFieldsEqRaising_eq ih, trace_lift]
    | _ => rfl
  | record ra ih =>
    cases b with
    | tRecord rb =>
      rw [assertTypeValueEqRaising, assertTypeValueEq]
      refine sized_bind fun hlen => ?_
      rw [combine_bind hlen, assertFieldsEqRaising_eq ih, trace_lift]
    | _ => rfl
  | constant ca lsta ih =>
    cases b with
    | tConstant cb lstb =>
      rw [assertTypeValueEqRaising, assertTypeValueEq]
      refine sized_bind fun hlen => ?_
      rw [combine_bind hlen, assertAllEqRaising_eq ih, trace_lift, lift_bind_lift]
    | _ => rfl
  | function param result ihp ihr =>
    cases b with
    | tFunction param' result' =>
      rw [assertTypeValueEqRaising, assertTypeValueEq, ihp, ihr, lift_bind_lift]
    | _ => rfl

end Returns

/-! ### Structural equality -/

/-- The bindings of every sum and record ascend in their keys. -/
inductive TypeValue.Wf : TypeValue → Prop
  | tuple {lst} (h : ∀ t ∈ lst, Wf t) : Wf (.tTuple lst)
  | sum {m : List (String × TypeValue)} (hm : SortedMap.Sorted m) (h : ∀ x ∈ m, Wf x.2) :
    Wf (.tSum m)
  | record {m : List (String × TypeValue)} (hm : SortedMap.Sorted m) (h : ∀ x ∈ m, Wf x.2) :
    Wf (.tRecord m)
  | constant {name lst} (h : ∀ t ∈ lst, Wf t) : Wf (.tConstant name lst)
  | function {param result} (hp : Wf param) (hr : Wf result) : Wf (.tFunction param result)

/-- Structural equality, sums and records being compared as finite maps: the same keys,
bound to equal components. -/
inductive Same : TypeValue → TypeValue → Prop
  | tuple {ta tb} (h : List.Forall₂ Same ta tb) : Same (.tTuple ta) (.tTuple tb)
  | sum {sa sb} (h : ∀ k, Option.Rel Same (SortedMap.lookup k sa) (SortedMap.lookup k sb)) :
    Same (.tSum sa) (.tSum sb)
  | record {ra rb} (h : ∀ k, Option.Rel Same (SortedMap.lookup k ra) (SortedMap.lookup k rb)) :
    Same (.tRecord ra) (.tRecord rb)
  | constant {name lsta lstb} (h : List.Forall₂ Same lsta lstb) :
    Same (.tConstant name lsta) (.tConstant name lstb)
  | function {param param' result result'} (hp : Same param param')
      (hr : Same result result') : Same (.tFunction param result) (.tFunction param' result')

/-- Lists that are related by equality. -/
theorem forall₂_iff_eq {α : Type} {R : α → α → Prop} {as bs : List α}
    (hR : ∀ a ∈ as, ∀ b ∈ bs, R a b ↔ a = b) : List.Forall₂ R as bs ↔ as = bs := by
  induction as generalizing bs with
  | nil => rw [List.forall₂_nil_left_iff, eq_comm]
  | cons a as ih =>
    cases bs with
    | nil => simp
    | cons b bs =>
      have hhead := hR a List.mem_cons_self b List.mem_cons_self
      have htail := ih fun a ha b hb =>
        hR a (List.mem_cons_of_mem _ ha) b (List.mem_cons_of_mem _ hb)
      rw [List.forall₂_cons, hhead, htail, List.cons.injEq]

/-- The same types are compared part by part. -/
theorem same_tuple {ta tb : List TypeValue} :
    Same (.tTuple ta) (.tTuple tb) ↔ List.Forall₂ Same ta tb := by
  constructor
  · intro h
    cases h with
    | tuple h => exact h
  · exact .tuple

/-- Fields are found by their keys, whatever their order. -/
theorem same_sum {sa sb : List (String × TypeValue)} :
    Same (.tSum sa) (.tSum sb) ↔
      ∀ k, Option.Rel Same (SortedMap.lookup k sa) (SortedMap.lookup k sb) := by
  constructor
  · intro h
    cases h with
    | sum h => exact h
  · exact .sum

theorem same_record {ra rb : List (String × TypeValue)} :
    Same (.tRecord ra) (.tRecord rb) ↔
      ∀ k, Option.Rel Same (SortedMap.lookup k ra) (SortedMap.lookup k rb) := by
  constructor
  · intro h
    cases h with
    | record h => exact h
  · exact .record

theorem same_constant {ca cb : String} {lsta lstb : List TypeValue} :
    Same (.tConstant ca lsta) (.tConstant cb lstb) ↔ ca = cb ∧ List.Forall₂ Same lsta lstb := by
  constructor
  · intro h
    cases h with
    | constant h => exact ⟨rfl, h⟩
  · rintro ⟨rfl, h⟩
    exact .constant h

theorem same_function {param param' result result' : TypeValue} :
    Same (.tFunction param result) (.tFunction param' result') ↔
      Same param param' ∧ Same result result' := by
  constructor
  · intro h
    cases h with
    | function hp hr => exact ⟨hp, hr⟩
  · rintro ⟨hp, hr⟩
    exact .function hp hr

/-- A finite map has one representation, so structural equality is equality. -/
theorem same_iff_eq {a b : TypeValue} (ha : a.Wf) (hb : b.Wf) : Same a b ↔ a = b := by
  induction ha generalizing b with
  | tuple _ ih =>
    cases hb with
    | tuple htb =>
      have hiff := forall₂_iff_eq fun t ht u hu => ih t ht (htb u hu)
      rw [same_tuple, hiff, TypeValue.tTuple.injEq]
    | _ => exact iff_of_false nofun nofun
  | sum hm _ ih =>
    cases hb with
    | sum hm' hsb =>
      -- both maps have their keys in order, so related entries are the same entries
      have hiff := SortedMap.rel_iff_eq hm hm' fun x hx y hy => ih x hx (hsb y hy)
      rw [same_sum, hiff, TypeValue.tSum.injEq]
    | _ => exact iff_of_false nofun nofun
  | record hm _ ih =>
    cases hb with
    | record hm' hrb =>
      have hiff := SortedMap.rel_iff_eq hm hm' fun x hx y hy => ih x hx (hrb y hy)
      rw [same_record, hiff, TypeValue.tRecord.injEq]
    | _ => exact iff_of_false nofun nofun
  | constant _ ih =>
    cases hb with
    | constant hlst =>
      have hiff := forall₂_iff_eq fun t ht u hu => ih t ht (hlst u hu)
      rw [same_constant, hiff, TypeValue.tConstant.injEq]
    | _ => exact iff_of_false nofun nofun
  | function _ _ ihp ihr =>
    cases hb with
    | function hp hr => rw [same_function, ihp hp, ihr hr, TypeValue.tFunction.injEq]
    | _ => exact iff_of_false nofun nofun

/-! ### What the check decides -/

/-- The types, whose sums and records are finite maps. -/
abbrev WfType := {t : TypeValue // t.Wf}

/-- A finite map to types. -/
abbrev WfFields := {m : List (String × WfType) // SortedMap.Sorted m}

namespace WfType

theorem wf_of_mem_map {lst : List WfType} {t : TypeValue} (h : t ∈ lst.map Subtype.val) :
    t.Wf := by
  obtain ⟨t', -, rfl⟩ := List.mem_map.1 h
  exact t'.2

theorem wf_of_mem_mapVal {m : List (String × WfType)} {x : String × TypeValue}
    (h : x ∈ SortedMap.mapVal Subtype.val m) : x.2.Wf := by
  obtain ⟨x', -, rfl⟩ := List.mem_map.1 h
  exact x'.2.2

def tuple (lst : List WfType) : WfType :=
  ⟨.tTuple (lst.map Subtype.val), .tuple fun _ => wf_of_mem_map⟩

def constant (name : String) (lst : List WfType) : WfType :=
  ⟨.tConstant name (lst.map Subtype.val), .constant fun _ => wf_of_mem_map⟩

def function (param result : WfType) : WfType :=
  ⟨.tFunction param result, .function param.2 result.2⟩

def sum (m : WfFields) : WfType :=
  ⟨.tSum (SortedMap.mapVal Subtype.val m.1),
    .sum ((SortedMap.sorted_mapVal _ _).2 m.2) fun _ => wf_of_mem_mapVal⟩

def record (m : WfFields) : WfType :=
  ⟨.tRecord (SortedMap.mapVal Subtype.val m.1),
    .record ((SortedMap.sorted_mapVal _ _).2 m.2) fun _ => wf_of_mem_mapVal⟩

end WfType

/-- The constructors of types respect `R`. -/
structure IsCongruence (R : WfType → WfType → Prop) : Prop where
  tuple {ta tb} (h : List.Forall₂ R ta tb) : R (.tuple ta) (.tuple tb)
  constant {name lsta lstb} (h : List.Forall₂ R lsta lstb) :
    R (.constant name lsta) (.constant name lstb)
  function {param param' result result'} (hp : R param param') (hr : R result result') :
    R (.function param result) (.function param' result')
  sum {sa sb : WfFields}
    (h : ∀ k, Option.Rel R (SortedMap.lookup k sa.1) (SortedMap.lookup k sb.1)) :
    R (.sum sa) (.sum sb)
  record {ra rb : WfFields}
    (h : ∀ k, Option.Rel R (SortedMap.lookup k ra.1) (SortedMap.lookup k rb.1)) :
    R (.record ra) (.record rb)

/-- Equality is a congruence on types. -/
theorem isCongruence_eq : IsCongruence Eq where
  tuple h := by
    rw [(forall₂_iff_eq fun _ _ _ _ => Iff.rfl).1 h]
  constant h := by
    rw [(forall₂_iff_eq fun _ _ _ _ => Iff.rfl).1 h]
  function hp hr := by
    rw [hp, hr]
  sum {sa sb} h := by
    have heq := (SortedMap.rel_iff_eq sa.2 sb.2 fun _ _ _ _ => Iff.rfl).1 h
    rw [Subtype.ext heq]
  record {ra rb} h := by
    have heq := (SortedMap.rel_iff_eq ra.2 rb.2 fun _ _ _ _ => Iff.rfl).1 h
    rw [Subtype.ext heq]

/-- The check returns `ok`. -/
def Equates (a b : WfType) : Prop := assertTypeValueEqRaising a b = Raising.lift (.ok ())

/-- The comparison equates a type with itself and nothing else. -/
theorem equates_iff_eq {a b : WfType} : Equates a b ↔ a = b := by
  rw [Equates, assertTypeValueEqRaising_eq, Raising.lift_injective.eq_iff,
    assertTypeValueEq_iff, Subtype.ext_iff]

/-- The check never raises and accepts the structurally equal types; so it is an
equivalence, and a congruence. -/
theorem assertTypeValueEq_decides :
    (∀ a b : WfType, Raising.Returns (assertTypeValueEqRaising a b) ∧
      (Equates a b ↔ Same a b) ∧ (typeValueEq a b = true ↔ Same a b)) ∧
    Equivalence Equates ∧ IsCongruence Equates := by
  -- the relation that is decided is equality
  have heq : Equates = Eq := by
    funext a b
    exact propext equates_iff_eq
  refine ⟨fun a b => ⟨?_, ?_, ?_⟩, ?_, ?_⟩
  · rw [assertTypeValueEqRaising_eq]
    exact Raising.returns_lift _
  · rw [equates_iff_eq, Subtype.ext_iff, same_iff_eq a.2 b.2]
  · rw [typeValueEq_iff, same_iff_eq a.2 b.2]
  · rw [heq]
    exact eq_equivalence
  · rw [heq]
    exact isCongruence_eq

end Ligo.AstTyped
