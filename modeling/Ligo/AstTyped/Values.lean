import Ligo.AstTyped.Misc
import Ligo.Library.SortedMap
import Ligo.Michelson.Atom
import Mathlib.Order.Fin.Basic

/-!
# Values

The typed expressions that are values, and what they denote. A type of values (`ValueType`)
is built from the base types by options, lists, maps with comparable keys, tuples, records and
sums; `IsValue` are the expressions of such a type that literals are built into. A value
denotes a datum (`valueOf`): of a map, a finite map, in which the last binding of a key counts.

The components of a tuple, a record or a sum are given by their positions, of which there is
at least one. The keys of a record or a sum ascend.
-/

namespace Ligo.AstTyped

open Michelson (Atom)

/-! ### Types of values -/

/-- The types of the keys of maps. -/
def KeyType (t : TypeValue) : Prop := t ∈ [tInt, tNat, tTez, tString]

inductive ValueType : TypeValue → Prop
  | base {t} (h : t ∈ [tUnit, tBool, tInt, tNat, tTez, tString]) : ValueType t
  | option {o} (h : ValueType o) : ValueType (tOption o)
  | list {t} (h : ValueType t) : ValueType (tList t)
  | map {k v} (hk : KeyType k) (hv : ValueType v) : ValueType (tMap k v)
  | tuple {n} {ts : Fin (n + 1) → TypeValue} (h : ∀ i, ValueType (ts i)) :
    ValueType (.tTuple (List.ofFn ts))
  | record {n} {keys : Fin (n + 1) → String} {ts : Fin (n + 1) → TypeValue}
    (hkeys : StrictMono keys) (h : ∀ i, ValueType (ts i)) :
    ValueType (.tRecord (List.ofFn fun i => (keys i, ts i)))
  | sum {n} {keys : Fin (n + 1) → String} {ts : Fin (n + 1) → TypeValue}
    (hkeys : StrictMono keys) (h : ∀ i, ValueType (ts i)) :
    ValueType (.tSum (List.ofFn fun i => (keys i, ts i)))

theorem KeyType.valueType {k : TypeValue} (h : KeyType k) : ValueType k := by
  refine .base ?_
  simp only [KeyType, List.mem_cons, List.not_mem_nil, or_false] at h
  rcases h with rfl | rfl | rfl | rfl <;> simp

/-! ### Expressions that are values -/

/-- The type of a literal that is a value. -/
def literalValueType : Literal → Option TypeValue
  | .unit => some tUnit
  | .bool _ => some tBool
  | .int _ => some tInt
  | .nat _ => some tNat
  | .tez _ => some tTez
  | .string _ => some tString
  | .bytes _ | .address _ | .operation _ => none

/-- The expression is a value of the type, its literals satisfy `P`, and `Q` holds of the types
that are built along with it: those of options, lists and maps and of the tuples and records
of several components. -/
inductive IsValue (P : Literal → Prop) (Q : TypeValue → Prop) :
    TypeValue → AnnotatedExpression → Prop
  | literal {l t env} (ht : literalValueType l = some t) (hl : P l) :
    IsValue P Q t (.mk (.eLiteral l) t env)
  | none {o env} (ho : ValueType o) (hq : Q (tOption o)) :
    IsValue P Q (tOption o) (.mk (.eConstant "NONE" []) (tOption o) env)
  | some {o x env} (hx : IsValue P Q o x) (hq : Q (tOption o)) :
    IsValue P Q (tOption o) (.mk (.eConstant "SOME" [x]) (tOption o) env)
  | list {t lst env} (ht : ValueType t) (hlst : ∀ x ∈ lst, IsValue P Q t x)
    (hq : Q (tList t)) : IsValue P Q (tList t) (.mk (.eList lst) (tList t) env)
  | map {k v env} {m : List (AnnotatedExpression × AnnotatedExpression)} (hk : KeyType k)
    (hv : ValueType v) (hkeys : ∀ x ∈ m, IsValue P Q k x.1)
    (hvals : ∀ x ∈ m, IsValue P Q v x.2) (hq : Q (tMap k v)) :
    IsValue P Q (tMap k v) (.mk (.eMap m) (tMap k v) env)
  | tuple {n env} {ts : Fin (n + 1) → TypeValue} {es : Fin (n + 1) → AnnotatedExpression}
    (h : ∀ i, IsValue P Q (ts i) (es i)) (hq : 0 < n → Q (.tTuple (List.ofFn ts))) :
    IsValue P Q (.tTuple (List.ofFn ts))
      (.mk (.eTuple (List.ofFn es)) (.tTuple (List.ofFn ts)) env)
  | record {n env} {keys : Fin (n + 1) → String} {ts : Fin (n + 1) → TypeValue}
    {es : Fin (n + 1) → AnnotatedExpression} (hkeys : StrictMono keys)
    (h : ∀ i, IsValue P Q (ts i) (es i))
    (hq : 0 < n → Q (.tRecord (List.ofFn fun i => (keys i, ts i)))) :
    IsValue P Q (.tRecord (List.ofFn fun i => (keys i, ts i)))
      (.mk (.eRecord (List.ofFn fun i => (keys i, es i)))
        (.tRecord (List.ofFn fun i => (keys i, ts i))) env)
  | constructor' {n env} {keys : Fin (n + 1) → String} {ts : Fin (n + 1) → TypeValue}
    {i : Fin (n + 1)} {x} (hkeys : StrictMono keys) (hts : ∀ i, ValueType (ts i))
    (hx : IsValue P Q (ts i) x) :
    IsValue P Q (.tSum (List.ofFn fun i => (keys i, ts i)))
      (.mk (.eConstructor (keys i) x) (.tSum (List.ofFn fun i => (keys i, ts i))) env)

theorem IsValue.valueType {P : Literal → Prop} {Q : TypeValue → Prop} {t : TypeValue}
    {ae : AnnotatedExpression} (h : IsValue P Q t ae) : ValueType t := by
  induction h with
  | @literal l t env ht _ =>
    refine .base ?_
    cases l <;> cases ht <;> simp
  | none ho _ => exact .option ho
  | some _ _ ih => exact .option ih
  | list ht _ _ _ => exact .list ht
  | map hk hv _ _ _ _ _ => exact .map hk hv
  | tuple _ _ ih => exact .tuple ih
  | record hkeys _ _ ih => exact .record hkeys ih
  | constructor' hkeys hts _ _ => exact .sum hkeys hts

/-- What a value denotes. -/
inductive Datum where
  | literal (l : Literal)
  | none
  | some (d : Datum)
  | list (ds : List Datum)
  | map (m : List (Atom × Datum))
  | tuple (ds : List Datum)
  | record (m : List (String × Datum))
  | constructor' (name : String) (d : Datum)

/-- The key that a literal is. -/
def literalKey : Literal → Option Atom
  | .int n => some (.int n.val)
  | .nat n => some (.nat n.val.toNat)
  | .tez n => some (.mutez ⟨n.val.toNat, by have := n.property; omega⟩)
  | .string s => some (.string s)
  | _ => none

def Datum.key : Datum → Option Atom
  | .literal l => literalKey l
  | _ => Option.none

mutual

def valueOf : AnnotatedExpression → Option Datum
  | .mk e _ _ => expressionValue e

def expressionValue : Expression → Option Datum
  | .eLiteral l => some (.literal l)
  | .eConstant "NONE" [] => some .none
  | .eConstant "SOME" [x] => (valueOf x).map .some
  | .eList lst => (valuesOf lst).map .list
  | .eMap m => (bindingsOf m).map fun l => .map (SortedMap.ofList l)
  | .eTuple lst => (valuesOf lst).map .tuple
  | .eRecord m => (fieldsOf m).map .record
  | .eConstructor name x => (valueOf x).map (.constructor' name)
  | _ => none

def valuesOf : List AnnotatedExpression → Option (List Datum)
  | [] => some []
  | x :: lst => (valueOf x).bind fun d => (valuesOf lst).map (d :: ·)

def fieldsOf : List (String × AnnotatedExpression) → Option (List (String × Datum))
  | [] => some []
  | (k, x) :: m => (valueOf x).bind fun d => (fieldsOf m).map ((k, d) :: ·)

def bindingsOf : List (AnnotatedExpression × AnnotatedExpression) → Option (List (Atom × Datum))
  | [] => some []
  | (k, x) :: m => ((valueOf k).bind Datum.key).bind fun a => (valueOf x).bind fun d =>
      (bindingsOf m).map ((a, d) :: ·)

end

end Ligo.AstTyped
