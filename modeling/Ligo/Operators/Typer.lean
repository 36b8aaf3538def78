import Ligo.AstTyped.Misc
import Ligo.Library.Fuel

/-!
# The typers of the constants

Each constant has a function from the types of its arguments, and the type expected of
the whole expression if there is one, to the type of the result. The helpers check the
number of the arguments; `constantTypers` is the table.
-/

namespace Ligo.Operators.Typer

open AstTyped
open Fuel (bind_eq_ok)

/-- `typer'`. -/
abbrev Typer' := List TypeValue → Option TypeValue → Result (String × TypeValue)

/-! ### Helpers -/

def typer0 (s : String) (f : Option TypeValue → Result TypeValue) : Typer'
  | [], tvOpt => do
    let tv' ← f tvOpt
    return (s, tv')
  | _, _ => simpleFail "wrong number of params"

def typer1 (s : String) (f : TypeValue → Result TypeValue) : Typer'
  | [a], _ => do
    let tv' ← f a
    return (s, tv')
  | _, _ => simpleFail "wrong number of params"

def typer1Opt (s : String) (f : TypeValue → Option TypeValue → Result TypeValue) : Typer'
  | [a], tvOpt => do
    let tv' ← f a tvOpt
    return (s, tv')
  | _, _ => simpleFail "wrong number of params"

def typer2 (s : String) (f : TypeValue → TypeValue → Result TypeValue) : Typer'
  | [a, b], _ => do
    let tv' ← f a b
    return (s, tv')
  | _, _ => simpleFail "wrong number of params"

def typer3 (s : String) (f : TypeValue → TypeValue → TypeValue → Result TypeValue) : Typer'
  | [a, b, c], _ => do
    let tv' ← f a b c
    return (s, tv')
  | _, _ => simpleFail "wrong number of params"

def constant (name : String) (cst : TypeValue) : Typer' := typer0 name fun _ => .ok cst

def eq1 (a cst : TypeValue) : Bool := typeValueEq a cst

def eq2 (ab : TypeValue × TypeValue) (cst : TypeValue) : Bool :=
  typeValueEq ab.1 cst && typeValueEq ab.2 cst

def comparator (s : String) : Typer' := typer2 s fun a b => do
  traceStrong "Types a and b aren't comparable"
    (assertTrue ([tInt, tNat, tTez, tString, tBytes, tAddress].any (eq2 (a, b))))
  return tBool

def booleanOperator2 (s : String) : Typer' := typer2 s fun a b => do
  traceStrong "A isn't of type bool" (assertTrue (typeValueEq tBool a))
  traceStrong "B isn't of type bool" (assertTrue (typeValueEq tBool b))
  return tBool

/-! ### The constants -/

def none : Typer' := typer0 "NONE" fun tvOpt =>
  match tvOpt with
  | .none => simpleFail "untyped NONE"
  | .some t => .ok t

def sub : Typer' := typer2 "SUB" fun a b => do
  traceStrong "Types a and b aren't numbers" (assertTrue ([tInt, tNat].any (eq2 (a, b))))
  return tInt

def some : Typer' := typer1 "SOME" fun a => .ok (tOption a)

def mapRemove : Typer' := typer2 "MAP_REMOVE" fun k m => do
  let (src, _) ← getTMap m
  assertTypeValueEq src k
  return m

def mapUpdate : Typer' := typer3 "MAP_UPDATE" fun k v m => do
  let (src, dst) ← getTMap m
  assertTypeValueEq src k
  assertTypeValueEq dst v
  return m

def size : Typer' := typer1 "SIZE" fun t => do
  assertTrue (isTMap t || isTList t)
  return tNat

def getForce : Typer' := typer2 "MAP_GET_FORCE" fun i m => do
  let (src, dst) ← getTMap m
  assertTypeValueEq src i
  return dst

def int : Typer' := typer1 "INT" fun t => do
  assertTNat t
  return tInt

def bytesPack : Typer' := typer1 "PACK" fun _ => .ok tBytes

def bytesUnpack : Typer' := typer1Opt "UNPACK" fun input outputOpt => do
  assertTBytes input
  traceOption "untyped UNPACK" outputOpt

def cryptoHash : Typer' := typer1 "HASH" fun t => do
  assertTBytes t
  return tBytes

def sender : Typer' := constant "SENDER" tAddress

def source : Typer' := constant "SOURCE" tAddress

def unit : Typer' := constant "UNIT" tUnit

def amount : Typer' := constant "AMOUNT" tTez

def transaction : Typer' := typer3 "CALL" fun param amount contract => do
  assertTTez amount
  let contractParam ← getTContract contract
  assertTypeValueEq param contractParam
  return tOperation

def getContract : Typer' := typer1Opt "CONTRACT" fun _ tvOpt => do
  let tv ← traceOption "get_contract needs a type annotation" tvOpt
  let tv' ← traceStrong "get_contract has a not-contract annotation" (getTContract tv)
  return tContract tv'

def abs : Typer' := typer1 "ABS" fun t => do
  assertTInt t
  return tNat

def times : Typer' := typer2 "TIMES" fun a b =>
  if eq2 (a, b) tNat then .ok tNat
  else if eq2 (a, b) tInt then .ok tInt
  else if (eq1 a tNat && eq1 b tTez) || (eq1 b tNat && eq1 a tTez) then .ok tTez
  else simpleFail "Multiplying with wrong types"

def div : Typer' := typer2 "DIV" fun a b =>
  if eq2 (a, b) tNat then .ok tNat
  else if eq2 (a, b) tInt then .ok tInt
  else simpleFail "Dividing with wrong types"

def mod : Typer' := typer2 "MOD" fun a b =>
  if (eq1 a tNat || eq1 a tInt) && (eq1 b tNat || eq1 b tInt) then .ok tNat
  else simpleFail "Computing modulo with wrong types"

def add : Typer' := typer2 "ADD" fun a b =>
  if eq2 (a, b) tNat then .ok tNat
  else if eq2 (a, b) tInt then .ok tInt
  else if (eq1 a tNat && eq1 b tInt) || (eq1 b tNat && eq1 a tInt) then .ok tInt
  else simpleFail "Adding with wrong types"

/-- `Map.String.find_opt name constant_typers`. -/
def constantTypers : String → Option Typer'
  | "ADD" => .some add
  | "TIMES" => .some times
  | "DIV" => .some div
  | "MOD" => .some mod
  | "SUB" => .some sub
  | "NONE" => .some none
  | "SOME" => .some some
  | "EQ" => .some (comparator "EQ")
  | "NEQ" => .some (comparator "NEQ")
  | "LT" => .some (comparator "LT")
  | "GT" => .some (comparator "GT")
  | "LE" => .some (comparator "LE")
  | "GE" => .some (comparator "GE")
  | "OR" => .some (booleanOperator2 "OR")
  | "AND" => .some (booleanOperator2 "AND")
  | "MAP_REMOVE" => .some mapRemove
  | "MAP_UPDATE" => .some mapUpdate
  | "INT" => .some int
  | "SIZE" => .some size
  | "MAP_GET_FORCE" => .some getForce
  | "PACK" => .some bytesPack
  | "UNPACK" => .some bytesUnpack
  | "HASH" => .some cryptoHash
  | "SENDER" => .some sender
  | "SOURCE" => .some source
  | "UNIT" => .some unit
  | "AMOUNT" => .some amount
  | "CALL" => .some transaction
  | "CONTRACT" => .some getContract
  | "ABS" => .some abs
  | _ => .none

/-- `type_constant`. -/
def typeConstant (name : String) (lst : List TypeValue) (tvOpt : Option TypeValue) :
    Result (String × TypeValue) := do
  let typer ← traceOption "unrecognized constant" (constantTypers name)
  typer lst tvOpt

/-! ### What the typers accept -/

/-- The types that can be compared. -/
def Comparable (t : TypeValue) : Prop := t ∈ [tInt, tNat, tTez, tString, tBytes, tAddress]

/-- The rules of the table: the constant, the types of its arguments, the type expected of
the result, and the type it gets. -/
inductive Accepts : String → List TypeValue → Option TypeValue → TypeValue → Prop
  | addNat {e} : Accepts "ADD" [tNat, tNat] e tNat
  | addInt {e} : Accepts "ADD" [tInt, tInt] e tInt
  | addNatInt {e} : Accepts "ADD" [tNat, tInt] e tInt
  | addIntNat {e} : Accepts "ADD" [tInt, tNat] e tInt
  | timesNat {e} : Accepts "TIMES" [tNat, tNat] e tNat
  | timesInt {e} : Accepts "TIMES" [tInt, tInt] e tInt
  | timesNatTez {e} : Accepts "TIMES" [tNat, tTez] e tTez
  | timesTezNat {e} : Accepts "TIMES" [tTez, tNat] e tTez
  | divNat {e} : Accepts "DIV" [tNat, tNat] e tNat
  | divInt {e} : Accepts "DIV" [tInt, tInt] e tInt
  | mod {a b e} (ha : a ∈ [tNat, tInt]) (hb : b ∈ [tNat, tInt]) : Accepts "MOD" [a, b] e tNat
  | sub {a e} (ha : a ∈ [tInt, tNat]) : Accepts "SUB" [a, a] e tInt
  | none {t} : Accepts "NONE" [] (.some t) t
  | some {a e} : Accepts "SOME" [a] e (tOption a)
  | compare {s a e} (hs : s ∈ ["EQ", "NEQ", "LT", "GT", "LE", "GE"]) (ha : Comparable a) :
    Accepts s [a, a] e tBool
  | logical {s e} (hs : s ∈ ["OR", "AND"]) : Accepts s [tBool, tBool] e tBool
  | mapRemove {k v e} : Accepts "MAP_REMOVE" [k, tMap k v] e (tMap k v)
  | mapUpdate {k v e} : Accepts "MAP_UPDATE" [k, v, tMap k v] e (tMap k v)
  | int {e} : Accepts "INT" [tNat] e tInt
  | sizeMap {k v e} : Accepts "SIZE" [tMap k v] e tNat
  | sizeList {a e} : Accepts "SIZE" [tList a] e tNat
  | getForce {k v e} : Accepts "MAP_GET_FORCE" [k, tMap k v] e v
  | pack {a e} : Accepts "PACK" [a] e tBytes
  | unpack {t} : Accepts "UNPACK" [tBytes] (.some t) t
  | hash {e} : Accepts "HASH" [tBytes] e tBytes
  | sender {e} : Accepts "SENDER" [] e tAddress
  | source {e} : Accepts "SOURCE" [] e tAddress
  | unit {e} : Accepts "UNIT" [] e tUnit
  | amount {e} : Accepts "AMOUNT" [] e tTez
  | call {a e} : Accepts "CALL" [a, tTez, tContract a] e tOperation
  | contract {a t} : Accepts "CONTRACT" [a] (.some (tContract t)) (tContract t)
  | abs {e} : Accepts "ABS" [tInt] e tNat

section Inversion

variable {s s' : String} {args : List TypeValue} {e : Option TypeValue} {t : TypeValue}

/-- The frames of the table check how many arguments there are and keep the name. -/
theorem typer0_eq_ok {f : Option TypeValue → Result TypeValue} :
    typer0 s f args e = .ok (s', t) ↔ s' = s ∧ args = [] ∧ f e = .ok t := by
  match args with
  | [] =>
    rw [typer0]
    cases f e <;> simp [bind, Except.bind, pure, Except.pure, eq_comm]
  | _ :: _ => simp [typer0, simpleFail]

theorem typer1Opt_eq_ok {f : TypeValue → Option TypeValue → Result TypeValue} :
    typer1Opt s f args e = .ok (s', t) ↔ s' = s ∧ ∃ a, args = [a] ∧ f a e = .ok t := by
  match args with
  | [a] =>
    rw [typer1Opt]
    cases h : f a e <;> simp [bind, Except.bind, pure, Except.pure, eq_comm, h]
  | [] | _ :: _ :: _ => simp [typer1Opt, simpleFail]

theorem typer1_eq_ok {f : TypeValue → Result TypeValue} :
    typer1 s f args e = .ok (s', t) ↔ s' = s ∧ ∃ a, args = [a] ∧ f a = .ok t := by
  match args with
  | [a] =>
    rw [typer1]
    cases h : f a <;> simp [bind, Except.bind, pure, Except.pure, eq_comm, h]
  | [] | _ :: _ :: _ => simp [typer1, simpleFail]

theorem typer2_eq_ok {f : TypeValue → TypeValue → Result TypeValue} :
    typer2 s f args e = .ok (s', t) ↔ s' = s ∧ ∃ a b, args = [a, b] ∧ f a b = .ok t := by
  match args with
  | [a, b] =>
    rw [typer2]
    cases h : f a b <;> simp [bind, Except.bind, pure, Except.pure, eq_comm, h]
  | [] | [_] | _ :: _ :: _ :: _ => simp [typer2, simpleFail]

theorem typer3_eq_ok {f : TypeValue → TypeValue → TypeValue → Result TypeValue} :
    typer3 s f args e = .ok (s', t) ↔
      s' = s ∧ ∃ a b c, args = [a, b, c] ∧ f a b c = .ok t := by
  match args with
  | [a, b, c] =>
    rw [typer3]
    cases h : f a b c <;> simp [bind, Except.bind, pure, Except.pure, eq_comm, h]
  | [] | [_] | [_, _] | _ :: _ :: _ :: _ :: _ => simp [typer3, simpleFail]

/-- Types are compared by the comparison of types, which decides equality. -/
theorem eq2_iff {a b cst : TypeValue} : eq2 (a, b) cst = true ↔ a = cst ∧ b = cst := by
  rw [eq2, Bool.and_eq_true, typeValueEq_iff, typeValueEq_iff]

theorem eq1_iff {a cst : TypeValue} : eq1 a cst = true ↔ a = cst := typeValueEq_iff

/-- The accessors and assertions of types read one constant each. -/
theorem getTMap_eq_ok {m : TypeValue} {kv : TypeValue × TypeValue} :
    getTMap m = .ok kv ↔ m = tMap kv.1 kv.2 := by
  constructor
  · intro h
    unfold getTMap at h
    split at h
    · cases h
      rfl
    · cases h
  · rintro rfl
    rfl

theorem getTContract_eq_ok {c t : TypeValue} : getTContract c = .ok t ↔ c = tContract t := by
  constructor
  · intro h
    unfold getTContract at h
    split at h
    · cases h
      rfl
    · cases h
  · rintro rfl
    rfl

theorem getTList_eq_ok {l t : TypeValue} : getTList l = .ok t ↔ l = tList t := by
  constructor
  · intro h
    unfold getTList at h
    split at h
    · cases h
      rfl
    · cases h
  · rintro rfl
    rfl

theorem assertTNat_eq_ok {a : TypeValue} : assertTNat a = .ok () ↔ a = tNat := by
  constructor
  · intro h
    unfold assertTNat at h
    split at h
    · rfl
    · cases h
  · rintro rfl
    rfl

theorem assertTInt_eq_ok {a : TypeValue} : assertTInt a = .ok () ↔ a = tInt := by
  constructor
  · intro h
    unfold assertTInt at h
    split at h
    · rfl
    · cases h
  · rintro rfl
    rfl

theorem assertTTez_eq_ok {a : TypeValue} : assertTTez a = .ok () ↔ a = tTez := by
  constructor
  · intro h
    unfold assertTTez getTTez at h
    split at h
    · rfl
    · cases h
  · rintro rfl
    rfl

theorem assertTBytes_eq_ok {a : TypeValue} : assertTBytes a = .ok () ↔ a = tBytes := by
  constructor
  · intro h
    unfold assertTBytes getTBytes at h
    split at h
    · rfl
    · cases h
  · rintro rfl
    rfl

/-- Two equal types of a list. -/
theorem any_eq2_iff {a b : TypeValue} {ts : List TypeValue} :
    ts.any (eq2 (a, b)) = true ↔ a ∈ ts ∧ b = a := by
  rw [List.any_eq_true]
  constructor
  · rintro ⟨t, ht, heq⟩
    obtain ⟨rfl, rfl⟩ := eq2_iff.1 heq
    exact ⟨ht, rfl⟩
  · rintro ⟨ha, rfl⟩
    exact ⟨b, ha, eq2_iff.2 ⟨rfl, rfl⟩⟩

end Inversion

/-! ### The table and its rules -/

section Rules

variable {s s' : String} {args : List TypeValue} {e : Option TypeValue} {t : TypeValue}

/-- A result that checks come before. -/
theorem assert_then_eq_ok {α : Type} {r : Result Unit} {x y : α} :
    (r >>= fun _ => pure x) = .ok y ↔ r = .ok () ∧ y = x := by
  rw [bind_eq_ok]
  constructor
  · rintro ⟨_, hr, h⟩
    cases h
    exact ⟨hr, rfl⟩
  · rintro ⟨hr, rfl⟩
    exact ⟨(), hr, rfl⟩

/-- Every row of the table of the type checker accepts the arguments that `Accepts` lists for
its name, and no other. -/
theorem add_accepts (h : add args e = .ok (s', t)) : s' = "ADD" ∧ Accepts "ADD" args e t := by
  obtain ⟨rfl, a, b, rfl, hres⟩ := typer2_eq_ok.1 h
  refine ⟨rfl, ?_⟩
  split at hres
  · rename_i heq
    obtain ⟨rfl, rfl⟩ := eq2_iff.1 heq
    cases hres
    exact .addNat
  · split at hres
    · rename_i heq
      obtain ⟨rfl, rfl⟩ := eq2_iff.1 heq
      cases hres
      exact .addInt
    · split at hres
      · rename_i heq
        simp only [Bool.or_eq_true, Bool.and_eq_true, eq1_iff] at heq
        cases hres
        obtain ⟨rfl, rfl⟩ | ⟨rfl, rfl⟩ := heq
        · exact .addNatInt
        · exact .addIntNat
      · cases hres

theorem times_accepts (h : times args e = .ok (s', t)) :
    s' = "TIMES" ∧ Accepts "TIMES" args e t := by
  obtain ⟨rfl, a, b, rfl, hres⟩ := typer2_eq_ok.1 h
  refine ⟨rfl, ?_⟩
  split at hres
  · rename_i heq
    obtain ⟨rfl, rfl⟩ := eq2_iff.1 heq
    cases hres
    exact .timesNat
  · split at hres
    · rename_i heq
      obtain ⟨rfl, rfl⟩ := eq2_iff.1 heq
      cases hres
      exact .timesInt
    · split at hres
      · rename_i heq
        simp only [Bool.or_eq_true, Bool.and_eq_true, eq1_iff] at heq
        cases hres
        obtain ⟨rfl, rfl⟩ | ⟨rfl, rfl⟩ := heq
        · exact .timesNatTez
        · exact .timesTezNat
      · cases hres

theorem div_accepts (h : div args e = .ok (s', t)) : s' = "DIV" ∧ Accepts "DIV" args e t := by
  obtain ⟨rfl, a, b, rfl, hres⟩ := typer2_eq_ok.1 h
  refine ⟨rfl, ?_⟩
  split at hres
  · rename_i heq
    obtain ⟨rfl, rfl⟩ := eq2_iff.1 heq
    cases hres
    exact .divNat
  · split at hres
    · rename_i heq
      obtain ⟨rfl, rfl⟩ := eq2_iff.1 heq
      cases hres
      exact .divInt
    · cases hres

theorem mod_accepts (h : mod args e = .ok (s', t)) : s' = "MOD" ∧ Accepts "MOD" args e t := by
  obtain ⟨rfl, a, b, rfl, hres⟩ := typer2_eq_ok.1 h
  refine ⟨rfl, ?_⟩
  split at hres
  · rename_i heq
    simp only [Bool.or_eq_true, Bool.and_eq_true, eq1_iff] at heq
    cases hres
    exact .mod (by simpa using heq.1) (by simpa using heq.2)
  · cases hres

theorem sub_accepts (h : sub args e = .ok (s', t)) : s' = "SUB" ∧ Accepts "SUB" args e t := by
  obtain ⟨rfl, a, b, rfl, hres⟩ := typer2_eq_ok.1 h
  refine ⟨rfl, ?_⟩
  obtain ⟨hcheck, rfl⟩ := assert_then_eq_ok.1 hres
  obtain ⟨ha, rfl⟩ := any_eq2_iff.1 (assertTrue_eq_ok.1 (traceStrong_eq_ok.1 hcheck))
  exact .sub ha

/-- One row for all comparisons, at one type for both sides. -/
theorem comparator_accepts (hs : s ∈ ["EQ", "NEQ", "LT", "GT", "LE", "GE"])
    (h : comparator s args e = .ok (s', t)) : s' = s ∧ Accepts s args e t := by
  obtain ⟨rfl, a, b, rfl, hres⟩ := typer2_eq_ok.1 h
  refine ⟨rfl, ?_⟩
  obtain ⟨hcheck, rfl⟩ := assert_then_eq_ok.1 hres
  obtain ⟨ha, rfl⟩ := any_eq2_iff.1 (assertTrue_eq_ok.1 (traceStrong_eq_ok.1 hcheck))
  exact .compare hs ha

theorem booleanOperator2_accepts (hs : s ∈ ["OR", "AND"])
    (h : booleanOperator2 s args e = .ok (s', t)) : s' = s ∧ Accepts s args e t := by
  obtain ⟨rfl, a, b, rfl, hres⟩ := typer2_eq_ok.1 h
  refine ⟨rfl, ?_⟩
  obtain ⟨_, ha, hres⟩ := bind_eq_ok.1 hres
  obtain ⟨hb, rfl⟩ := assert_then_eq_ok.1 hres
  obtain rfl := typeValueEq_iff.1 (assertTrue_eq_ok.1 (traceStrong_eq_ok.1 ha))
  obtain rfl := typeValueEq_iff.1 (assertTrue_eq_ok.1 (traceStrong_eq_ok.1 hb))
  exact .logical hs

theorem none_accepts (h : none args e = .ok (s', t)) :
    s' = "NONE" ∧ Accepts "NONE" args e t := by
  obtain ⟨rfl, rfl, hres⟩ := typer0_eq_ok.1 h
  refine ⟨rfl, ?_⟩
  cases e with
  | none => cases hres
  | some u =>
    cases hres
    exact .none

theorem some_accepts (h : some args e = .ok (s', t)) :
    s' = "SOME" ∧ Accepts "SOME" args e t := by
  obtain ⟨rfl, a, rfl, hres⟩ := typer1_eq_ok.1 h
  cases hres
  exact ⟨rfl, .some⟩

theorem mapRemove_accepts (h : mapRemove args e = .ok (s', t)) :
    s' = "MAP_REMOVE" ∧ Accepts "MAP_REMOVE" args e t := by
  obtain ⟨rfl, k, m, rfl, hres⟩ := typer2_eq_ok.1 h
  refine ⟨rfl, ?_⟩
  obtain ⟨kv, hm, hres⟩ := bind_eq_ok.1 hres
  obtain rfl := getTMap_eq_ok.1 hm
  obtain ⟨hkey, rfl⟩ := assert_then_eq_ok.1 hres
  obtain rfl := assertTypeValueEq_iff.1 hkey
  exact .mapRemove

theorem mapUpdate_accepts (h : mapUpdate args e = .ok (s', t)) :
    s' = "MAP_UPDATE" ∧ Accepts "MAP_UPDATE" args e t := by
  obtain ⟨rfl, k, v, m, rfl, hres⟩ := typer3_eq_ok.1 h
  refine ⟨rfl, ?_⟩
  obtain ⟨kv, hm, hres⟩ := bind_eq_ok.1 hres
  obtain rfl := getTMap_eq_ok.1 hm
  obtain ⟨_, hkey, hres⟩ := bind_eq_ok.1 hres
  obtain ⟨hval, rfl⟩ := assert_then_eq_ok.1 hres
  obtain rfl := assertTypeValueEq_iff.1 hkey
  obtain rfl := assertTypeValueEq_iff.1 hval
  exact .mapUpdate

theorem size_accepts (h : size args e = .ok (s', t)) :
    s' = "SIZE" ∧ Accepts "SIZE" args e t := by
  obtain ⟨rfl, a, rfl, hres⟩ := typer1_eq_ok.1 h
  refine ⟨rfl, ?_⟩
  obtain ⟨hcheck, rfl⟩ := assert_then_eq_ok.1 hres
  rw [assertTrue_eq_ok, Bool.or_eq_true] at hcheck
  obtain hmap | hlist := hcheck
  · cases hget : getTMap a with
    | error errs =>
      rw [isTMap, hget] at hmap
      cases hmap
    | ok kv =>
      obtain rfl := getTMap_eq_ok.1 hget
      exact .sizeMap
  · cases hget : getTList a with
    | error errs =>
      rw [isTList, hget] at hlist
      cases hlist
    | ok u =>
      obtain rfl := getTList_eq_ok.1 hget
      exact .sizeList

theorem getForce_accepts (h : getForce args e = .ok (s', t)) :
    s' = "MAP_GET_FORCE" ∧ Accepts "MAP_GET_FORCE" args e t := by
  obtain ⟨rfl, k, m, rfl, hres⟩ := typer2_eq_ok.1 h
  refine ⟨rfl, ?_⟩
  obtain ⟨kv, hm, hres⟩ := bind_eq_ok.1 hres
  obtain rfl := getTMap_eq_ok.1 hm
  obtain ⟨hkey, rfl⟩ := assert_then_eq_ok.1 hres
  obtain rfl := assertTypeValueEq_iff.1 hkey
  exact .getForce

theorem int_accepts (h : int args e = .ok (s', t)) : s' = "INT" ∧ Accepts "INT" args e t := by
  obtain ⟨rfl, a, rfl, hres⟩ := typer1_eq_ok.1 h
  obtain ⟨ha, rfl⟩ := assert_then_eq_ok.1 hres
  obtain rfl := assertTNat_eq_ok.1 ha
  exact ⟨rfl, .int⟩

theorem bytesPack_accepts (h : bytesPack args e = .ok (s', t)) :
    s' = "PACK" ∧ Accepts "PACK" args e t := by
  obtain ⟨rfl, a, rfl, hres⟩ := typer1_eq_ok.1 h
  cases hres
  exact ⟨rfl, .pack⟩

theorem bytesUnpack_accepts (h : bytesUnpack args e = .ok (s', t)) :
    s' = "UNPACK" ∧ Accepts "UNPACK" args e t := by
  obtain ⟨rfl, a, rfl, hres⟩ := typer1Opt_eq_ok.1 h
  obtain ⟨_, ha, hres⟩ := bind_eq_ok.1 hres
  obtain rfl := assertTBytes_eq_ok.1 ha
  obtain rfl := traceOption_eq_ok.1 hres
  exact ⟨rfl, .unpack⟩

theorem cryptoHash_accepts (h : cryptoHash args e = .ok (s', t)) :
    s' = "HASH" ∧ Accepts "HASH" args e t := by
  obtain ⟨rfl, a, rfl, hres⟩ := typer1_eq_ok.1 h
  obtain ⟨ha, rfl⟩ := assert_then_eq_ok.1 hres
  obtain rfl := assertTBytes_eq_ok.1 ha
  exact ⟨rfl, .hash⟩

/-- A constant without arguments has its own type. -/
theorem constant_eq_ok {cst : TypeValue} (h : constant s cst args e = .ok (s', t)) :
    s' = s ∧ args = [] ∧ t = cst := by
  obtain ⟨rfl, rfl, hres⟩ := typer0_eq_ok.1 h
  cases hres
  exact ⟨rfl, rfl, rfl⟩

theorem transaction_accepts (h : transaction args e = .ok (s', t)) :
    s' = "CALL" ∧ Accepts "CALL" args e t := by
  obtain ⟨rfl, a, b, c, rfl, hres⟩ := typer3_eq_ok.1 h
  refine ⟨rfl, ?_⟩
  obtain ⟨_, hamount, hres⟩ := bind_eq_ok.1 hres
  obtain ⟨param, hcontract, hres⟩ := bind_eq_ok.1 hres
  obtain ⟨hparam, rfl⟩ := assert_then_eq_ok.1 hres
  obtain rfl := assertTTez_eq_ok.1 hamount
  obtain rfl := getTContract_eq_ok.1 hcontract
  obtain rfl := assertTypeValueEq_iff.1 hparam
  exact .call

theorem getContract_accepts (h : getContract args e = .ok (s', t)) :
    s' = "CONTRACT" ∧ Accepts "CONTRACT" args e t := by
  obtain ⟨rfl, a, rfl, hres⟩ := typer1Opt_eq_ok.1 h
  obtain ⟨tv, htv, hres⟩ := bind_eq_ok.1 hres
  obtain ⟨tv', htv', hres⟩ := bind_eq_ok.1 hres
  obtain rfl := traceOption_eq_ok.1 htv
  obtain rfl := getTContract_eq_ok.1 (traceStrong_eq_ok.1 htv')
  cases hres
  exact ⟨rfl, .contract⟩

theorem abs_accepts (h : abs args e = .ok (s', t)) : s' = "ABS" ∧ Accepts "ABS" args e t := by
  obtain ⟨rfl, a, rfl, hres⟩ := typer1_eq_ok.1 h
  obtain ⟨ha, rfl⟩ := assert_then_eq_ok.1 hres
  obtain rfl := assertTInt_eq_ok.1 ha
  exact ⟨rfl, .abs⟩

/-- The rules say what the table accepts. -/
theorem accepts_of_typeConstant (h : typeConstant s args e = .ok (s', t)) :
    s' = s ∧ Accepts s args e t := by
  obtain ⟨f, hf, h⟩ := bind_eq_ok.1 h
  rw [traceOption_eq_ok] at hf
  unfold constantTypers at hf
  split at hf
  all_goals cases hf
  · exact add_accepts h
  · exact times_accepts h
  · exact div_accepts h
  · exact mod_accepts h
  · exact sub_accepts h
  · exact none_accepts h
  · exact some_accepts h
  iterate 6 exact comparator_accepts (by simp) h
  iterate 2 exact booleanOperator2_accepts (by simp) h
  · exact mapRemove_accepts h
  · exact mapUpdate_accepts h
  · exact int_accepts h
  · exact size_accepts h
  · exact getForce_accepts h
  · exact bytesPack_accepts h
  · exact bytesUnpack_accepts h
  · exact cryptoHash_accepts h
  · obtain ⟨rfl, rfl, rfl⟩ := constant_eq_ok h
    exact ⟨rfl, .sender⟩
  · obtain ⟨rfl, rfl, rfl⟩ := constant_eq_ok h
    exact ⟨rfl, .source⟩
  · obtain ⟨rfl, rfl, rfl⟩ := constant_eq_ok h
    exact ⟨rfl, .unit⟩
  · obtain ⟨rfl, rfl, rfl⟩ := constant_eq_ok h
    exact ⟨rfl, .amount⟩
  · exact transaction_accepts h
  · exact getContract_accepts h
  · exact abs_accepts h

/-- The rows that are compared with a predicate on its own are read back from their names. -/
theorem Accepts.of_mapRemove (h : Accepts s args e t) (hs : s = "MAP_REMOVE") :
    ∃ k v, args = [k, tMap k v] ∧ t = tMap k v := by
  cases h with
  | mapRemove => exact ⟨_, _, rfl, rfl⟩
  | compare hmem | logical hmem =>
    rw [hs] at hmem
    simp at hmem
  | _ => exact absurd hs (by decide)

theorem Accepts.of_mapUpdate (h : Accepts s args e t) (hs : s = "MAP_UPDATE") :
    ∃ k v, args = [k, v, tMap k v] ∧ t = tMap k v := by
  cases h with
  | mapUpdate => exact ⟨_, _, rfl, rfl⟩
  | compare hmem | logical hmem =>
    rw [hs] at hmem
    simp at hmem
  | _ => exact absurd hs (by decide)

theorem Accepts.of_some (h : Accepts s args e t) (hs : s = "SOME") :
    ∃ a, args = [a] ∧ t = tOption a := by
  cases h with
  | some => exact ⟨_, rfl, rfl⟩
  | compare hmem | logical hmem =>
    rw [hs] at hmem
    simp at hmem
  | _ => exact absurd hs (by decide)

theorem Accepts.of_none (h : Accepts s args e t) (hs : s = "NONE") : e = .some t := by
  cases h with
  | none => rfl
  | compare hmem | logical hmem =>
    rw [hs] at hmem
    simp at hmem
  | _ => exact absurd hs (by decide)

theorem Accepts.of_contract (h : Accepts s args e t) (hs : s = "CONTRACT") :
    ∃ a p, args = [a] ∧ e = .some (tContract p) ∧ t = tContract p := by
  cases h with
  | contract => exact ⟨_, _, rfl, rfl, rfl⟩
  | compare hmem | logical hmem =>
    rw [hs] at hmem
    simp at hmem
  | _ => exact absurd hs (by decide)

end Rules

end Ligo.Operators.Typer
