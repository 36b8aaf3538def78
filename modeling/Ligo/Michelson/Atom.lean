import Ligo.Michelson.Types
import Mathlib.Data.Prod.Lex
import Mathlib.Data.List.Lex
import Mathlib.Data.String.Basic
import Mathlib.Data.Int.Bitwise
import Mathlib.Algebra.Order.Ring.Int

/-!
# Comparable values

An `Atom` is a value of a comparable type. The interpreter compares two atoms of
one type, does arithmetic on them and uses them as the keys of maps. The order on
atoms (`LinearOrder Atom`) is `compare_comparable` on each type, and puts the
atoms of different types, which the interpreter never compares, one type after the
other.

An operation that the typing rules exclude is `Fault.stuck`; an amount that leaves
the range of an unsigned 63-bit integer is `Fault.overflow`.
-/

namespace Michelson

/-- Amounts are 64-bit integers that are never negative. -/
abbrev Mutez := Fin (2 ^ 63)

/-- A contract handle: an implicit account or an originated contract, and its
hash. Implicit accounts compare below originated contracts. -/
structure Address where
  originated : Bool
  hash : List UInt8
  deriving DecidableEq, Repr

/-- A value of a comparable type. -/
inductive Atom where
  | bool (b : Bool)
  | int (z : Int)
  | nat (n : Nat)
  | mutez (m : Mutez)
  | string (s : String)
  | bytes (b : List UInt8)
  | address (a : Address)
  deriving DecidableEq, Repr

/-- The type of an atom. -/
def Atom.ty : Atom → ComparableTy
  | .bool _ => .bool
  | .int _ => .int
  | .nat _ => .nat
  | .mutez _ => .mutez
  | .string _ => .string
  | .bytes _ => .bytes
  | .address _ => .address

/-- The lexicographic rank that orders the atoms. -/
def Atom.rank : Atom → ℕ ×ₗ ℤ ×ₗ String ×ₗ List ℕ
  | .bool b => toLex (0, toLex (b.toNat, toLex ("", [])))
  | .int z => toLex (1, toLex (z, toLex ("", [])))
  | .nat n => toLex (2, toLex (n, toLex ("", [])))
  | .mutez m => toLex (3, toLex (m.val, toLex ("", [])))
  | .string s => toLex (4, toLex (0, toLex (s, [])))
  | .bytes b => toLex (5, toLex (0, toLex ("", b.map UInt8.toNat)))
  | .address a => toLex (6, toLex (a.originated.toNat, toLex ("", a.hash.map UInt8.toNat)))

theorem Atom.rank_injective : Function.Injective Atom.rank := by
  have hbytes : Function.Injective (List.map UInt8.toNat) :=
    List.map_injective_iff.2 fun _ _ h => UInt8.toNat_inj.1 h
  have hbool : Function.Injective Bool.toNat := by
    intro a b h
    cases a <;> cases b <;> first | rfl | cases h
  intro a b h
  -- the first component tells the types apart
  cases a <;> cases b <;> simp [Atom.rank] at h
  case bool.bool => exact congrArg _ (hbool (by exact_mod_cast h))
  case int.int => exact congrArg _ h
  case nat.nat => exact congrArg _ h
  case mutez.mutez => exact congrArg _ (Fin.ext h)
  case string.string => exact congrArg _ h
  case bytes.bytes => exact congrArg _ (hbytes h)
  case address.address a b =>
    cases a
    cases b
    obtain rfl := hbool (by exact_mod_cast h.1)
    obtain rfl := hbytes h.2
    rfl

instance : LinearOrder Atom := LinearOrder.lift' Atom.rank Atom.rank_injective

/-- `Tez_repr.zero`. -/
def Mutez.zero : Mutez := 0

/-- What stops an instruction on atoms. -/
inductive Fault where
  | stuck
  | overflow
  deriving DecidableEq, Repr

namespace Atom

/-! ### Arithmetic -/

/-- An amount, if it is in range. -/
def ofMutez (n : Nat) : Except Fault Atom :=
  if h : n < 2 ^ 63 then .ok (.mutez ⟨n, h⟩) else .error .overflow

def add : Atom → Atom → Except Fault Atom
  | .int a, .int b => .ok (.int (a + b))
  | .int a, .nat b => .ok (.int (a + b))
  | .nat a, .int b => .ok (.int (a + b))
  | .nat a, .nat b => .ok (.nat (a + b))
  | .mutez a, .mutez b => ofMutez (a + b)
  | _, _ => .error .stuck

def sub : Atom → Atom → Except Fault Atom
  | .int a, .int b => .ok (.int (a - b))
  | .int a, .nat b => .ok (.int (a - b))
  | .nat a, .int b => .ok (.int (a - b))
  | .nat a, .nat b => .ok (.int (a - b))
  | .mutez a, .mutez b =>
    if b ≤ a then ofMutez (a.val - b.val) else .error .overflow
  | _, _ => .error .stuck

/-- The sum of two amounts. -/
def addMutez (a b : Mutez) : Except Fault Mutez :=
  if h : a.val + b.val < 2 ^ 63 then .ok ⟨a.val + b.val, h⟩ else .error .overflow

/-- The loop of `( *? )` over the bits of the factor. The power is doubled before the last
bit is looked at, so it may overflow where the product does not. -/
def mulStep (cur : Nat) (pow acc : Mutez) : Except Fault Mutez :=
  if cur = 0 then .ok acc
  else do
    let npow ← addMutez pow pow
    if cur % 2 = 1 then
      let nacc ← addMutez acc pow
      mulStep (cur / 2) npow nacc
    else mulStep (cur / 2) npow acc

/-- `Mul_teznat`: the factor has to fit a 64-bit integer by itself. -/
def mulMutez (a : Mutez) (b : Nat) : Except Fault Atom :=
  if b < 2 ^ 63 then Atom.mutez <$> mulStep b a Mutez.zero else .error .overflow

def mul : Atom → Atom → Except Fault Atom
  | .int a, .int b => .ok (.int (a * b))
  | .int a, .nat b => .ok (.int (a * b))
  | .nat a, .int b => .ok (.int (a * b))
  | .nat a, .nat b => .ok (.nat (a * b))
  | .mutez a, .nat b => mulMutez a b
  | .nat a, .mutez b => mulMutez b a
  | _, _ => .error .stuck

/-- Quotient and remainder of amounts, which are no larger than the dividend. -/
def edivMutez (a : Mutez) (b : Nat) : Mutez × Mutez :=
  (⟨a / b, (Nat.div_le_self ..).trans_lt a.isLt⟩,
    ⟨a % b, (Nat.mod_le ..).trans_lt a.isLt⟩)

/-- Euclidean division: the remainder is never negative, and there is no result
when the divisor is zero. -/
def ediv : Atom → Atom → Except Fault (Option (Atom × Atom))
  | .int a, .int b =>
    .ok (if b = 0 then none else some (.int (a / b), .nat (a % b).toNat))
  | .int a, .nat b =>
    .ok (if b = 0 then none else some (.int (a / b), .nat (a % b).toNat))
  | .nat a, .int b =>
    .ok (if b = 0 then none else some (.int (a / b), .nat (a % b).toNat))
  | .nat a, .nat b => .ok (if b = 0 then none else some (.nat (a / b), .nat (a % b)))
  | .mutez a, .nat b =>
    .ok (if b = 0 then none else some (.mutez (edivMutez a b).1, .mutez (edivMutez a b).2))
  | .mutez a, .mutez b =>
    .ok (if b.val = 0 then none
      else some (.nat (a.val / b.val), .mutez (edivMutez a b.val).2))
  | _, _ => .error .stuck

def neg : Atom → Except Fault Atom
  | .int a => .ok (.int (-a))
  | .nat a => .ok (.int (-a))
  | _ => .error .stuck

def abs : Atom → Except Fault Atom
  | .int a => .ok (.nat a.natAbs)
  | _ => .error .stuck

/-- `INT`. -/
def toInt : Atom → Except Fault Atom
  | .nat a => .ok (.int a)
  | _ => .error .stuck

def or : Atom → Atom → Except Fault Atom
  | .bool a, .bool b => .ok (.bool (a || b))
  | .nat a, .nat b => .ok (.nat (a ||| b))
  | _, _ => .error .stuck

def and : Atom → Atom → Except Fault Atom
  | .bool a, .bool b => .ok (.bool (a && b))
  | .nat a, .nat b => .ok (.nat (a &&& b))
  | .int a, .nat b => .ok (.nat (a.land b).toNat)
  | _, _ => .error .stuck

/-- The size of a string or a byte sequence. -/
def size : Atom → Except Fault Atom
  | .string s => .ok (.nat s.utf8ByteSize)
  | .bytes b => .ok (.nat b.length)
  | _ => .error .stuck

/-! ### Comparison -/

/-- `COMPARE`: minus one, zero or one. -/
def compare (a b : Atom) : Except Fault Atom :=
  if a.ty = b.ty then
    .ok (.int (if a < b then -1 else if a = b then 0 else 1))
  else .error .stuck

/-- `EQ`, `LT` and the like: test the result of a comparison. -/
def test (p : Int → Bool) : Atom → Except Fault Atom
  | .int z => .ok (.bool (p z))
  | _ => .error .stuck

end Atom

end Michelson
