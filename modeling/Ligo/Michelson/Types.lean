import Ligo.Michelson.Syntax

/-!
# Michelson types

The types of the protocol as an inductive type, and the reader of their Micheline
form. `parse_ty` restricts where `operation` may occur; `parseTy` is the plain
reading `readTy` followed by that check (`Ty.allowed`), since the interpreter
reads the types of code that has been checked already. Reading a type does not look
at its size (`Ty.size`); the checker does.
-/

namespace Michelson

/-- The comparable types, which may be the keys of a map. -/
inductive ComparableTy where
  | bool | int | nat | mutez | string | bytes | address
  deriving DecidableEq, Repr

/-- The types of the protocol. -/
inductive Ty where
  | unit
  | comparable (c : ComparableTy)
  | operation
  | contract (t : Ty)
  | pair (a b : Ty)
  | or (a b : Ty)
  | lambda (a b : Ty)
  | option (t : Ty)
  | list (t : Ty)
  | map (k : ComparableTy) (v : Ty)
  deriving DecidableEq, Repr

/-- The number of nodes of a type (`type_size`). -/
def Ty.size : Ty → ℕ
  | .unit | .comparable _ | .operation => 1
  | .pair a b | .or a b | .lambda a b => 1 + a.size + b.size
  | .contract t | .option t | .list t => 1 + t.size
  -- a comparable type is one node
  | .map _ v => 1 + 1 + v.size


/-- Read a comparable type. -/
def parseComparableTy : Node → Option ComparableTy
  | .prim .tInt [] _ => some .int
  | .prim .tNat [] _ => some .nat
  | .prim .tString [] _ => some .string
  | .prim .tBytes [] _ => some .bytes
  | .prim .tMutez [] _ => some .mutez
  | .prim .tBool [] _ => some .bool
  | .prim .tAddress [] _ => some .address
  | _ => none

/-- Read a type, wherever operations stand in it. -/
def readTy : Node → Option Ty
  | .prim .tUnit [] _ => some .unit
  | .prim .tInt [] _ => some (.comparable .int)
  | .prim .tNat [] _ => some (.comparable .nat)
  | .prim .tString [] _ => some (.comparable .string)
  | .prim .tBytes [] _ => some (.comparable .bytes)
  | .prim .tMutez [] _ => some (.comparable .mutez)
  | .prim .tBool [] _ => some (.comparable .bool)
  | .prim .tAddress [] _ => some (.comparable .address)
  | .prim .tOperation [] _ => some .operation
  | .prim .tContract [t] _ => do return .contract (← readTy t)
  | .prim .tPair [a, b] _ => do return .pair (← readTy a) (← readTy b)
  | .prim .tOr [a, b] _ => do return .or (← readTy a) (← readTy b)
  | .prim .tLambda [a, b] _ => do return .lambda (← readTy a) (← readTy b)
  | .prim .tOption [t] _ => do return .option (← readTy t)
  | .prim .tList [t] _ => do return .list (← readTy t)
  | .prim .tMap [k, v] _ => do return .map (← parseComparableTy k) (← readTy v)
  | _ => none

/-- Operations stand only where `parse_ty` lets them: anywhere if
`allowOperation`, and below a function arrow in any case, but never in the
parameter of a contract. -/
def Ty.allowed (allowOperation : Bool) : Ty → Bool
  | .unit | .comparable _ => true
  | .operation => allowOperation
  | .contract t => t.allowed false
  | .pair a b | .or a b => a.allowed allowOperation && b.allowed allowOperation
  | .lambda a b => a.allowed true && b.allowed true
  | .option t | .list t | .map _ t => t.allowed allowOperation

/-- `parse_ty`. -/
def parseTy (allowOperation : Bool) (n : Node) : Option Ty := do
  let t ← readTy n
  if t.allowed allowOperation then some t else none

theorem parseTy_eq_some {allowOperation : Bool} {n : Node} {t : Ty} :
    parseTy allowOperation n = some t ↔
      readTy n = some t ∧ t.allowed allowOperation = true := by
  simp only [parseTy, Option.bind_eq_bind, Option.bind_eq_some_iff]
  constructor
  · rintro ⟨t', ht', h⟩
    split at h
    · cases h
      exact ⟨ht', by assumption⟩
    · cases h
  · rintro ⟨ht, ha⟩
    exact ⟨t, ht, by rw [if_pos ha]⟩

/-- What is allowed where operations are not is allowed everywhere. -/
theorem Ty.allowed_of_false {t : Ty} {allowOperation : Bool} (h : t.allowed false = true) :
    t.allowed allowOperation = true := by
  induction t with
  | operation => cases h
  | pair a b iha ihb | or a b iha ihb =>
    simp only [Ty.allowed, Bool.and_eq_true] at h ⊢
    exact ⟨iha h.1, ihb h.2⟩
  | option t ih | list t ih | map _ t ih => exact ih h
  | _ => first | rfl | exact h

end Michelson
