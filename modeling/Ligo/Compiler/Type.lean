import Ligo.MiniC.Environment
import Ligo.Michelson.Typecheck

/-!
# Compiling types

A type is compiled twice: to a typed Michelson type (`Ty.type_`), for the checks of
the generated code, and to Micheline (`type_`), for the code itself. Only the first
one rejects maps whose keys cannot be compared.

Closures are laid out by two functions as well: `Ty.environmentRepresentation` and
`environmentClosure` both nest the captured types to the right, but the second one
has no answer for the empty environment.
-/

namespace Ligo.CompilerType

open MiniC

namespace Ty

def notComparable (_name : String) : Result Michelson.ComparableTy :=
  simpleFail "not a comparable type"

def comparableTypeBase : TypeBase → Result Michelson.ComparableTy
  | .unit => notComparable "unit"
  | .bool => notComparable "bool"
  | .nat => .ok .nat
  | .tez => .ok .mutez
  | .int => .ok .int
  | .string => .ok .string
  | .address => .ok .address
  | .bytes => .ok .bytes
  | .operation => notComparable "operation"

def comparableType : TypeValue → Result Michelson.ComparableTy
  | .tBase b => comparableTypeBase b
  | .tDeepClosure .. => notComparable "deep closure"
  | .tFunction .. => notComparable "function"
  | .tOr .. => notComparable "or"
  | .tPair .. => notComparable "pair"
  | .tMap .. => notComparable "map"
  | .tList _ => notComparable "list"
  | .tOption _ => notComparable "option"
  | .tContract _ => notComparable "contract"

def baseType : TypeBase → Michelson.Ty
  | .unit => .unit
  | .bool => .comparable .bool
  | .int => .comparable .int
  | .nat => .comparable .nat
  | .tez => .comparable .mutez
  | .string => .comparable .string
  | .address => .comparable .address
  | .bytes => .comparable .bytes
  | .operation => .operation

mutual

def type_ : TypeValue → Result Michelson.Ty
  | .tBase b => .ok (baseType b)
  | .tPair t t' => do return .pair (← type_ t) (← type_ t')
  | .tOr t t' => do return .or (← type_ t) (← type_ t')
  | .tFunction arg ret => do return .lambda (← type_ arg) (← type_ ret)
  | .tDeepClosure c arg ret => do
    let capture ← environmentRepresentation c
    let arg ← type_ arg
    let ret ← type_ ret
    return .pair (.lambda (.pair arg capture) ret) capture
  | .tMap k v => do return .map (← comparableType k) (← type_ v)
  | .tList t => do return .list (← type_ t)
  | .tOption t => do return .option (← type_ t)
  | .tContract t => do return .contract (← type_ t)

/-- The type of the captured values, nested to the right. -/
def environmentRepresentation : Environment → Result Michelson.Ty
  | [] => .ok .unit
  | [(_, a)] => type_ a
  | (_, a) :: b => do return .pair (← type_ a) (← environmentRepresentation b)

end

/-- The types of the stack that holds an environment. -/
def environment (env : Environment) : Result Michelson.StackTy :=
  env.mapM fun x => type_ x.2

end Ty

def baseType : TypeBase → Michelson.Node
  | .unit => Michelson.prim .tUnit []
  | .bool => Michelson.prim .tBool []
  | .int => Michelson.prim .tInt []
  | .nat => Michelson.prim .tNat []
  | .tez => Michelson.prim .tMutez []
  | .string => Michelson.prim .tString []
  | .address => Michelson.prim .tAddress []
  | .bytes => Michelson.prim .tBytes []
  | .operation => Michelson.prim .tOperation []

mutual

def type_ : TypeValue → Result Michelson.Node
  | .tBase b => .ok (baseType b)
  | .tPair t t' => do return Michelson.prim .tPair [← type_ t, ← type_ t']
  | .tOr t t' => do return Michelson.prim .tOr [← type_ t, ← type_ t']
  | .tMap k v => do return Michelson.prim .tMap [← type_ k, ← type_ v]
  | .tList t => do return Michelson.prim .tList [← type_ t]
  | .tOption o => do return Michelson.prim .tOption [← type_ o]
  | .tContract o => do return Michelson.prim .tContract [← type_ o]
  | .tFunction arg ret => do return Michelson.prim .tLambda [← type_ arg, ← type_ ret]
  | .tDeepClosure c arg ret => do
    let capture ← environmentClosure c
    let arg ← type_ arg
    let ret ← type_ ret
    return Michelson.tPair (Michelson.tLambda (Michelson.tPair arg capture) ret) capture

def environmentClosure : Environment → Result Michelson.Node
  | [] => simpleFail "Type of empty env"
  | [(_, a)] => type_ a
  | (_, a) :: b => do return Michelson.tPair (← type_ a) (← environmentClosure b)

end

/-! ### The two translations agree -/

open Fuel (bind_eq_ok map_eq_ok map₂_eq_ok)

/-- The type of a key. -/
theorem type_of_comparableType {τ : TypeValue} {k : Michelson.ComparableTy}
    (h : Ty.comparableType τ = .ok k) : Ty.type_ τ = .ok (.comparable k) := by
  cases τ with
  | tBase b => cases b <;> cases h <;> rfl
  | _ => cases h

theorem parseComparableTy_type_ {τ : TypeValue} {k : Michelson.ComparableTy}
    {n : Michelson.Node} (hk : Ty.comparableType τ = .ok k) (hn : type_ τ = .ok n) :
    Michelson.parseComparableTy n = some k := by
  cases τ with
  | tBase b =>
    cases b <;> cases hn <;> cases hk <;> rfl
  | _ => cases hk

theorem readTy_environmentClosure {env : Environment}
    (h : ∀ x ∈ env, ∀ t n, Ty.type_ x.2 = .ok t → type_ x.2 = .ok n →
      Michelson.readTy n = some t)
    {t : Michelson.Ty} {n : Michelson.Node} (ht : Ty.environmentRepresentation env = .ok t)
    (hn : environmentClosure env = .ok n) : Michelson.readTy n = some t := by
  induction env generalizing t n with
  | nil => cases hn
  | cons a env ih =>
    have ha := h a (by simp)
    have henv := fun x hx => h x (List.mem_cons_of_mem a hx)
    cases env with
    | nil => exact ha _ _ ht hn
    -- the head is paired with the closure of the rest
    | cons b env =>
      obtain ⟨t₁, t₂, ht₁, ht₂, rfl⟩ := map₂_eq_ok.1 ht
      obtain ⟨n₁, n₂, hn₁, hn₂, rfl⟩ := map₂_eq_ok.1 hn
      simp [Michelson.tPair, Michelson.prim, Michelson.readTy, ha _ _ ht₁ hn₁,
        ih henv ht₂ hn₂]

/-- The Micheline form of a type is read back as the type. -/
theorem readTy_type_ {τ : TypeValue} {t : Michelson.Ty} {n : Michelson.Node}
    (ht : Ty.type_ τ = .ok t) (hn : type_ τ = .ok n) : Michelson.readTy n = some t := by
  induction τ using TypeValue.ind generalizing t n with
  | base b =>
    cases ht
    cases hn
    cases b <;> rfl
  | pair a b iha ihb | or a b iha ihb | function a b iha ihb =>
    obtain ⟨t₁, t₂, ht₁, ht₂, rfl⟩ := map₂_eq_ok.1 ht
    obtain ⟨n₁, n₂, hn₁, hn₂, rfl⟩ := map₂_eq_ok.1 hn
    simp [Michelson.prim, Michelson.readTy, iha ht₁ hn₁, ihb ht₂ hn₂]
  | closure env a b ihenv iha ihb =>
    obtain ⟨t₁, ht₁, ht⟩ := bind_eq_ok.1 ht
    obtain ⟨t₂, t₃, ht₂, ht₃, rfl⟩ := map₂_eq_ok.1 ht
    obtain ⟨n₁, hn₁, hn⟩ := bind_eq_ok.1 hn
    obtain ⟨n₂, n₃, hn₂, hn₃, rfl⟩ := map₂_eq_ok.1 hn
    -- a closure is the pair of its lambda and its environment
    have henv := readTy_environmentClosure (fun x hx t n => ihenv x hx) ht₁ hn₁
    simp [Michelson.tPair, Michelson.tLambda, Michelson.prim, Michelson.readTy,
      iha ht₂ hn₂, ihb ht₃ hn₃, henv]
  | map k v _ ihv =>
    obtain ⟨t₁, t₂, ht₁, ht₂, rfl⟩ := map₂_eq_ok.1 ht
    obtain ⟨n₁, n₂, hn₁, hn₂, rfl⟩ := map₂_eq_ok.1 hn
    -- the key is read as a comparable type
    simp [Michelson.prim, Michelson.readTy, parseComparableTy_type_ ht₁ hn₁, ihv ht₂ hn₂]
  | list t ih | contract t ih | option t ih =>
    obtain ⟨t₁, ht₁, rfl⟩ := map_eq_ok.1 ht
    obtain ⟨n₁, hn₁, rfl⟩ := map_eq_ok.1 hn
    simp [Michelson.prim, Michelson.readTy, ih ht₁ hn₁]

end Ligo.CompilerType
