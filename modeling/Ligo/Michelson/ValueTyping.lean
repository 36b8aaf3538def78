import Ligo.Michelson.Interpreter

/-!
# Values of a type

`HasTy fn t v` says that the value `v` has the type `t`, where `fn` says which functions
have a function type.
-/

namespace Michelson

variable (ctx : Context) {F : Type} (fn : F → Ty → Ty → Prop)

def HasTy : Ty → Value F → Prop
  | .unit, v => v = .unit
  | .comparable c, v => ∃ a : Atom, v = .atom a ∧ a.ty = c
  | .pair s t, v => ∃ a b, v = .pair a b ∧ HasTy s a ∧ HasTy t b
  | .or s t, v => (∃ a, v = .left a ∧ HasTy s a) ∨ ∃ b, v = .right b ∧ HasTy t b
  | .option t, v => v = .none ∨ ∃ a, v = .some a ∧ HasTy t a
  | .list t, v => ∃ vs, v = .list vs ∧ ∀ w ∈ vs, HasTy t w
  | .map k t, v => ∃ entries, v = .map entries ∧ SortedMap.Sorted entries ∧
      ∀ x ∈ entries, x.1.ty = k ∧ HasTy t x.2
  | .lambda s t, v => ∃ f, v = .lambda f ∧ fn f s t
  | .contract t, v => ∃ a, v = .contract t a ∧ ctx.contractTy a = some t
  | .operation, v => ∃ d m p, v = .operation d m p

variable {ctx fn}

theorem hasTy_pair {s t : Ty} {a b : Value F} :
    HasTy ctx fn (.pair s t) (.pair a b) ↔ HasTy ctx fn s a ∧ HasTy ctx fn t b := by
  constructor
  · rintro ⟨_, _, h, ha, hb⟩
    cases h
    exact ⟨ha, hb⟩
  · rintro ⟨ha, hb⟩
    exact ⟨a, b, rfl, ha, hb⟩

end Michelson
