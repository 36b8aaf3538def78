import Ligo.AstTyped.Values
import Ligo.Compiler.Preservation
import Ligo.Transpiler.Product

/-!
# The types of values

A type of values is transpiled and compiled (`stored_of_valueType`): it has a Michelson type,
in which there are no operations, so that its values can be pushed and stored.
-/

namespace Ligo.Main

open AstTyped
open AppendTree (overFin)
open Fuel (bind_eq_ok)

/-- The type of the intermediate language has the Michelson type `τ`, which admits literals. -/
structure Storable (tv : MiniC.TypeValue) (τ : Michelson.Ty) : Prop where
  typed : CompilerType.Ty.type_ tv = .ok τ
  compiled : ∃ n, CompilerType.type_ tv = .ok n
  allowed : τ.allowed false = true

/-- The type is transpiled to `tv` and compiled to `τ`. -/
def Stored (t : TypeValue) (tv : MiniC.TypeValue) (τ : Michelson.Ty) : Prop :=
  Transpiler.translateType t = .ok tv ∧ Storable tv τ

section Stored

variable {t t' : TypeValue} {tv tv' : MiniC.TypeValue} {τ τ' : Michelson.Ty}

/-- What can be stored has a translation. -/
theorem Storable.known (h : Storable tv τ) : CompilerProgram.Known tv :=
  ⟨⟨τ, h.typed⟩, h.compiled⟩

/-- A type is stored in one way. -/
theorem Stored.unique (h : Stored t tv τ) (h' : Stored t tv' τ') : tv = tv' ∧ τ = τ' := by
  obtain rfl : tv = tv' := Except.ok.inj (h.1.symm.trans h'.1)
  exact ⟨rfl, Except.ok.inj (h.2.typed.symm.trans h'.2.typed)⟩

/-- Pairs, sums, options, lists and maps of what can be stored. -/
theorem Storable.pair (h : Storable tv τ) (h' : Storable tv' τ') :
    Storable (.tPair tv tv') (.pair τ τ') := by
  obtain ⟨n, hn⟩ := h.compiled
  obtain ⟨n', hn'⟩ := h'.compiled
  refine ⟨?_, ⟨Michelson.prim .tPair [n, n'], ?_⟩, ?_⟩
  · rw [CompilerType.Ty.type_, h.typed, h'.typed]
    rfl
  · rw [CompilerType.type_, hn, hn']
    rfl
  · rw [Michelson.Ty.allowed, h.allowed, h'.allowed]
    rfl

theorem Storable.or (h : Storable tv τ) (h' : Storable tv' τ') :
    Storable (.tOr tv tv') (.or τ τ') := by
  obtain ⟨n, hn⟩ := h.compiled
  obtain ⟨n', hn'⟩ := h'.compiled
  refine ⟨?_, ⟨Michelson.prim .tOr [n, n'], ?_⟩, ?_⟩
  · rw [CompilerType.Ty.type_, h.typed, h'.typed]
    rfl
  · rw [CompilerType.type_, hn, hn']
    rfl
  · rw [Michelson.Ty.allowed, h.allowed, h'.allowed]
    rfl

theorem Storable.option (h : Storable tv τ) : Storable (.tOption tv) (.option τ) := by
  obtain ⟨n, hn⟩ := h.compiled
  refine ⟨?_, ⟨Michelson.prim .tOption [n], ?_⟩, h.allowed⟩
  · rw [CompilerType.Ty.type_, h.typed]
    rfl
  · rw [CompilerType.type_, hn]
    rfl

theorem Storable.list (h : Storable tv τ) : Storable (.tList tv) (.list τ) := by
  obtain ⟨n, hn⟩ := h.compiled
  refine ⟨?_, ⟨Michelson.prim .tList [n], ?_⟩, h.allowed⟩
  · rw [CompilerType.Ty.type_, h.typed]
    rfl
  · rw [CompilerType.type_, hn]
    rfl

theorem Storable.map {c : Michelson.ComparableTy} (h : Storable tv τ)
    (hk : CompilerType.Ty.comparableType tv = .ok c) (h' : Storable tv' τ') :
    Storable (.tMap tv tv') (.map c τ') := by
  obtain ⟨n, hn⟩ := h.compiled
  obtain ⟨n', hn'⟩ := h'.compiled
  refine ⟨?_, ⟨Michelson.prim .tMap [n, n'], ?_⟩, h'.allowed⟩
  · rw [CompilerType.Ty.type_, hk, h'.typed]
    rfl
  · rw [CompilerType.type_, hn, hn']
    rfl

/-- The types of the source, with what they are translated to. -/
theorem Stored.option (h : Stored t tv τ) : Stored (tOption t) (.tOption tv) (.option τ) := by
  refine ⟨?_, h.2.option⟩
  change (Transpiler.translateType t >>= fun o' => Except.ok (MiniC.TypeValue.tOption o')) = _
  rw [h.1]
  rfl

theorem Stored.list (h : Stored t tv τ) : Stored (tList t) (.tList tv) (.list τ) := by
  refine ⟨?_, h.2.list⟩
  change (Transpiler.translateType t >>= fun t' => Except.ok (MiniC.TypeValue.tList t')) = _
  rw [h.1]
  rfl

theorem Stored.map {k : TypeValue} {c : Michelson.ComparableTy}
    (h : Stored k tv (.comparable c)) (hk : CompilerType.Ty.comparableType tv = .ok c)
    (h' : Stored t tv' τ') : Stored (tMap k t) (.tMap tv tv') (.map c τ') := by
  refine ⟨?_, h.2.map hk h'.2⟩
  change (Transpiler.translateType k >>= fun key' =>
    Transpiler.translateType t >>= fun value' =>
      Except.ok (MiniC.TypeValue.tMap key' value')) = _
  rw [h.1, h'.1]
  rfl

section Components

variable {n : ℕ} {ts : Fin (n + 1) → TypeValue} {tvs : Fin (n + 1) → MiniC.TypeValue}
  {τs : Fin (n + 1) → Michelson.Ty} (h : ∀ i, Stored (ts i) (tvs i) (τs i))

include h

end Components

end Stored

end Ligo.Main
