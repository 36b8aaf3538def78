import Ligo.MiniC.Semantics
import Ligo.Michelson.ValueTyping

/-!
# Paths into nested pairs

`component` reads the part of a value at a path of steps and `updatePath` replaces it. A
part that is written is read back (`component_updatePath`), and the parts at paths that
lead elsewhere (`Apart`) stay what they were (`component_updatePath_of_apart`). A value of
a type has a part at every path that the type has (`component_of_hasTy`).
-/

namespace Ligo.MiniC

open Michelson
open Fuel (bind_eq_ok map_eq_ok)

/-! ### Paths apart -/

/-- Neither of the lists begins the other. -/
def Apart {α : Type} (p q : List α) : Prop := ¬ p <+: q ∧ ¬ q <+: p

section Apart

variable {α β : Type} {p q : List α}

theorem Apart.symm (h : Apart p q) : Apart q p := ⟨h.2, h.1⟩

theorem not_apart_nil : ¬ Apart [] q := fun h => h.1 List.nil_prefix

theorem apart_cons {a b : α} : Apart (a :: p) (b :: q) ↔ a ≠ b ∨ Apart p q := by
  by_cases hab : a = b
  · subst hab
    simp [Apart]
  · simp [Apart, hab, Ne.symm hab]

theorem apart_map {f : α → β} (hf : Function.Injective f) :
    Apart (p.map f) (q.map f) ↔ Apart p q := by
  rw [Apart, Apart, List.prefix_map_iff_of_injective hf, List.prefix_map_iff_of_injective hf]

/-- What follows a common beginning decides. -/
theorem apart_append_left (r : List α) : Apart (r ++ p) (r ++ q) ↔ Apart p q := by
  rw [Apart, Apart, List.prefix_append_right_inj, List.prefix_append_right_inj]

/-- Paths that part stay apart when they go on. -/
theorem Apart.append (h : Apart p q) (r s : List α) : Apart (p ++ r) (q ++ s) := by
  induction p generalizing q with
  | nil => exact (not_apart_nil h).elim
  | cons a p ih =>
    cases q with
    | nil => exact (not_apart_nil h.symm).elim
    | cons b q =>
      rw [apart_cons] at h
      exact apart_cons.2 (h.imp_right ih)

/-- Different lists of one length are apart. -/
theorem apart_of_length (hlen : p.length = q.length) (hne : p ≠ q) : Apart p q :=
  ⟨fun h => hne (h.eq_of_length hlen), fun h => hne (h.eq_of_length hlen.symm).symm⟩

end Apart

/-! ### Parts of values -/

section Component

variable {F : Type}

/-- The part of a value at a path. -/
def component : List Step → Michelson.Value F → Option (Michelson.Value F)
  | [], v => some v
  | .left :: lrs, .pair a _ => component lrs a
  | .right :: lrs, .pair _ b => component lrs b
  | _, _ => none

variable {w v v' : Michelson.Value F} {lrs : List Step}

/-- A written part is read back. -/
theorem component_updatePath (h : updatePath w lrs v = .ok v') : component lrs v' = some w := by
  induction lrs generalizing v v' with
  | nil =>
    cases h
    rfl
  | cons step lrs ih =>
    cases step <;> cases v
    case left.pair a b =>
      obtain ⟨a', ha', rfl⟩ := map_eq_ok.1 h
      exact ih ha'
    case right.pair a b =>
      obtain ⟨b', hb', rfl⟩ := map_eq_ok.1 h
      exact ih hb'
    all_goals cases h

/-- A part that exists can be written. -/
theorem updatePath_of_component {u : Michelson.Value F} (h : component lrs v = some u) :
    ∃ v', updatePath w lrs v = .ok v' := by
  induction lrs generalizing v with
  | nil => exact ⟨w, rfl⟩
  | cons step lrs ih =>
    cases step <;> cases v
    case left.pair a b =>
      obtain ⟨a', ha'⟩ := ih h
      exact ⟨.pair a' b, bind_eq_ok.2 ⟨a', ha', rfl⟩⟩
    case right.pair a b =>
      obtain ⟨b', hb'⟩ := ih h
      exact ⟨.pair a b', bind_eq_ok.2 ⟨b', hb', rfl⟩⟩
    all_goals cases h

/-- The parts that lie elsewhere are not touched. -/
theorem component_updatePath_of_apart {q : List Step} (hq : Apart q lrs)
    (h : updatePath w lrs v = .ok v') : component q v' = component q v := by
  induction lrs generalizing v v' q with
  | nil => exact (not_apart_nil hq.symm).elim
  | cons step lrs ih =>
    cases q with
    | nil => exact (not_apart_nil hq).elim
    | cons step' q =>
      rw [apart_cons] at hq
      -- only a pair has components
      cases step <;> cases v
      case left.pair a b =>
        obtain ⟨a', ha', rfl⟩ := map_eq_ok.1 h
        cases step' with
        | left =>
          -- the two paths begin with the same step, so they part later
          have hq' : Apart q lrs := hq.resolve_left fun hne => hne rfl
          have hrest : component q a' = component q a := ih hq' ha'
          exact hrest
        | right => rfl
      case right.pair a b =>
        obtain ⟨b', hb', rfl⟩ := map_eq_ok.1 h
        cases step' with
        | left => rfl
        | right =>
          have hq' : Apart q lrs := hq.resolve_left fun hne => hne rfl
          have hrest : component q b' = component q b := ih hq' hb'
          exact hrest
      all_goals cases h

/-- Writing what is there changes nothing. -/
theorem updatePath_component (h : component lrs v = some w) : updatePath w lrs v = .ok v := by
  induction lrs generalizing v with
  | nil =>
    cases h
    rfl
  | cons step lrs ih =>
    cases step <;> cases v
    case left.pair a b => exact bind_eq_ok.2 ⟨a, ih h, rfl⟩
    case right.pair a b => exact bind_eq_ok.2 ⟨b, ih h, rfl⟩
    all_goals cases h

end Component

/-! ### Parts of types -/

/-- The type of the part at a path. -/
def tyAt : List Step → Ty → Option Ty
  | [], t => some t
  | .left :: lrs, .pair a _ => tyAt lrs a
  | .right :: lrs, .pair _ b => tyAt lrs b
  | _, _ => none

/-- A value of a type has the parts of the type. -/
theorem component_of_hasTy {ctx : Context} {F : Type} {fn : F → Ty → Ty → Prop} {lrs : List Step}
    {t u : Ty} {v : Michelson.Value F} (hv : HasTy ctx fn t v) (h : tyAt lrs t = some u) :
    ∃ w, component lrs v = some w ∧ HasTy ctx fn u w := by
  induction lrs generalizing t v with
  | nil =>
    cases h
    exact ⟨v, rfl, hv⟩
  | cons step lrs ih =>
    cases step <;> cases t
    case left.pair s t =>
      obtain ⟨a, b, rfl, ha, -⟩ := hv
      exact ih ha h
    case right.pair s t =>
      obtain ⟨a, b, rfl, -, hb⟩ := hv
      exact ih hb h
    all_goals cases h

end Ligo.MiniC
