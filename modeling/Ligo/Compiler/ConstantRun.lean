import Ligo.Compiler.Program
import Ligo.MiniC.Semantics
import Ligo.Michelson.Run

/-!
# Running the constants

The Michelson code of a constant computes what the reference semantics says it
denotes (`getPredicate_implements`): it takes the arguments from the top of the stack,
the first one on top, and leaves the value.
-/

namespace Ligo.CompilerProgram

open MiniC Michelson Operators
open Fuel (bind_eq_ok map_eq_ok)

variable (ctx : Michelson.Context)

/-- The code of a predicate computes a constant, whatever lies below its arguments. -/
@[simp] def Implements (ty : TypeValue) (name : String) : Predicate → Prop
  | .constant c => ∀ exec n s,
    step ctx exec n c s = push (constant0 ctx name) s
  | .unary c => ∀ exec n a s,
    step ctx exec n c (a :: s) = push (constant1 ctx ty name a) s
  | .binary c => ∀ exec n a b s,
    step ctx exec n c (a :: b :: s) = push (constant2 name a b) s
  | .ternary c => ∀ exec n a₁ a₂ a₃ s,
    step ctx exec n c (a₁ :: a₂ :: a₃ :: s) = push (constant3 name a₁ a₂ a₃) s

section

variable {ctx} {exec : Node → Michelson.Value Node → Outcome Node (Michelson.Value Node)}
  {n : ℕ}

/-- Unwrapping an option, with a message that can be pushed. -/
theorem step_iAssertSomeMsg {msg : String} (hmsg : printableAscii msg = true)
    (v : Michelson.Value Node) (s : Michelson.Stack) :
    step ctx exec n (iAssertSomeMsg (iPushString msg)) (v :: s) =
      push (assertSome msg v) s := by
  have hpush : ∀ s, step ctx exec n (iPushString msg) s = .ok (.string msg :: s) := by
    intro s
    rw [iPushString, step_iPush (τ := .comparable .string) rfl]
    simp only [readData, if_pos hmsg]
  cases v with
  | none =>
    rw [iAssertSomeMsg, step_iIfNone_none, step_seq, steps_cons, hpush]
    rfl
  | some w =>
    rw [iAssertSomeMsg, step_iIfNone_some]
    rfl
  | _ => rfl

/-- Two operations in sequence push the value of the composition. -/
theorem push_bind {r : Outcome Node (Michelson.Value Node)}
    {k : Michelson.Value Node → Outcome Node (Michelson.Value Node)}
    {code : List Node} {s : Michelson.Stack}
    (h : ∀ v, steps ctx exec n code (v :: s) = push (k v) s) :
    push r s >>= steps ctx exec n code = push (r >>= k) s := by
  cases r with
  | ok v => exact h v
  | error e => rfl

/-- A comparison and the test of its result. -/
theorem step_compare {p : Prim} {t : Int → Bool}
    (hp : ∀ v s, step ctx exec n (prim p []) (v :: s) = push (v.atom1 (Atom.test t)) s)
    (a b : Michelson.Value Node) (s : Michelson.Stack) :
    step ctx exec n (seq [prim .iCompare [], prim p []]) (a :: b :: s) =
      push (compareWith t a b) s :=
  push_bind fun v => (steps_singleton ..).trans (hp v s)

/-- A division and the choice of one of its results. -/
theorem step_ediv {msg : String} (hmsg : printableAscii msg = true) {i : Node}
    {k : Michelson.Value Node → Outcome Node (Michelson.Value Node)}
    (hi : ∀ v s, step ctx exec n i (v :: s) = push (k v) s)
    (a b : Michelson.Value Node) (s : Michelson.Stack) :
    step ctx exec n (seq [prim .iEdiv [], iAssertSomeMsg (iPushString msg), i])
      (a :: b :: s) = push (a.ediv b >>= assertSome msg >>= k) s := by
  rw [bind_assoc]
  refine push_bind fun v => ?_
  rw [steps_cons, step_iAssertSomeMsg hmsg]
  exact push_bind fun w => (steps_singleton ..).trans (hi w s)

variable (ctx) in
theorem predicates_implements {ty : TypeValue} {name : String} {p : Predicate}
    (h : predicates name = some p) : Implements ctx ty name p := by
  unfold predicates at h
  split at h <;> cases h
  all_goals simp only [Implements, constant0, constant1, constant2, constant3]
  all_goals intros
  -- what is left are the constants whose code is a sequence
  all_goals try rfl
  · exact step_ediv (by decide) (fun _ _ => rfl) ..
  · exact step_ediv (by decide) (fun _ _ => rfl) ..
  · exact step_compare (fun _ _ => rfl) ..
  · exact step_compare (fun _ _ => rfl) ..
  · exact step_compare (fun _ _ => rfl) ..
  · exact step_compare (fun _ _ => rfl) ..
  · exact step_compare (fun _ _ => rfl) ..
  · exact step_compare (fun _ _ => rfl) ..
  · exact push_bind fun v => (steps_singleton ..).trans (step_iAssertSomeMsg (by decide) v _)
  · rename_i a b s
    rcases a with _ | ⟨⟨c⟩ | _⟩
    case atom.bool =>
      rw [step_iIf]
      cases c <;> rfl
    all_goals rfl
  · rename_i a₁ a₂ a₃ s
    rw [step_seq, steps_cons, step_dip]
    exact steps_singleton ..

/-- The code of every constant computes the constant. -/
theorem getPredicate_implements {ty : TypeValue} {t : Ty} (hty : CompilerType.Ty.type_ ty = .ok t)
    {name : String} {lst : List Expression} {p : Predicate}
    (h : getPredicate name ty lst = .ok p) : Implements ctx ty name p := by
  unfold getPredicate at h
  split at h
  · rename_i hp
    cases h
    exact predicates_implements ctx hp
  · split at h
    · -- MAP_REMOVE
      obtain ⟨v, -, h⟩ := bind_eq_ok.1 h
      obtain ⟨vTy, -, h⟩ := bind_eq_ok.1 h
      cases h
      simp only [Implements, constant2]
      intro exec n a b s
      rw [step_seq, steps_cons, step_dip, step_iNone]
      exact steps_singleton ..
    · -- LEFT
      obtain ⟨r, -, h⟩ := bind_eq_ok.1 h
      obtain ⟨rTy, -, h⟩ := bind_eq_ok.1 h
      cases h
      simp only [Implements, constant1]
      exact fun _ _ _ _ => rfl
    · -- RIGHT
      obtain ⟨l, -, h⟩ := bind_eq_ok.1 h
      obtain ⟨lTy, -, h⟩ := bind_eq_ok.1 h
      cases h
      simp only [Implements, constant1]
      exact fun _ _ _ _ => rfl
    · -- CONTRACT
      obtain ⟨r, hr, h⟩ := bind_eq_ok.1 h
      obtain ⟨rTy, hrTy, h⟩ := bind_eq_ok.1 h
      cases h
      obtain rfl : ty = .tContract r := by
        split at hr
        · cases ty <;> cases hr
          rfl
        · cases hr
      obtain ⟨t', ht', rfl⟩ := map_eq_ok.1 hty
      have hread := CompilerType.readTy_type_ ht' hrTy
      simp only [Implements, constant1, CompilerType.Ty.type_, ht']
      intro exec n a s
      rw [step_seq, steps_cons]
      have hstep : step ctx exec n (prim .iContract [rTy]) (a :: s) =
          push (a.toContract ctx t') s := by
        simp only [prim, step, hread]
      rw [hstep]
      exact push_bind fun v =>
        (steps_singleton ..).trans (step_iAssertSomeMsg (by decide) v _)
    · cases h

end

end Ligo.CompilerProgram
