import Mathlib.Data.Int.Notation
import Mathlib.Data.List.Forall2

/-!
# Results and list helpers

The result monad of the compiler: an error is the stack of the titles of the
messages, newest first. The contents of the messages, which only describe the
expression at hand, are left out.

The list helpers are the ones of the compiler's own library; what matters is the
end of the list from which they start.
-/

namespace Ligo

/-- `'a result`: a value or a stack of error titles. -/
abbrev Result (α : Type) := Except (List String) α

section Trace

variable {α β : Type}

/-- Fail with one error. -/
def simpleFail (title : String) : Result α := .error [title]

/-- Add an error on top of the stack. -/
def trace (title : String) : Result α → Result α
  | .ok a => .ok a
  | .error errs => .error (title :: errs)

/-- Replace the stack of errors by one error. -/
def traceStrong (title : String) : Result α → Result α
  | .ok a => .ok a
  | .error _ => .error [title]

/-- A missing value is an error. -/
def traceOption (title : String) : Option α → Result α
  | some a => .ok a
  | none => .error [title]

/-- An assertion. -/
def assertTrue (b : Bool) : Result Unit :=
  if b then .ok () else simpleFail "not true"

/-- `Trace.to_bool`. -/
def toBool : Result α → Bool
  | .ok _ => true
  | .error _ => false

/-- `bind_list`: the values of a list of results, or the first error. -/
def bindList : List (Result α) → Result (List α)
  | [] => .ok []
  | hd :: tl => do
    let hd ← hd
    let tl ← bindList tl
    return hd :: tl

/-- `bind_list` succeeds when every result does. -/
theorem bindList_eq_ok {rs : List (Result α)} {as : List α} :
    bindList rs = .ok as ↔ List.Forall₂ (fun r a => r = .ok a) rs as := by
  induction rs generalizing as with
  | nil =>
    constructor
    · intro h
      cases h
      exact .nil
    · intro h
      cases h
      rfl
  | cons r rs ih =>
    rw [bindList]
    constructor
    · intro h
      cases r with
      | error _ => cases h
      | ok a =>
        cases hrs : bindList rs with
        | error _ =>
          rw [hrs] at h
          cases h
        | ok tl =>
          rw [hrs] at h
          cases h
          exact .cons rfl (ih.1 hrs)
    · intro h
      cases h with
      | cons ha htl =>
        rw [ha, ih.2 htl]
        rfl

@[simp] theorem trace_eq_ok {title : String} {r : Result α} {a : α} :
    trace title r = .ok a ↔ r = .ok a := by
  cases r <;> simp [trace]

@[simp] theorem traceOption_eq_ok {title : String} {o : Option α} {a : α} :
    traceOption title o = .ok a ↔ o = some a := by
  cases o <;> simp [traceOption]

end Trace

/-! ### Lists -/

section List

variable {acc ele ret : Type}

/-- `List.fold_map_right`: thread a state from the last element to the first, and
keep the answers in the order of the list. -/
def foldMapRight (f : acc → ele → acc × ret) (a : acc) (lst : List ele) : List ret :=
  (lst.reverse.foldl (fun p x => ((f p.1 x).1, (f p.1 x).2 :: p.2)) (a, [])).2

/-- `List.fold_right'`: fold from the last element to the first. -/
def foldRight' (f : acc → ele → acc) (init : acc) (lst : List ele) : acc :=
  lst.reverse.foldl f init

theorem foldRight'_cons (f : acc → ele → acc) (init : acc) (x : ele) (lst : List ele) :
    foldRight' f init (x :: lst) = f (foldRight' f init lst) x := by
  simp [foldRight']

/-- `List.assoc_i`: the value of the first entry with that key, and its position. -/
def assocI (x : String) : List (String × ele) → Option (ele × ℕ)
  | [] => none
  | (x', y) :: lst => if x = x' then some (y, 0) else (assocI x lst).map fun p => (p.1, p.2 + 1)

/-- `List.nth`, of which a negative index makes no component either. -/
def nth (lst : List ele) (index : ℤ) : Option ele :=
  if 0 ≤ index then lst[index.toNat]? else none

@[simp] theorem nth_natCast (lst : List ele) (index : ℕ) : nth lst index = lst[index]? := by
  rw [nth, if_pos (Int.natCast_nonneg index), Int.toNat_natCast]

/-- A component has an index that is a natural number. -/
theorem nth_eq_some {lst : List ele} {index : ℤ} {a : ele} (h : nth lst index = some a) :
    ∃ i : ℕ, index = i ∧ lst[i]? = some a := by
  unfold nth at h
  split at h
  · rename_i hindex
    exact ⟨index.toNat, (Int.toNat_of_nonneg hindex).symm, h⟩
  · cases h

end List

end Ligo
