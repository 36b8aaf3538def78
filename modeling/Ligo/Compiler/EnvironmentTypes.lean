import Ligo.Compiler.Layout

/-!
# Typing the environment code

The generators of `Compiler.Environment` ask the checker about the code that they built.
On an environment with Michelson types it never refuses: `get_ok`, `set_ok` and
`select_ok` say that each of them succeeds, and which types its code takes and leaves.
-/

namespace Ligo

open MiniC Michelson
open Fuel (bind_eq_ok)

/-! ### The position of a variable -/

/-- The newest binding of a name is where `assoc_i` finds it. -/
theorem assocI_of_lookup {x : String} {e : Environment} {τ : TypeValue}
    (h : Scope.lookup x e = some τ) :
    ∃ pre post, e = pre ++ (x, τ) :: post ∧ assocI x e = some (τ, pre.length) := by
  induction e with
  | nil => cases h
  | cons b e ih =>
    obtain ⟨y, σ⟩ := b
    rw [Scope.lookup] at h
    rw [assocI]
    by_cases hxy : x = y
    · rw [if_pos hxy] at h ⊢
      cases h
      exact ⟨[], e, by rw [hxy]; rfl, rfl⟩
    · rw [if_neg hxy] at h ⊢
      obtain ⟨pre, post, rfl, hpos⟩ := ih h
      exact ⟨(y, σ) :: pre, post, rfl, by rw [hpos]; rfl⟩

namespace CompilerType.Ty

theorem environment_eq_cons {x : String × TypeValue} {e : Environment} {t : Michelson.Ty}
    {s : StackTy} (ht : type_ x.2 = .ok t) (hs : environment e = .ok s) :
    environment (x :: e) = .ok (t :: s) := by
  rw [environment] at hs ⊢
  rw [List.mapM_cons, ht, hs]
  rfl

/-- The types of two parts of an environment. -/
theorem environment_append {e e' : Environment} {s : StackTy}
    (h : environment (e ++ e') = .ok s) :
    ∃ s₁ s₂, environment e = .ok s₁ ∧ environment e' = .ok s₂ ∧ s = s₁ ++ s₂ := by
  induction e generalizing s with
  | nil => exact ⟨[], s, rfl, h, rfl⟩
  | cons x e ih =>
    obtain ⟨t, ts, ht, hts, rfl⟩ := environment_cons h
    obtain ⟨s₁, s₂, h₁, h₂, rfl⟩ := ih hts
    exact ⟨t :: s₁, s₂, environment_eq_cons ht h₁, h₂, rfl⟩

end CompilerType.Ty

namespace CompilerEnvironment

variable {ctx : Context}

/-- The check accepts code that is well typed. -/
theorem check_eq_ok {title : String} {code : Node} {bef aft : StackTy}
    (h : Types ctx code bef aft) : check ctx title code bef aft = .ok () := by
  rw [check, if_pos (parseMichelson_iff.2 h)]

/-! ### The code -/

/-- Copying a value from below `pre`. -/
theorem types_getCode (pre : StackTy) (t : Michelson.Ty) (post : StackTy) :
    Types ctx (getCode pre.length) (pre ++ t :: post) (t :: (pre ++ t :: post)) := by
  induction pre with
  | nil => exact types_iDup
  | cons u pre ih => exact ih.dip.cons types_iSwap.singleton

/-- Replacing a value below `pre`. -/
theorem types_setCode (u : Michelson.Ty) (pre : StackTy) (t : Michelson.Ty) (post : StackTy) :
    Types ctx (setCode pre.length) (u :: (pre ++ t :: post)) (pre ++ u :: post) := by
  induction pre with
  | nil => exact types_iDrop.dip
  | cons v pre ih => exact types_iSwap.cons ih.dip.singleton

/-- Dropping what is not kept. -/
theorem types_selectCode (eLst : List ((String × TypeValue) × Bool)) {s : StackTy}
    (h : s.length = eLst.length) :
    Types ctx (selectCode eLst) s (Scope.keep (eLst.map Prod.snd) s) := by
  induction eLst generalizing s with
  | nil =>
    obtain rfl := List.length_eq_zero_iff.1 h
    exact types_nil
  | cons x eLst ih =>
    obtain ⟨t, s, rfl⟩ := List.exists_cons_of_length_eq_add_one h
    have ih := ih (Nat.succ.inj h)
    obtain ⟨b, f⟩ := x
    rw [selectCode, foldRight'_cons, ← selectCode]
    cases f with
    | true => exact ih.dip
    | false => exact ih.dip.cons types_iDrop.singleton

/-! ### The generators succeed -/

section Generators

variable {e : Environment} {s : StackTy} (hs : CompilerType.Ty.environment e = .ok s)

include hs

/-- A bound name has a position and a type there. -/
theorem lookup_position {x : String} {τ : TypeValue} (hx : Scope.lookup x e = some τ) :
    ∃ pre t post, assocI x e = some (τ, pre.length) ∧ CompilerType.Ty.type_ τ = .ok t ∧
      s = pre ++ t :: post := by
  obtain ⟨pre, post, rfl, hpos⟩ := assocI_of_lookup hx
  obtain ⟨s₁, s₂, h₁, h₂, rfl⟩ := CompilerType.Ty.environment_append hs
  obtain ⟨t, ts, ht, -, rfl⟩ := CompilerType.Ty.environment_cons h₂
  refine ⟨s₁, t, ts, ?_, ht, rfl⟩
  rw [hpos, CompilerType.Ty.environment_length h₁]

variable (ctx) in
/-- The generators succeed on names that are bound. -/
theorem get_ok {x : String} {τ : TypeValue} (hx : Scope.lookup x e = some τ) :
    ∃ code t, get ctx e x = .ok code ∧ CompilerType.Ty.type_ τ = .ok t ∧
      Types ctx code s (t :: s) := by
  obtain ⟨pre, t, post, hpos, ht, rfl⟩ := lookup_position hs hx
  have htypes : Types ctx (getCode pre.length) (pre ++ t :: post) (t :: (pre ++ t :: post)) :=
    types_getCode pre t post
  refine ⟨getCode pre.length, t, ?_, ht, htypes⟩
  rw [get, hpos]
  change (CompilerType.Ty.environment e >>= fun inputStackTy => CompilerType.Ty.type_ τ >>= _) = _
  rw [hs, ht]
  change (check ctx _ _ _ _ >>= _) = _
  rw [check_eq_ok htypes]
  rfl

variable (ctx) in
theorem set_ok {x : String} {τ : TypeValue} (hx : Scope.lookup x e = some τ) :
    ∃ code t, set ctx e x = .ok code ∧ CompilerType.Ty.type_ τ = .ok t ∧
      Types ctx code (t :: s) s := by
  obtain ⟨pre, t, post, hpos, ht, rfl⟩ := lookup_position hs hx
  have htypes : Types ctx (setCode pre.length) (t :: (pre ++ t :: post)) (pre ++ t :: post) :=
    types_setCode t pre t post
  refine ⟨setCode pre.length, t, ?_, ht, htypes⟩
  rw [set, hpos]
  change (CompilerType.Ty.environment e >>= fun envStackTy => CompilerType.Ty.type_ τ >>= _) = _
  rw [hs, ht]
  change (check ctx _ _ _ _ >>= _) = _
  rw [check_eq_ok htypes]
  rfl

/-- The types of the bindings that are kept. -/
theorem environment_selected (lst : List String) :
    CompilerType.Ty.environment (((Environment.selected lst e).filter Prod.snd).map Prod.fst) =
      .ok (Scope.keep (Scope.flags lst (Scope.names e)) s) := by
  have heq : ((Environment.selected lst e).filter Prod.snd).map Prod.fst =
      Scope.restrict lst e := Environment.select_eq lst e
  rw [heq]
  exact CompilerType.Ty.environment_keep hs _

variable (ctx) in
/-- Selecting always succeeds on an environment of types. -/
theorem select_ok (lst : List String) :
    ∃ code, select ctx e lst = .ok code ∧
      Types ctx code s (Scope.keep (Scope.flags lst (Scope.names e)) s) := by
  have hflags := Environment.map_snd_selected lst e
  have hlen : s.length = (Environment.selected lst e).length := by
    have h := congrArg List.length hflags
    rw [List.length_map, Scope.length_flags, Scope.length_names] at h
    rw [CompilerType.Ty.environment_length hs, h]
  have htypes : Types ctx (selectCode (Environment.selected lst e)) s _ :=
    types_selectCode _ hlen
  rw [hflags] at htypes
  refine ⟨_, ?_, htypes⟩
  rw [select, hs, environment_selected hs]
  change (check ctx _ _ _ _ >>= _) = _
  rw [check_eq_ok htypes]
  rfl

variable (ctx) in
/-- Dropping the newest binding. -/
theorem selectEnv_tail (b : String × TypeValue) {t : Michelson.Ty}
    (ht : CompilerType.Ty.type_ b.2 = .ok t) :
    ∃ code, selectEnv ctx (b :: e) e = .ok code ∧ Types ctx code (t :: s) s := by
  obtain ⟨code, hcode, htypes⟩ : ∃ code,
      select ctx (b :: e) (Environment.getNames e) = .ok code ∧
        Types ctx code (t :: s) (Scope.keep (Scope.flags (Environment.getNames e)
          (Scope.names (b :: e))) (t :: s)) :=
    select_ok ctx (CompilerType.Ty.environment_eq_cons ht hs) _
  refine ⟨code, hcode, ?_⟩
  -- of the extended environment, everything but the new binding is kept
  have hkeep : CompilerType.Ty.environment (Scope.restrict (Scope.names e) (b :: e)) =
      .ok (Scope.keep (Scope.flags (Scope.names e) (Scope.names (b :: e))) (t :: s)) :=
    CompilerType.Ty.environment_keep (CompilerType.Ty.environment_eq_cons ht hs) _
  rw [Scope.restrict_tail (Scope.names_cons b e), List.tail_cons, hs] at hkeep
  have heq := Except.ok.inj hkeep
  change Types ctx code (t :: s) (Scope.keep (Scope.flags (Scope.names e) _) (t :: s)) at htypes
  rw [← heq] at htypes
  exact htypes

end Generators

end CompilerEnvironment

end Ligo
