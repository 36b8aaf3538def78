import Ligo.Typer.Accessor

/-!
# The checks of the type checker

What it means that a helper of the type checker returns: the elements of a list, the keys and
the values of a map and the branches of a match have one type.
-/

namespace Ligo.Typer

open AstTyped
open Fuel (bind_eq_ok map_eq_ok)

variable {e : Environment} {tvOpt : Option TypeValue} {t : TypeValue} {tys : List TypeValue}

/-- The elements have the type of the first one. -/
theorem foldlM_sameType {o : Option TypeValue} (h : tys.foldlM sameType (some t) = .ok o) :
    o = some t ∧ ∀ u ∈ tys, u = t := by
  induction tys with
  | nil =>
    cases h
    simp
  | cons u tys ih =>
    rw [List.foldlM_cons] at h
    obtain ⟨o', hstep, h⟩ := bind_eq_ok.1 h
    obtain ⟨_, hcheck, rfl⟩ := map_eq_ok.1 hstep
    obtain ⟨ho, hrest⟩ := ih h
    exact ⟨ho, List.forall_mem_cons.2 ⟨assertTypeValueEq_iff.1 hcheck, hrest⟩⟩

/-- Without an expected type the first one decides. -/
theorem foldlM_sameType_none (h : tys.foldlM sameType none = .ok (some t)) :
    tys.head? = some t ∧ ∀ u ∈ tys, u = t := by
  cases tys with
  | nil => cases h
  | cons u tys =>
    rw [List.foldlM_cons] at h
    obtain ⟨o', hstep, h⟩ := bind_eq_ok.1 h
    cases hstep
    obtain ⟨ho, hrest⟩ := foldlM_sameType h
    cases ho
    exact ⟨rfl, List.forall_mem_cons.2 ⟨rfl, hrest⟩⟩

/-- The branches have the type of the last one. -/
theorem foldlM_sameBranch {u : TypeValue} (h : tys.foldlM sameBranch (some u) = .ok (some t)) :
    u = t ∧ ∀ v ∈ tys, v = t := by
  induction tys generalizing u with
  | nil =>
    cases h
    simp
  | cons v tys ih =>
    rw [List.foldlM_cons] at h
    obtain ⟨o', hstep, h⟩ := bind_eq_ok.1 h
    obtain ⟨_, hcheck, hstep⟩ := bind_eq_ok.1 hstep
    cases hstep
    obtain ⟨hv, hrest⟩ := ih h
    have huv : v = u := assertTypeValueEq_iff.1 hcheck
    exact ⟨by rw [← huv, hv], List.forall_mem_cons.2 ⟨hv, hrest⟩⟩

/-- The first branch decides the type of a match. -/
theorem foldlM_sameBranch_none (h : tys.foldlM sameBranch none = .ok (some t)) :
    tys.head? = some t ∧ ∀ v ∈ tys, v = t := by
  cases tys with
  | nil => cases h
  | cons v tys =>
    rw [List.foldlM_cons] at h
    obtain ⟨o', hstep, h⟩ := bind_eq_ok.1 h
    cases hstep
    obtain ⟨rfl, hrest⟩ := foldlM_sameBranch h
    exact ⟨rfl, List.forall_mem_cons.2 ⟨rfl, hrest⟩⟩

/-- A match has the type of its branches. -/
theorem branches_eq_ok {ex' ae : AnnotatedExpression} {m' : AstTyped.MatchingExpr}
    (h : branches e tvOpt ex' m' = .ok ae) :
    ∃ t, (branchTypes m').head? = some t ∧ (∀ v ∈ branchTypes m', v = t) ∧
      ae = .mk (.eMatching ex' m') t e.elements := by
  obtain ⟨o, ho, h⟩ := bind_eq_ok.1 h
  obtain ⟨t, ht, h⟩ := bind_eq_ok.1 h
  obtain ⟨-, rfl⟩ := annotate_iff.1 h
  rw [traceOption_eq_ok.1 ht] at ho
  obtain ⟨hhead, hall⟩ := foldlM_sameBranch_none ho
  exact ⟨t, hhead, hall, rfl⟩

/-- The accessors of types, by the type that they expect. -/
theorem getTBool_eq_ok : getTBool t = .ok () ↔ t = tBool := by
  constructor
  · intro h
    unfold getTBool at h
    split at h
    · rfl
    · cases h
  · rintro rfl
    rfl

theorem getTUnit_eq_ok : getTUnit t = .ok () ↔ t = tUnit := by
  constructor
  · intro h
    unfold getTUnit at h
    split at h
    · rfl
    · cases h
  · rintro rfl
    rfl

theorem getTOption_eq_ok {o : TypeValue} : getTOption t = .ok o ↔ t = tOption o := by
  constructor
  · intro h
    unfold getTOption at h
    split at h
    · cases h
      rfl
    · cases h
  · rintro rfl
    rfl

/-- An annotation and a computed type have to be equal when there are both. -/
theorem mergeAnnotated_eq_ok {a b : Option TypeValue} (h : mergeAnnotated a b = .ok t) :
    (∀ u ∈ a, u = t) ∧ (∀ u ∈ b, u = t) ∧ (a = none → b = some t) := by
  -- two types have to agree; one of them is enough
  cases a with
  | none =>
    cases b with
    | none => cases h
    | some b =>
      cases h
      simp
  | some a =>
    cases b with
    | none =>
      cases h
      simp
    | some b =>
      obtain ⟨_, hcheck, h⟩ := bind_eq_ok.1 h
      cases h
      have heq : t = b := assertTypeValueEq_iff.1 hcheck
      simp [heq]

/-- The keys of a map have one type, and so have its values. -/
theorem entryType_eq_ok {getT : TypeValue → Result TypeValue}
    (h : entryType getT tvOpt tys = .ok t) :
    (∀ u ∈ tys, u = t) ∧ (tvOpt = none → tys.head? = some t) := by
  obtain ⟨sub, hsub, h⟩ := bind_eq_ok.1 h
  obtain ⟨annot, hannot, h⟩ := bind_eq_ok.1 h
  obtain ⟨-, hb, hnone⟩ := mergeAnnotated_eq_ok (trace_eq_ok.1 h)
  constructor
  -- without a first type there are no types at all
  · cases sub with
    | none =>
      cases tys with
      | nil => simp
      | cons u tys =>
        obtain ⟨o', hstep, hsub⟩ := bind_eq_ok.1 hsub
        cases hstep
        cases (foldlM_sameType hsub).1
    | some u =>
      obtain rfl := hb u rfl
      exact (foldlM_sameType_none hsub).2
  · rintro rfl
    cases hannot
    obtain rfl := hnone rfl
    exact (foldlM_sameType_none hsub).1

/-- The elements of a list have one type. -/
theorem listType_eq_ok {init : Option TypeValue} (hinit : bindMapOption getTList tvOpt = .ok init)
    (h : tys.foldlM sameType init = .ok (some t)) :
    (∀ u ∈ tys, u = t) ∧ (tvOpt = none → tys.head? = some t) := by
  cases tvOpt with
  | none =>
    cases hinit
    obtain ⟨hhead, hall⟩ := foldlM_sameType_none h
    exact ⟨hall, fun _ => hhead⟩
  | some tv =>
    obtain ⟨u, -, rfl⟩ := map_eq_ok.1 hinit
    obtain ⟨ht, hall⟩ := foldlM_sameType h
    cases ht
    exact ⟨hall, nofun⟩

end Ligo.Typer
