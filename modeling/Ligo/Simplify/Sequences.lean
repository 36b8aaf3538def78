import Ligo.AstSimplified.Sequence
import Ligo.Ligodity.Parser
import Ligo.Simplify.Camligo
import Ligo.Simplify.Ligodity
import Mathlib.Data.List.Rotate

/-!
# Sequences of the front ends

Both ML front ends fold the expressions of a sequence into nested `E_sequence` nodes. The
nest should evaluate them in their order (`Sequences`).

Camligo folds with a helper that reverses its input: the expressions after the first one come
out in the opposite order (`Camligo.eSequence_iff`). Ligodity starts its fold with the first
expression, which comes out last (`Ligodity.eSeq_iff`).
-/

namespace Ligo.Simplify

open AstSimplified

/-- `e` is a nest of `E_sequence` nodes that evaluates the expressions in their order, and has
the value of the last one. -/
def Sequences (te : Option TypeExpression) (es : List Expression) (e : Expression) : Prop :=
  InSequence te es e ∧ ∀ I ρ, eval I e ρ = evalSequence I es ρ

theorem sequences_iff_inSequence {te : Option TypeExpression} {es : List Expression}
    {e : Expression} : Sequences te es e ↔ InSequence te es e :=
  and_iff_left_of_imp fun h _ ρ => h.eval ρ

namespace Camligo

theorem expressions_eq_ok {lst : List Ligo.Camligo.Ast.Expression} {es : List Expression} :
    expressions lst = .ok es ↔ List.Forall₂ (fun x e => expression x = .ok e) lst es := by
  induction lst generalizing es with
  | nil =>
    rw [expressions, List.forall₂_nil_left_iff]
    exact ⟨fun h => (Except.ok.inj h).symm, fun h => by rw [h]⟩
  | cons x lst ih =>
    rw [expressions, List.forall₂_cons_left_iff]
    constructor
    · intro h
      obtain ⟨e, he, h⟩ := Fuel.bind_eq_ok.1 h
      obtain ⟨es', hes, h⟩ := Fuel.bind_eq_ok.1 h
      exact ⟨e, es', he, ih.1 hes, (Except.ok.inj h).symm⟩
    · rintro ⟨e, es', he, hes, rfl⟩
      rw [he, ih.2 hes]
      rfl

/-- The nest leans to the left, with the expressions after the first one in the opposite
order. -/
theorem expression_eSequence {lst : List Ligo.Camligo.Ast.Expression} {hd : Expression}
    {tl : List Expression} (h : expressions lst = .ok (hd :: tl)) :
    expression (.eSequence lst) = .ok (leftNest none hd tl.reverse) := by
  rw [expression, h]
  rfl

/-- A sequence evaluates its expressions in their order exactly when the ones after the first
read the same from both ends. -/
theorem eSequence_iff {lst : List Ligo.Camligo.Ast.Expression} {es : List Expression}
    (hlen : 2 ≤ lst.length) (hes : List.Forall₂ (fun x e => expression x = .ok e) lst es) :
    (∃ e, expression (.eSequence lst) = .ok e ∧ Sequences none es e) ↔
      lst.tail.reverse.map expression = lst.tail.map expression := by
  cases hes with
  | nil => cases hlen
  | @cons x hd lst tl hhd htl =>
    have hresult := expression_eSequence (expressions_eq_ok.2 (.cons hhd htl))
    have hmap : lst.map expression = tl.map .ok := by
      rw [← List.forall₂_eq_eq_eq, List.forall₂_map_left_iff, List.forall₂_map_right_iff]
      exact htl
    have hok : Function.Injective (Except.ok : Expression → Result Expression) :=
      fun _ _ h => Except.ok.inj h
    -- all of the parts simplify, so the condition is about what they become
    rw [List.tail_cons, List.map_reverse, hmap, ← List.map_reverse,
      (List.map_injective_iff.2 hok).eq_iff]
    constructor
    · rintro ⟨e, he, hseq⟩
      rw [hresult] at he
      cases he
      exact (hseq.1.eq_of_leftNest (List.length_reverse).symm).symm
    · intro hrev
      refine ⟨_, hresult, sequences_iff_inSequence.2 ?_⟩
      have h := inSequence_leftNest none hd tl.reverse
      rwa [hrev] at h ⊢

/-- The expressions `"a"`, `"b"` and `"c"`. -/
def threeStrings : List Ligo.Camligo.Ast.Expression :=
  [.eMain (.ehString "a"), .eMain (.ehString "b"), .eMain (.ehString "c")]

def threeLiterals : List Expression :=
  [.eLiteral (.string "a"), .eLiteral (.string "b"), .eLiteral (.string "c")]

/-- `"a"; "b"; "c"` has the value of `"b"`. -/
theorem threeStrings_out_of_order :
    ¬ ∃ e, expression (.eSequence threeStrings) = .ok e ∧ Sequences none threeLiterals e := by
  have hes : List.Forall₂ (fun x e => expression x = .ok e) threeStrings threeLiterals :=
    .cons rfl (.cons rfl (.cons rfl .nil))
  rw [eSequence_iff (by decide) hes]
  intro h
  have hhead : (Except.ok (.eLiteral (.string "c")) : Result Expression) =
      .ok (.eLiteral (.string "b")) := (List.cons.inj h).1
  simp at hhead

/-- `"a"; "b"` has the value of `"b"`. -/
theorem sequences_pair :
    ∃ e, expression (.eSequence (threeStrings.take 2)) = .ok e ∧
      Sequences none (threeLiterals.take 2) e :=
  (eSequence_iff (by decide) (.cons rfl (.cons rfl .nil))).2 rfl

end Camligo

namespace Ligodity

open Ligo.Ligodity (SepOrTerm sequence sepOrTermList_toList)
open Ligo.Ligodity.Raw (Expr)
open Raising

/-- The nest leans to the right, with the first expression at its bottom. -/
theorem simplMore_eq_rightNest {teAnnot : Option TypeExpression} {first : Expression}
    {more : List Expr} {es : List Expression}
    (h : List.Forall₂ (fun x e => simplExpression none x = pure e) more es) :
    simplMore teAnnot (pure first) more = pure (rightNest teAnnot es first) := by
  induction h with
  | nil => rfl
  | @cons x e more es hx _ ih =>
    rw [simplMore, bind_eq_pure]
    exact ⟨(e, rightNest teAnnot es first), pair_eq_pure.2 ⟨hx, ih⟩, rfl⟩

theorem simplExpression_sequence (teAnnot : Option TypeExpression) {s : SepOrTerm Expr}
    {hd : Expression} {tl : List Expression}
    (h : List.Forall₂ (fun x e => simplExpression none x = pure e) s.toList (hd :: tl)) :
    simplExpression teAnnot (sequence s) = pure (rightNest teAnnot tl hd) := by
  rw [Ligo.Ligodity.sequence, sepOrTermList_toList]
  cases hs : s.toList with
  | nil =>
    rw [hs] at h
    cases h
  | cons x more =>
    rw [hs] at h
    obtain ⟨hx, hmore⟩ := List.forall₂_cons.1 h
    rw [simplExpression, hx]
    exact simplMore_eq_rightNest hmore

/-- A list that is its own rotation has one element only. -/
theorem cons_eq_concat_iff {α : Type} {hd : α} {tl : List α} :
    hd :: tl = tl ++ [hd] ↔ ∀ a ∈ hd :: tl, a = hd := by
  have hrot : (hd :: tl).rotate 1 = tl ++ [hd] := by
    rw [List.rotate_cons_succ, List.rotate_zero]
  have : Nonempty α := ⟨hd⟩
  rw [← hrot, eq_comm, List.rotate_one_eq_self_iff_eq_replicate]
  constructor
  · rintro ⟨a, ha⟩ b hb
    have hall := List.eq_replicate_length.1 ha
    rw [hall b hb, hall hd List.mem_cons_self]
  · exact fun hall => ⟨hd, List.eq_replicate_length.2 hall⟩

/-- The expressions of a sequence all have the simplification of its first one. -/
theorem simplifications_agree {hd : Expression} {tl : List Expression} {lst : List Expr}
    (h : List.Forall₂ (fun x e => simplExpression none x = pure e) lst (hd :: tl)) :
    (∀ x ∈ lst, ∀ y ∈ lst, simplExpression none x = simplExpression none y) ↔
      ∀ e ∈ hd :: tl, e = hd := by
  have hmap : lst.map (simplExpression none) = (hd :: tl).map pure := by
    rw [← List.forall₂_eq_eq_eq, List.forall₂_map_left_iff, List.forall₂_map_right_iff]
    exact h
  have hpure : Function.Injective (pure : Expression → Raising Expression) :=
    fun _ _ h => Except.ok.inj (Except.ok.inj h)
  calc (∀ x ∈ lst, ∀ y ∈ lst, simplExpression none x = simplExpression none y)
      ↔ ∀ r ∈ lst.map (simplExpression none), ∀ r' ∈ lst.map (simplExpression none), r = r' := by
        simp only [List.forall_mem_map]
    _ ↔ ∀ e ∈ hd :: tl, ∀ e' ∈ hd :: tl, e = e' := by
        rw [hmap]
        simp only [List.forall_mem_map, hpure.eq_iff]
    _ ↔ ∀ e ∈ hd :: tl, e = hd :=
        ⟨fun h e he => h e he hd List.mem_cons_self, fun h e he e' he' => by rw [h e he, h e' he']⟩

/-- A sequence evaluates its expressions in their order exactly when they all have one
simplification. -/
theorem eSeq_iff {s : SepOrTerm Expr} {es : List Expression}
    (hes : List.Forall₂ (fun x e => simplExpression none x = pure e) s.toList es)
    (teAnnot : Option TypeExpression) :
    (∃ e, simplExpression teAnnot (sequence s) = pure e ∧ Sequences teAnnot es e) ↔
      ∀ x ∈ s.toList, ∀ y ∈ s.toList, simplExpression none x = simplExpression none y := by
  obtain ⟨hd, tl, rfl⟩ : ∃ hd tl, es = hd :: tl := by
    refine List.exists_cons_of_length_pos ?_
    rw [← hes.length_eq]
    cases s <;> exact Nat.succ_pos _
  have hresult := simplExpression_sequence teAnnot hes
  rw [simplifications_agree hes]
  constructor
  · rintro ⟨e, he, hseq, -⟩
    rw [hresult] at he
    cases he
    by_cases htl : tl = []
    · rw [htl]
      exact fun e he => List.mem_singleton.1 he
    · have hlast := List.getLast?_eq_getLast_of_ne_nil htl
      have hsplit := List.dropLast_append_getLast (List.cons_ne_nil hd tl)
      rw [List.getLast_cons htl] at hsplit
      rw [← hsplit] at hseq
      -- the list is its own rotation
      have hrot := hseq.eq_of_rightNest hlast (by rw [List.length_dropLast]; rfl)
      rw [hsplit] at hrot
      exact cons_eq_concat_iff.1 hrot
  · intro hall
    refine ⟨_, hresult, sequences_iff_inSequence.2 ?_⟩
    have h := inSequence_rightNest teAnnot tl hd
    rwa [← cons_eq_concat_iff.2 hall] at h

/-- `begin "a"; "b" end`, with the quotes of the lexemes. -/
def twoStrings : SepOrTerm Expr :=
  .separated ⟨.eString ⟨"\"a\"", ['a'], by decide⟩, [.eString ⟨"\"b\"", ['b'], by decide⟩]⟩

/-- `begin "a"; "b" end` has the value of `"a"`. -/
theorem twoStrings_out_of_order :
    ¬ ∃ e, simplExpression none (sequence twoStrings) = pure e ∧
      Sequences none [.eLiteral (.string "a"), .eLiteral (.string "b")] e := by
  have ha : simplExpression none (.eString ⟨"\"a\"", ['a'], by decide⟩) =
      pure (.eLiteral (.string "a")) := rfl
  have hb : simplExpression none (.eString ⟨"\"b\"", ['b'], by decide⟩) =
      pure (.eLiteral (.string "b")) := rfl
  have hes : List.Forall₂ (fun x e => simplExpression none x = pure e) twoStrings.toList
      [.eLiteral (.string "a"), .eLiteral (.string "b")] :=
    .cons ha (.cons hb .nil)
  rw [eSeq_iff hes]
  intro h
  have hab := h _ List.mem_cons_self _ (List.mem_cons_of_mem _ List.mem_cons_self)
  rw [ha, hb] at hab
  have hlit := Except.ok.inj (Except.ok.inj hab)
  simp at hlit

/-- `begin (); end` has the value of the unit. -/
theorem sequences_unit :
    ∃ e, simplExpression none (sequence (.terminated ⟨.eUnit, []⟩)) = pure e ∧
      Sequences none [.eLiteral .unit] e := by
  have hunit : simplExpression none .eUnit = pure (.eLiteral .unit) := rfl
  have hes : List.Forall₂ (fun x e => simplExpression none x = pure e)
      (SepOrTerm.terminated ⟨Expr.eUnit, []⟩).toList [.eLiteral .unit] :=
    .cons hunit .nil
  refine (eSeq_iff hes none).2 ?_
  intro x hx y hy
  rw [List.mem_singleton.1 hx, List.mem_singleton.1 hy]

end Ligodity

end Ligo.Simplify
