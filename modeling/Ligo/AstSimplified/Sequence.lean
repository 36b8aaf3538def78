import Ligo.AstSimplified.Semantics

/-!
# Sequences

A nest of `E_sequence` nodes evaluates its elements one after the other, from left to right,
whichever way it is nested; its value is the one of the last element (`InSequence.eval`).

The front ends fold a list of expressions into a nest that leans to one side. Such a nest
evaluates no other list of as many expressions than the one that it is folded from
(`InSequence.eq_of_leftNest`, `InSequence.eq_of_rightNest`), so the order of evaluation can be
read off the fold.
-/

namespace Ligo.AstSimplified

open Fuel (bind_eq_ok)

variable {te : Option TypeExpression} {es r : List Expression} {a b e : Expression}

/-- A node of a nest, with the annotation that the front end puts on it. -/
def sequenceNode (te : Option TypeExpression) (a b : Expression) : Expression :=
  makeOptionTyped (.eSequence a b) te

variable (te) in
/-- `e` is a nest that evaluates the expressions in their order. -/
inductive InSequence : List Expression → Expression → Prop
  | single (e : Expression) : InSequence [e] e
  | node {l r a b} (ha : InSequence l a) (hb : InSequence r b) :
    InSequence (l ++ r) (sequenceNode te a b)

/-- A sequence has at least one expression. -/
theorem InSequence.ne_nil (h : InSequence te es e) : es ≠ [] := by
  induction h with
  | single e => exact List.cons_ne_nil _ _
  | node _ _ iha _ => exact fun hnil => iha (List.append_eq_nil_iff.1 hnil).1

/-! ### Evaluation -/

section Eval

variable (I : Interpretation)

/-- Evaluate the expressions one after the other; the value is the one of the last. -/
def evalSequence : List Expression → Env → Answer (Value × Env)
  | [], ρ => .ok (unit, ρ)
  | [e], ρ => eval I e ρ
  | e :: es, ρ => do
    let (_, ρ) ← eval I e ρ
    evalSequence es ρ

/-- The first expressions run before the others. -/
theorem evalSequence_append (l : List Expression) (hr : r ≠ []) (ρ : Env) :
    evalSequence I (l ++ r) ρ =
      if l = [] then evalSequence I r ρ
      else evalSequence I l ρ >>= fun x => evalSequence I r x.2 := by
  induction l generalizing ρ with
  | nil => rfl
  | cons e l ih =>
    rw [if_neg (List.cons_ne_nil _ _)]
    -- the rest is not empty, so the head's value is dropped
    have hlr : l ++ r ≠ [] := fun hnil => hr (List.append_eq_nil_iff.1 hnil).2
    have hcons : ∀ l' : List Expression, l' ≠ [] →
        evalSequence I (e :: l') ρ = eval I e ρ >>= fun x => evalSequence I l' x.2 := by
      intro l' hl'
      cases l' with
      | nil => exact (hl' rfl).elim
      | cons e' l' => rfl
    rw [List.cons_append, hcons _ hlr]
    by_cases hl : l = []
    · subst hl
      rfl
    · rw [hcons _ hl, bind_assoc]
      refine congrArg _ (funext fun x => ?_)
      rw [ih, if_neg hl]

variable {I}

/-- A sequence of two runs the first and then the second, whatever is annotated. -/
theorem eval_sequenceNode (ρ : Env) :
    eval I (sequenceNode te a b) ρ = eval I a ρ >>= fun x => eval I b x.2 := by
  cases te <;> rfl

/-- A nest evaluates its expressions in their order, and its value is the one of the last. -/
theorem InSequence.eval (h : InSequence te es e) (ρ : Env) :
    AstSimplified.eval I e ρ = evalSequence I es ρ := by
  induction h generalizing ρ with
  | single e => rfl
  | node ha hb iha ihb =>
    rw [eval_sequenceNode, evalSequence_append I _ hb.ne_nil, if_neg ha.ne_nil, iha]
    exact congrArg _ (funext fun x => ihb x.2)

end Eval

/-! ### Nests that lean to one side -/

/-- The node is larger than its parts. -/
theorem sizeOf_sequenceNode (te : Option TypeExpression) (a b : Expression) :
    sizeOf a < sizeOf (sequenceNode te a b) ∧ sizeOf b < sizeOf (sequenceNode te a b) := by
  cases te with
  | none =>
    simp only [sequenceNode, makeOptionTyped, Expression.eSequence.sizeOf_spec]
    omega
  | some t =>
    simp only [sequenceNode, makeOptionTyped, Expression.eAnnotated.sizeOf_spec,
      Expression.eSequence.sizeOf_spec]
    omega

/-- The node tells its two parts. -/
theorem sequenceNode_inj {a' b' : Expression}
    (h : sequenceNode te a b = sequenceNode te a' b') : a = a' ∧ b = b' := by
  cases te with
  | none => exact Expression.eSequence.inj h
  | some t => exact Expression.eSequence.inj (Expression.eAnnotated.inj h).1

/-- What a node is the sequence of is cut between its two parts, unless it is a single
expression. -/
theorem inSequence_node (h : InSequence te es (sequenceNode te a b)) :
    es = [sequenceNode te a b] ∨
      ∃ l r, es = l ++ r ∧ InSequence te l a ∧ InSequence te r b := by
  generalize heq : sequenceNode te a b = e at h
  cases h with
  | single e => exact .inl rfl
  | node ha hb =>
    obtain ⟨rfl, rfl⟩ := sequenceNode_inj heq
    exact .inr ⟨_, _, rfl, ha, hb⟩

/-- A sequence of one expression is that expression. -/
theorem inSequence_singleton (h : InSequence te [a] e) : a = e := by
  generalize heq : [a] = es at h
  cases h with
  | single e => exact List.singleton_inj.1 heq
  | node ha hb =>
    rcases List.append_eq_singleton_iff.1 heq.symm with ⟨hnil, -⟩ | ⟨-, hnil⟩
    · exact (ha.ne_nil hnil).elim
    · exact (hb.ne_nil hnil).elim

section Left

/-- The nest that leans to the left. -/
def leftNest (te : Option TypeExpression) (hd : Expression) (tl : List Expression) : Expression :=
  tl.foldl (sequenceNode te) hd

/-- The last expression is the second part of the outermost node. -/
theorem leftNest_concat (hd : Expression) (tl : List Expression) (e : Expression) :
    leftNest te hd (tl ++ [e]) = sequenceNode te (leftNest te hd tl) e := by
  rw [leftNest, List.foldl_append, ← leftNest]
  rfl

/-- Nested to the left, the expressions are in their order. -/
theorem inSequence_leftNest (te : Option TypeExpression) (hd : Expression) (tl : List Expression) :
    InSequence te (hd :: tl) (leftNest te hd tl) := by
  induction tl using List.reverseRecOn with
  | nil => exact .single hd
  | append_singleton tl e ih =>
    rw [leftNest_concat]
    exact .node ih (.single e)

variable {hd : Expression} {tl tl' : List Expression}

/-- The first expression is smaller than a sequence of several. -/
theorem sizeOf_lt_leftNest (te : Option TypeExpression) (hd : Expression) (h : tl ≠ []) :
    sizeOf hd < sizeOf (leftNest te hd tl) := by
  induction tl using List.reverseRecOn with
  | nil => exact (h rfl).elim
  | append_singleton tl e ih =>
    rw [leftNest_concat]
    have hnode := (sizeOf_sequenceNode te (leftNest te hd tl) e).1
    by_cases htl : tl = []
    · subst htl
      exact hnode
    · exact (ih htl).trans hnode

/-- The first expression lies as deep as the nest is long. -/
theorem InSequence.length_le_of_leftNest (h : InSequence te (hd :: tl') (leftNest te hd tl)) :
    tl.length ≤ tl'.length := by
  induction tl using List.reverseRecOn generalizing tl' with
  | nil => exact Nat.zero_le _
  | append_singleton tl e ih =>
    rw [leftNest_concat] at h
    -- either the nest is the one element, or it splits into the parts of its last `E_sequence`
    rcases inSequence_node h with hone | ⟨l, r, heq, hl, hr⟩
    · have hsize := sizeOf_lt_leftNest te hd
        (List.append_ne_nil_of_right_ne_nil tl (List.cons_ne_nil e []))
      rw [leftNest_concat, ← (List.cons.inj hone).1] at hsize
      exact (lt_irrefl _ hsize).elim
    · obtain ⟨x, l, rfl⟩ := List.exists_cons_of_ne_nil hl.ne_nil
      obtain ⟨rfl, rfl⟩ := List.cons.inj ((List.cons_append ..).symm.trans heq.symm)
      have hlen := ih hl
      have hpos := List.length_pos_of_ne_nil hr.ne_nil
      rw [List.length_append, List.length_append, List.length_singleton]
      omega

/-- A nest that leans to the left evaluates its own list only. -/
theorem InSequence.eq_of_leftNest (h : InSequence te (hd :: tl') (leftNest te hd tl))
    (hlen : tl'.length = tl.length) : tl' = tl := by
  induction tl using List.reverseRecOn generalizing tl' with
  | nil => exact List.eq_nil_of_length_eq_zero hlen
  | append_singleton tl e ih =>
    rw [leftNest_concat] at h
    rcases inSequence_node h with hone | ⟨l, r, heq, hl, hr⟩
    · rw [(List.cons.inj hone).2, List.length_append] at hlen
      cases hlen
    · obtain ⟨x, l, rfl⟩ := List.exists_cons_of_ne_nil hl.ne_nil
      obtain ⟨rfl, rfl⟩ := List.cons.inj ((List.cons_append ..).symm.trans heq.symm)
      -- the first part is as long as the nest without its last node
      have hle := hl.length_le_of_leftNest
      have hpos := List.length_pos_of_ne_nil hr.ne_nil
      rw [List.length_append, List.length_append, List.length_singleton] at hlen
      obtain ⟨y, rfl⟩ := List.length_eq_one_iff.1 (show r.length = 1 by omega)
      rw [ih hl (by omega), inSequence_singleton hr]

end Left

section Right

/-- The nest that leans to the right. -/
def rightNest (te : Option TypeExpression) (es : List Expression) (last : Expression) :
    Expression :=
  es.foldr (sequenceNode te) last

/-- Nested to the right, they are as well. -/
theorem inSequence_rightNest (te : Option TypeExpression) (es : List Expression) (last : Expression) :
    InSequence te (es ++ [last]) (rightNest te es last) := by
  induction es with
  | nil => exact .single last
  | cons e es ih =>
    have hnode := InSequence.node (InSequence.single e) ih
    exact hnode

variable {es' : List Expression} {w last : Expression}

/-- Every expression before the last is smaller than the sequence. -/
theorem sizeOf_lt_rightNest (te : Option TypeExpression) (h : w ∈ es) (last : Expression) :
    sizeOf w < sizeOf (rightNest te es last) := by
  induction es with
  | nil => cases h
  | cons e es ih =>
    have hnode := sizeOf_sequenceNode te e (rightNest te es last)
    rcases List.mem_cons.1 h with rfl | h
    · exact hnode.1
    · exact (ih h).trans hnode.2

/-- The lists that a nest on `e :: es` evaluates, if they end with the last element before its
bottom. -/
theorem InSequence.of_rightNest_cons
    (h : InSequence te (es' ++ [w]) (rightNest te (e :: es) last))
    (hw : (e :: es).getLast? = some w) :
    ∃ l r, es' = l ++ r ∧ InSequence te l e ∧ InSequence te (r ++ [w]) (rightNest te es last) := by
  rcases inSequence_node h with hone | ⟨l, r, heq, hl, hr⟩
  · have hmem : w ∈ es' ++ [w] := List.mem_append_right _ List.mem_cons_self
    rw [hone] at hmem
    -- the nest would be one of its own parts
    have hsize := sizeOf_lt_rightNest te (List.mem_of_getLast? hw) last
    rw [List.mem_singleton.1 hmem] at hsize
    exact (lt_irrefl _ hsize).elim
  · obtain hnil | ⟨r, x, rfl⟩ := r.eq_nil_or_concat'
    · exact (hr.ne_nil hnil).elim
    · rw [← List.append_assoc] at heq
      obtain ⟨rfl, hx⟩ := List.append_inj' heq rfl
      obtain rfl := (List.singleton_inj.1 hx)
      exact ⟨l, r, rfl, hl, hr⟩

/-- The last one does not depend on the first. -/
theorem getLast?_of_cons {x : Expression} (hw : (x :: es).getLast? = some w) (hes : es ≠ []) :
    es.getLast? = some w := by
  obtain ⟨y, l, rfl⟩ := List.exists_cons_of_ne_nil hes
  rwa [List.getLast?_cons_cons] at hw

/-- The last element before the bottom lies as deep as the nest is long. -/
theorem InSequence.length_le_of_rightNest
    (h : InSequence te (es' ++ [w]) (rightNest te es last)) (hw : es.getLast? = some w) :
    es.length ≤ es'.length := by
  induction es generalizing es' with
  | nil => exact Nat.zero_le _
  | cons e es ih =>
    obtain ⟨l, r, rfl, hl, hr⟩ := h.of_rightNest_cons hw
    have hpos := List.length_pos_of_ne_nil hl.ne_nil
    have hle : es.length ≤ r.length := by
      by_cases hes : es = []
      · subst hes
        exact Nat.zero_le _
      · exact ih hr (getLast?_of_cons hw hes)
    rw [List.length_cons, List.length_append]
    omega

/-- A nest that leans to the right evaluates its own list only. -/
theorem InSequence.eq_of_rightNest
    (h : InSequence te (es' ++ [w]) (rightNest te es last)) (hw : es.getLast? = some w)
    (hlen : es'.length = es.length) : es' ++ [w] = es ++ [last] := by
  induction es generalizing es' with
  | nil => cases hw
  | cons e es ih =>
    -- the elements split into those of the head and those of the nest behind it
    obtain ⟨l, r, rfl, hl, hr⟩ := h.of_rightNest_cons hw
    have hpos := List.length_pos_of_ne_nil hl.ne_nil
    rw [List.length_append, List.length_cons] at hlen
    by_cases hes : es = []
    · subst hes
      obtain rfl : r = [] := List.eq_nil_of_length_eq_zero (by rw [List.length_nil] at hlen; omega)
      obtain ⟨y, rfl⟩ := List.length_eq_one_iff.1 hlen
      rw [inSequence_singleton hl, inSequence_singleton hr]
      rfl
    · have hw' := getLast?_of_cons hw hes
      have hle := hr.length_le_of_rightNest hw'
      obtain ⟨y, rfl⟩ := List.length_eq_one_iff.1 (show l.length = 1 by omega)
      rw [List.length_singleton] at hlen
      rw [List.append_assoc, ih hr hw' (by omega), inSequence_singleton hl]
      rfl

end Right

end Ligo.AstSimplified
