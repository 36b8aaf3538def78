import Mathlib.Data.List.Induction
import Ligo.Compiler.Correctness
import Ligo.Transpiler.Expression

/-!
# List literals

The transpiler folds a list literal from the left, and every `CONS` of the fold takes the
list so far as its second argument: the element that is written last ends up at the head.
Since the arguments of a constant are compiled from the last to the first, the elements
are still evaluated in the order of the source.

So the value of a literal is the reversal of its elements' values
(`ends_consList`), and it is in source order exactly when these values read the same in
both directions (`list_literal_iff`).
-/

namespace Ligo.Transpiler

open AstTyped Michelson
open Fuel (bind_eq_ok)

variable {ctx : Context}

/-- The expression of a list literal, from the translated elements. -/
def consList (t tv : MiniC.TypeValue) (es : List MiniC.Expression) : MiniC.Expression :=
  es.foldl (fun prev cur => .mk (.eConstant "CONS" [cur, prev]) tv)
    (.mk (.eMakeEmptyList t) tv)

theorem consList_concat (t tv : MiniC.TypeValue) (es : List MiniC.Expression)
    (e : MiniC.Expression) :
    consList t tv (es ++ [e]) = .mk (.eConstant "CONS" [e, consList t tv es]) tv := by
  rw [consList, List.foldl_append, ← consList]
  rfl

/-- The translation of a list literal. -/
theorem translate_eList {lst : List AnnotatedExpression} {ty : TypeValue}
    {aenv : FullEnvironment} {e : MiniC.Expression}
    (h : translateAnnotatedExpression (.mk (.eList lst) ty aenv) = .ok e) :
    ∃ t tv es, translateType ty = .ok tv ∧
      List.Forall₂ (fun ae e' => translateAnnotatedExpression ae = .ok e') lst es ∧
      e = consList t tv es := by
  rw [translateAnnotatedExpression] at h
  obtain ⟨tv, htv, h⟩ := bind_eq_ok.1 h
  rw [translateExpression] at h
  obtain ⟨t, -, h⟩ := bind_eq_ok.1 h
  obtain ⟨es, hes, h⟩ := bind_eq_ok.1 h
  rw [translateAll_eq, bindList_eq_ok, List.forall₂_map_left_iff] at hes
  cases h
  exact ⟨t, tv, es, htv, hes, rfl⟩

/-! ### The code -/

/-- `c` is the code of `e` where the value of type `tv` of an enclosing expression lies on
top of the stack of `env`. -/
def CodeAbove (ctx : Context) (tv : MiniC.TypeValue) (env : MiniC.Environment)
    (e : MiniC.Expression) (c : Node) : Prop :=
  ∃ env', CompilerProgram.translateExpression ctx e (CompilerProgram.tmp tv env) = .ok (c, env')

/-- The codes of the elements, run one after the other, compute the values `vs`; what an
element does not depend on the list so far, which lies above the environment. -/
inductive ElementsEnd (ctx : Context) : List Node → Stack → List (Value Node) → Stack → Prop
  | nil (s : Stack) : ElementsEnd ctx [] s [] s
  | cons {c : Node} {cs : List Node} {s s₁ s₂ : Stack} {v : Value Node} {vs : List (Value Node)}
      (head : ∀ l, Ends ctx c (.list l :: s) (v :: .list l :: s₁))
      (tail : ElementsEnd ctx cs s₁ vs s₂) : ElementsEnd ctx (c :: cs) s (v :: vs) s₂

/-- Split off the last element. -/
theorem ElementsEnd.of_concat {cs : List Node} {c : Node} {s s' : Stack}
    {vs : List (Value Node)} (h : ElementsEnd ctx (cs ++ [c]) s vs s') :
    ∃ vs' v s₁, vs = vs' ++ [v] ∧ ElementsEnd ctx cs s vs' s₁ ∧
      ∀ l, Ends ctx c (.list l :: s₁) (v :: .list l :: s') := by
  induction cs generalizing s vs with
  | nil =>
    cases h with
    | cons head tail =>
      cases tail
      exact ⟨[], _, s, rfl, .nil s, head⟩
  | cons c' cs ih =>
    cases h with
    | cons head tail =>
      obtain ⟨vs', v, s₁, rfl, hcs, hc⟩ := ih tail
      exact ⟨_ :: vs', v, s₁, rfl, .cons head hcs, hc⟩

/-- The code of a list literal computes the elements in their order and the reversal of
their values. -/
theorem ends_consList {t tv : MiniC.TypeValue} {es : List MiniC.Expression}
    {env env' : MiniC.Environment} {code : Node}
    (h : CompilerProgram.translateExpression ctx (consList t tv es) env = .ok (code, env')) :
    env' = CompilerProgram.tmp tv env ∧
      ∃ codes, List.Forall₂ (CodeAbove ctx tv env) es codes ∧
        ∀ s vs s', ElementsEnd ctx codes s vs s' →
          Ends ctx code s (.list vs.reverse :: s') := by
  induction es using List.reverseRecOn generalizing code env' with
  | nil =>
    obtain ⟨t', -, h⟩ := bind_eq_ok.1 (trace_eq_ok.1 h)
    obtain ⟨hr, -⟩ := CompilerProgram.finish_eq_ok h
    cases hr
    refine ⟨rfl, [], .nil, ?_⟩
    rintro s vs s' ⟨⟩
    exact ends_of_step fun _ _ => step_iNil t' s
  | append_singleton es e ih =>
    rw [consList_concat] at h
    obtain ⟨⟨_, lst'⟩, hargs, h⟩ := bind_eq_ok.1 (trace_eq_ok.1 h)
    -- the list so far is compiled first, then the element above it
    obtain ⟨⟨_, _⟩, hprev, hargs⟩ := bind_eq_ok.1 hargs
    obtain ⟨_, hnil, hprev⟩ := bind_eq_ok.1 hprev
    cases hnil
    obtain ⟨⟨prev, _⟩, hprev', hprev⟩ := bind_eq_ok.1 hprev
    cases hprev
    obtain ⟨⟨c, _⟩, hc, hargs⟩ := bind_eq_ok.1 hargs
    cases hargs
    obtain ⟨henv, codes, hcodes, hrun⟩ := ih hprev'
    subst henv
    obtain ⟨_, hpredicate, h⟩ := bind_eq_ok.1 h
    cases hpredicate
    obtain ⟨_, happly, h⟩ := bind_eq_ok.1 h
    cases happly
    obtain ⟨hr, -⟩ := CompilerProgram.finish_eq_ok (trace_eq_ok.1 h)
    cases hr
    refine ⟨rfl, codes ++ [c], List.rel_append hcodes (.cons ⟨_, hc⟩ .nil), ?_⟩
    intro s vs s' hvs
    obtain ⟨vs', v, s₁, rfl, hinit, hlast⟩ := hvs.of_concat
    have hbefore := hrun s vs' s₁ hinit
    have hpre : Ends ctx (seq [prev, c]) s (v :: .list vs'.reverse :: s') :=
      ends_cons.2 ⟨_, hbefore, ends_singleton.2 (hlast _)⟩
    have hcons : Ends ctx (prim .iCons []) (v :: .list vs'.reverse :: s')
        (.list (v :: vs'.reverse) :: s') := ends_of_step fun _ _ => rfl
    rw [List.reverse_concat]
    exact ends_cons.2 ⟨_, hpre, ends_singleton.2 hcons⟩

/-- The code of a list literal computes the list in source order exactly when the values of
the elements are their own reversal. -/
theorem list_literal_iff {lst : List AnnotatedExpression} {ty : TypeValue}
    {aenv : FullEnvironment} {e : MiniC.Expression} {env env' : MiniC.Environment} {code : Node}
    (h : translateAnnotatedExpression (.mk (.eList lst) ty aenv) = .ok e)
    (hcode : CompilerProgram.translateExpression ctx e env = .ok (code, env')) :
    ∃ tv codes, translateType ty = .ok tv ∧
      List.Forall₂ (fun ae c => ∃ e', translateAnnotatedExpression ae = .ok e' ∧
        CodeAbove ctx tv env e' c) lst codes ∧
      ∀ s vs s', ElementsEnd ctx codes s vs s' →
        (Ends ctx code s (.list vs :: s') ↔ vs.reverse = vs) := by
  obtain ⟨t, tv, es, htv, hes, rfl⟩ := translate_eList h
  obtain ⟨-, codes, hcodes, hrun⟩ := ends_consList hcode
  refine ⟨tv, codes, htv, ?_, ?_⟩
  · clear hrun h hcode
    induction hes generalizing codes with
    | nil =>
      cases hcodes
      exact .nil
    | cons he _ ih =>
      cases hcodes with
      | cons hc hcs => exact .cons ⟨_, he, hc⟩ (ih _ hcs)
  · intro s vs s' hvs
    -- the code leaves the values in the reverse order
    have hrev := hrun s vs s' hvs
    constructor
    · intro hends
      have hstack := hrev.unique ctx hends
      simpa using hstack
    · intro hpal
      rw [hpal] at hrev
      exact hrev

/-! ### Literals of integers -/

/-- The literal of a list of integers. -/
def intLiteral (lst : List OInt) : AnnotatedExpression :=
  makeAEEmpty (.eList (lst.map fun n => makeAEEmpty (.eLiteral (.int n)) (.tConstant "int" [])))
    (tList (.tConstant "int" []))

/-- The code of an integer literal pushes the integer, wherever it stands. -/
theorem ends_int {n : OInt} {c : Node} {e : MiniC.Expression} {tv : MiniC.TypeValue}
    {env : MiniC.Environment}
    (he : translateAnnotatedExpression (makeAEEmpty (.eLiteral (.int n)) (.tConstant "int" [])) =
      .ok e) (hc : CodeAbove ctx tv env e c) (s : Stack) : Ends ctx c s (.int n.val :: s) := by
  cases he
  obtain ⟨_, hc⟩ := hc
  obtain ⟨_, hv, hc⟩ := bind_eq_ok.1 (trace_eq_ok.1 hc)
  cases hv
  obtain ⟨_, ht, hc⟩ := bind_eq_ok.1 hc
  cases ht
  obtain ⟨hr, -⟩ := CompilerProgram.finish_eq_ok hc
  cases hr
  refine ends_of_step fun exec m => ?_
  rw [step_iPush (τ := .comparable .int) rfl]
  rfl

theorem elementsEnd_int {lst : List OInt} {codes : List Node} {tv : MiniC.TypeValue}
    {env : MiniC.Environment}
    (h : List.Forall₂ (fun ae c => ∃ e', translateAnnotatedExpression ae = .ok e' ∧
        CodeAbove ctx tv env e' c)
      (lst.map fun n => makeAEEmpty (.eLiteral (.int n)) (.tConstant "int" [])) codes)
    (s : Stack) : ElementsEnd ctx codes s (lst.map fun n => .int n.val) s := by
  induction lst generalizing codes with
  | nil =>
    cases h
    exact .nil s
  | cons n lst ih =>
    cases h with
    | cons hc hcs =>
      obtain ⟨_, he, hc⟩ := hc
      exact .cons (fun l => ends_int he hc (.list l :: s)) (ih hcs)

/-- The code of `[1; 2; 1]` computes the list as it is written. -/
theorem palindrome_in_order :
    ∃ e code env', translateAnnotatedExpression
        (intLiteral [⟨1, by decide⟩, ⟨2, by decide⟩, ⟨1, by decide⟩]) = .ok e ∧
      CompilerProgram.translateExpression Context.empty e [] = .ok (code, env') ∧
      Ends Context.empty code [] [.list [.int 1, .int 2, .int 1]] := by
  obtain ⟨e, he⟩ : ∃ e, translateAnnotatedExpression
      (intLiteral [⟨1, by decide⟩, ⟨2, by decide⟩, ⟨1, by decide⟩]) = .ok e := ⟨_, rfl⟩
  obtain ⟨code, env', hcode⟩ : ∃ code env',
      CompilerProgram.translateExpression Context.empty e [] = .ok (code, env') := by
    cases he
    exact ⟨_, _, rfl⟩
  obtain ⟨tv, codes, -, hcodes, hiff⟩ := list_literal_iff he hcode
  exact ⟨e, code, env', he, hcode, (hiff [] _ [] (elementsEnd_int hcodes [])).2 rfl⟩

/-- The code of `[1; 2]` computes the list `2, 1`. -/
theorem pair_reversed :
    ∃ e code env', translateAnnotatedExpression
        (intLiteral [⟨1, by decide⟩, ⟨2, by decide⟩]) = .ok e ∧
      CompilerProgram.translateExpression Context.empty e [] = .ok (code, env') ∧
      Ends Context.empty code [] [.list [.int 2, .int 1]] ∧
      ¬ Ends Context.empty code [] [.list [.int 1, .int 2]] := by
  obtain ⟨e, he⟩ : ∃ e, translateAnnotatedExpression
      (intLiteral [⟨1, by decide⟩, ⟨2, by decide⟩]) = .ok e := ⟨_, rfl⟩
  obtain ⟨code, env', hcode⟩ : ∃ code env',
      CompilerProgram.translateExpression Context.empty e [] = .ok (code, env') := by
    cases he
    exact ⟨_, _, rfl⟩
  have hends : Ends Context.empty code [] [.list [.int 2, .int 1]] := by
    cases he
    cases hcode
    exact ⟨0, rfl⟩
  refine ⟨e, code, env', he, hcode, hends, fun h => ?_⟩
  have hstack := hends.unique Context.empty h
  simp at hstack

end Ligo.Transpiler
