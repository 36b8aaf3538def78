import Ligo.AstTyped.Clauses
import Ligo.Transpiler.Expression
import Ligo.Typer.Covered

/-!
# No match lacks a clause

The transpiler looks up the clause of every constructor of the sum of a match, and fails
with an error of its own when there is none. On expressions whose matches have all their
clauses (`Covered`) it does not (`clean_translate`): it still fails where a type or a
construct has no translation, but each of these errors is another one (`Clean`). The
programs that the type checker returns are such, and so are the bodies that an entry point
puts together from their declarations (`clean_translateEntry`).
-/

namespace Ligo.Transpiler

open AstTyped
open Fuel (bind_eq_ok map_eq_ok map₂_eq_ok)

/-- The error of a match that has no clause for a constructor. -/
def missingMatchClause : String := "not supposed to happen here: missing match clause"

/-- The computation does not fail for want of a clause. -/
def Clean {α : Type} (r : Result α) : Prop := ∀ errs, r = .error errs → missingMatchClause ∉ errs

/-! ### Computations without that error -/

section Clean

variable {α β : Type} {r : Result α} {title : String}

/-- A result is clean. -/
theorem clean_ok (a : α) : Clean (.ok a : Result α) := nofun

/-- An error is clean when no part of it names a missing clause. -/
theorem clean_error {errs : List String} (h : missingMatchClause ∉ errs) :
    Clean (.error errs : Result α) := by
  rintro _ ⟨⟩
  exact h

/-- In a chain every step has to be clean, on what the steps before it return. -/
theorem clean_bind {f : α → Result β} (hr : Clean r) (hf : ∀ a, r = .ok a → Clean (f a)) :
    Clean (r >>= f) := by
  cases r with
  | ok a => exact hf a rfl
  | error errs => exact clean_error (hr errs rfl)

theorem clean_simpleFail (h : missingMatchClause ≠ title) :
    Clean (simpleFail title : Result α) :=
  clean_error (by simpa using h)

/-- A title of another text adds nothing. -/
theorem clean_trace (h : missingMatchClause ≠ title) (hr : Clean r) : Clean (trace title r) := by
  cases r with
  | ok a => exact clean_ok a
  | error errs => exact clean_error (List.not_mem_cons_of_ne_of_not_mem h (hr errs rfl))

/-- A title that replaces the errors. -/
theorem clean_traceStrong (h : missingMatchClause ≠ title) : Clean (traceStrong title r) := by
  cases r with
  | ok a => exact clean_ok a
  | error errs => exact clean_error (by simpa using h)

theorem clean_traceOption (h : missingMatchClause ≠ title) (o : Option α) :
    Clean (traceOption title o) := by
  cases o with
  | some a => exact clean_ok a
  | none => exact clean_error (by simpa using h)

/-- The first error of a list is the error of one of its elements. -/
theorem clean_bindList {rs : List (Result α)} (h : ∀ r ∈ rs, Clean r) : Clean (bindList rs) := by
  induction rs with
  | nil => exact clean_ok _
  | cons r rs ih =>
    obtain ⟨hr, hrs⟩ := List.forall_mem_cons.1 h
    exact clean_bind hr fun _ _ => clean_bind (ih hrs) fun _ _ => clean_ok _

/-- A fold is clean when each of its steps is. -/
theorem clean_foldlM {f : β → α → Result β} (hf : ∀ b a, Clean (f b a)) (l : List α) (b : β) :
    Clean (l.foldlM f b) := by
  induction l generalizing b with
  | nil => exact clean_ok b
  | cons a l ih =>
    rw [List.foldlM_cons]
    exact clean_bind (hf b a) fun b' _ => ih b'

/-- A fold over a tree, leaf by leaf and node by node. -/
theorem clean_foldNe {leaf : α → Result β} {node : β → β → Result β} {l : List α}
    (hleaf : ∀ a ∈ l, Clean (leaf a)) (hnode : ∀ a b, Clean (node a b)) :
    Clean (foldNe leaf node (AppendTree.ofList l)) := by
  cases ht : AppendTree.ofList l with
  | none => exact clean_simpleFail (by decide)
  | some t =>
    rw [foldNe]
    rw [← AppendTree.toList_ofList ht] at hleaf
    clear ht
    induction t with
    | leaf x => exact hleaf x List.mem_cons_self
    | node a b size full iha ihb =>
      have ha := iha fun x hx => hleaf x (List.mem_append_left _ hx)
      have hb := ihb fun x hx => hleaf x (List.mem_append_right _ hx)
      exact clean_bind ha fun _ _ => clean_bind hb fun _ _ => hnode _ _

end Clean

/-! ### Types -/

theorem clean_getTSum (t : TypeValue) : Clean (getTSum t) := by
  cases t with
  | tSum m => exact clean_ok m
  | _ => exact clean_simpleFail (by decide)

theorem clean_getTTuple (t : TypeValue) : Clean (getTTuple t) := by
  cases t with
  | tTuple lst => exact clean_ok lst
  | _ => exact clean_simpleFail (by decide)

theorem clean_getTRecord (t : TypeValue) : Clean (getTRecord t) := by
  cases t with
  | tRecord m => exact clean_ok m
  | _ => exact clean_simpleFail (by decide)

theorem clean_assertAllEq {ta : List TypeValue}
    (ih : ∀ t ∈ ta, ∀ u, Clean (assertTypeValueEq t u)) (tb : List TypeValue) :
    Clean (assertAllEq ta tb) := by
  induction ta generalizing tb with
  | nil => cases tb <;> exact clean_ok _
  | cons a ta ihta =>
    cases tb with
    | nil => exact clean_ok _
    | cons b tb =>
      have htail := ihta (fun t ht => ih t (List.mem_cons_of_mem _ ht)) tb
      rw [assertAllEq]
      exact clean_bind (ih a List.mem_cons_self b) fun _ _ => htail

theorem clean_assertFieldsEq {msg : String} (hmsg : missingMatchClause ≠ msg)
    {sa : List (String × TypeValue)} (ih : ∀ x ∈ sa, ∀ u, Clean (assertTypeValueEq x.2 u))
    (sb : List (String × TypeValue)) : Clean (assertFieldsEq msg sa sb) := by
  induction sa generalizing sb with
  | nil => cases sb <;> exact clean_ok _
  | cons a sa ihsa =>
    cases sb with
    | nil => exact clean_ok _
    | cons b sb =>
      have htail := ihsa (fun x hx => ih x (List.mem_cons_of_mem _ hx)) sb
      rw [assertFieldsEq]
      refine clean_bind htail fun _ _ => clean_bind ?_ fun _ _ => ih a List.mem_cons_self b.2
      rw [assertTrueMsg]
      split
      · exact clean_ok _
      · exact clean_simpleFail hmsg

/-- Comparing types names fields and types only; by induction on the first type. -/
theorem clean_assertTypeValueEq (a b : TypeValue) : Clean (assertTypeValueEq a b) := by
  -- along the first type; every comparison comes after a check that has another message
  induction a using TypeValue.ind generalizing b with
  | tuple ta ih =>
    cases b with
    | tTuple tb =>
      rw [assertTypeValueEq]
      exact clean_bind (clean_traceStrong (by decide)) fun _ _ => clean_assertAllEq ih tb
    | _ => exact clean_simpleFail (by decide)
  | sum sa ih =>
    cases b with
    | tSum sb =>
      rw [assertTypeValueEq]
      refine clean_bind (clean_traceStrong (by decide)) fun _ _ => ?_
      exact clean_trace (by decide) (clean_assertFieldsEq (by decide) ih sb)
    | _ => exact clean_simpleFail (by decide)
  | record ra ih =>
    cases b with
    | tRecord rb =>
      rw [assertTypeValueEq]
      refine clean_bind (clean_traceStrong (by decide)) fun _ _ => ?_
      exact clean_trace (by decide) (clean_assertFieldsEq (by decide) ih rb)
    | _ => exact clean_simpleFail (by decide)
  | constant ca lsta ih =>
    cases b with
    | tConstant cb lstb =>
      rw [assertTypeValueEq]
      refine clean_bind (clean_traceStrong (by decide)) fun _ _ => ?_
      refine clean_bind (clean_traceStrong (by decide)) fun _ _ => ?_
      exact clean_trace (by decide) (clean_assertAllEq ih lstb)
    | _ => exact clean_simpleFail (by decide)
  | function param result ihp ihr =>
    cases b with
    | tFunction param' result' =>
      rw [assertTypeValueEq]
      exact clean_bind (ihp _) fun _ _ => ihr _
    | _ => exact clean_simpleFail (by decide)

theorem clean_getTPair (t : MiniC.TypeValue) : Clean (MiniC.getTPair t) := by
  cases t with
  | tPair a b => exact clean_ok (a, b)
  | _ => exact clean_simpleFail (by decide)

theorem clean_translateTypeConstant (name : String) {lst : List (Result MiniC.TypeValue)}
    (h : ∀ r ∈ lst, Clean r) : Clean (translateTypeConstant name lst) := by
  unfold translateTypeConstant
  split
  case h_9 x | h_11 t | h_12 o =>
    exact clean_bind (h _ List.mem_cons_self) fun _ _ => clean_ok _
  case h_10 key value =>
    have hvalue := h value (List.mem_cons_of_mem _ List.mem_cons_self)
    exact clean_bind (h _ List.mem_cons_self) fun _ _ => clean_bind hvalue fun _ _ => clean_ok _
  case h_13 => exact clean_simpleFail (by decide)
  all_goals exact clean_ok _

/-- Translating a type never meets a match. By induction on the type, with the list lemma at
every node. -/
theorem clean_translateType (t : TypeValue) : Clean (translateType t) := by
  -- the only errors are those of empty products, of type constants and of their parts
  induction t using TypeValue.ind with
  | tuple lst ih =>
    rw [translateType, translateTypes_eq]
    refine clean_foldNe (fun r hr => ?_) fun _ _ => clean_ok _
    obtain ⟨t, ht, rfl⟩ := List.mem_map.1 hr
    exact ih t ht
  | sum m ih | record m ih =>
    rw [translateType, translateFieldTypes_eq]
    refine clean_foldNe (fun r hr => ?_) fun _ _ => clean_ok _
    obtain ⟨x, hx, rfl⟩ := List.mem_map.1 hr
    exact ih x hx
  | constant name lst ih =>
    rw [translateType, translateTypes_eq]
    refine clean_translateTypeConstant name fun r hr => ?_
    obtain ⟨t, ht, rfl⟩ := List.mem_map.1 hr
    exact ih t ht
  | function a b iha ihb =>
    rw [translateType]
    exact clean_bind iha fun _ _ => clean_bind ihb fun _ _ => clean_ok _

theorem clean_translateTypes (lst : List TypeValue) : Clean (bindList (translateTypes lst)) := by
  rw [translateTypes_eq]
  refine clean_bindList fun r hr => ?_
  obtain ⟨t, -, rfl⟩ := List.mem_map.1 hr
  exact clean_translateType t

theorem clean_translateTypeMap (m : List (String × TypeValue)) : Clean (translateTypeMap m) := by
  refine clean_bindList fun r hr => ?_
  obtain ⟨x, -, rfl⟩ := List.mem_map.1 hr
  exact clean_bind (clean_translateType x.2) fun _ _ => clean_ok _

/-! ### Paths and environments -/

theorem clean_accessStep {getPair : MiniC.TypeValue → Result (MiniC.TypeValue × MiniC.TypeValue)}
    (h : ∀ t, Clean (getPair t)) (x : MiniC.TypeValue × List (MiniC.TypeValue × MiniC.Step))
    (cur : MiniC.Step) : Clean (accessStep getPair x cur) := by
  refine clean_bind (h _) fun p _ => ?_
  cases cur <;> exact clean_ok _

/-- Paths into tuples and records fail on missing components only. -/
theorem clean_tupleAccessToLr (ty : MiniC.TypeValue) (tys : List MiniC.TypeValue) (ind : ℕ) :
    Clean (tupleAccessToLr ty tys ind) := by
  refine clean_bind (clean_traceOption (by decide) _) fun path _ => ?_
  refine clean_bind (clean_foldlM (clean_accessStep fun t => ?_) _ _) fun _ _ => clean_ok _
  exact clean_traceStrong (by decide)

theorem clean_recordAccessToLr (ty : MiniC.TypeValue) (tym : List (String × MiniC.TypeValue))
    (ind : String) : Clean (recordAccessToLr ty tym ind) := by
  refine clean_bind (clean_traceOption (by decide) _) fun path _ => ?_
  exact clean_bind (clean_foldlM (clean_accessStep clean_getTPair) _ _) fun _ _ => clean_ok _

theorem clean_assignStep (x : TypeValue × List MiniC.Step) (cur : Access) :
    Clean (assignStep x cur) := by
  refine clean_bind (clean_translateType _) fun ty' _ => ?_
  cases cur with
  | tuple ind =>
    refine clean_bind (clean_getTTuple _) fun _ _ => ?_
    refine clean_bind (clean_translateTypes _) fun _ _ => ?_
    refine clean_bind (clean_tupleAccessToLr _ _ _) fun _ _ => ?_
    exact clean_bind (clean_traceOption (by decide) _) fun _ _ => clean_ok _
  | record prop =>
    refine clean_bind (clean_trace (by decide) (clean_getTRecord _)) fun _ _ => ?_
    refine clean_bind (clean_translateTypeMap _) fun _ _ => ?_
    refine clean_bind (clean_recordAccessToLr _ _ _) fun _ _ => ?_
    exact clean_bind (clean_traceOption (by decide) _) fun _ _ => clean_ok _
  | map key => exact clean_simpleFail (by decide)

theorem clean_transpileEnvironment (env : FullEnvironment) : Clean (transpileEnvironment env) := by
  -- an environment is translated with the closures in it, so the induction is mutual
  refine transpileEnvironment.induct (fun ele => Clean (transpileEnvironmentElementType ele))
    (fun env => Clean (transpileEnvironment env))
    (fun lst => Clean (transpileSmallEnvironments lst))
    (fun x => Clean (transpileSmallElements x)) ?closure ?element ?full ?elementsNil
    ?elementsCons ?smallNil ?smallCons env
  case closure =>
    intro f arg e t env x fvs ih
    rw [transpileEnvironmentElementType]
    refine clean_bind (clean_translateType f) fun _ _ => ?_
    exact clean_bind (clean_translateType arg) fun _ _ => clean_bind ih fun _ _ => clean_ok _
  case element =>
    intro t definition hne
    rw [transpileEnvironmentElementType]
    · exact clean_translateType t
    · exact hne
  case full =>
    intro hd tl ihhd ihtl
    rw [transpileEnvironment]
    refine clean_bind (clean_trace (by decide) ihhd) fun _ _ => ?_
    exact clean_bind ihtl fun _ _ => clean_ok _
  case elementsNil => exact clean_ok _
  case elementsCons =>
    intro name ele x ihx ihele
    rw [transpileSmallElements]
    exact clean_bind ihx fun _ _ => clean_bind ihele fun _ _ => clean_ok _
  case smallNil => exact clean_ok _
  case smallCons =>
    intro x lst ihx ihlst
    rw [transpileSmallEnvironments]
    refine clean_bind (clean_trace (by decide) ihx) fun _ _ => ?_
    exact clean_bind ihlst fun _ _ => clean_ok _

theorem clean_transpileEnvironmentElementType (ele : EnvironmentElement) :
    Clean (transpileEnvironmentElementType ele) := by
  fun_cases transpileEnvironmentElementType ele with
  | case1 f arg e t env x fvs =>
    refine clean_bind (clean_translateType f) fun _ _ => ?_
    refine clean_bind (clean_translateType arg) fun _ _ => ?_
    exact clean_bind (clean_transpileEnvironment env) fun _ _ => clean_ok _
  | case2 t => exact clean_translateType t

/-! ### Matches -/

/-- The constructors at the leaves. -/
def MatchTree.names : MatchTree → List String
  | leaf constructorName _ => [constructorName]
  | node a b _ => a.names ++ b.names

/-- The tree of a match keeps the names of the constructors, in the order of the tree of the
sum. -/
theorem matchTree_names {t : AppendTree (String × TypeValue)} {t' : MatchTree}
    (h : matchTree t = .ok t') : t'.names = t.toList.map Prod.fst := by
  induction t generalizing t' with
  | leaf x =>
    obtain ⟨tv, -, rfl⟩ := map_eq_ok.1 h
    rfl
  | node a b size full iha ihb =>
    obtain ⟨a', b', ha, hb, rfl⟩ := map₂_eq_ok.1 h
    rw [MatchTree.names, iha ha, ihb hb, AppendTree.toList, List.map_append]

/-- The match on a sum translates the types of its constructors and nothing else. -/
theorem clean_matchTree (t : AppendTree (String × TypeValue)) : Clean (matchTree t) := by
  induction t with
  | leaf x => exact clean_bind (clean_translateType x.2) fun _ _ => clean_ok _
  | node a b size full iha ihb =>
    exact clean_bind iha fun _ _ => clean_bind ihb fun _ _ => clean_ok _

theorem clean_getTLeft (t : MiniC.TypeValue) : Clean (MiniC.getTLeft t) := by
  cases t with
  | tOr a b => exact clean_ok a
  | _ => exact clean_simpleFail (by decide)

theorem clean_getTRight (t : MiniC.TypeValue) : Clean (MiniC.getTRight t) := by
  cases t with
  | tOr a b => exact clean_ok b
  | _ => exact clean_simpleFail (by decide)

/-- Every leaf finds its clause. -/
theorem clean_matchVariant {lst : List ((String × String) × Result MiniC.Expression)}
    {ty : MiniC.TypeValue} {t : MatchTree} (hclauses : ∀ n ∈ t.names, n ∈ lst.map fun c => c.1.1)
    (hbodies : ∀ c ∈ lst, Clean c.2) (top : MiniC.Expression) :
    Clean (matchVariant lst ty top t) := by
  induction t generalizing top with
  | leaf n tv =>
    -- the constructor of the leaf has a clause, so the search succeeds
    obtain ⟨c, hc, hn⟩ := List.mem_map.1 (hclauses n List.mem_cons_self)
    have hfound : (lst.find? fun x => x.1.1 == n).isSome := by
      rw [List.find?_isSome]
      exact ⟨c, hc, beq_iff_eq.2 hn⟩
    obtain ⟨d, hd⟩ := Option.isSome_iff_exists.1 hfound
    rw [matchVariant, hd]
    refine clean_bind (clean_ok d) fun d' hd' => ?_
    obtain rfl := Except.ok.inj hd'
    exact clean_bind (hbodies d (List.mem_of_find?_eq_some hd)) fun _ _ => clean_ok _
  | node a b tv iha ihb =>
    -- the two halves name fewer constructors
    have ha := fun n hn => hclauses n (List.mem_append_left _ hn)
    have hb := fun n hn => hclauses n (List.mem_append_right _ hn)
    refine clean_bind (clean_getTLeft tv) fun _ _ => clean_bind (iha ha _) fun _ _ => ?_
    exact clean_bind (clean_getTRight tv) fun _ _ => clean_bind (ihb hb _) fun _ _ => clean_ok _

/-! ### Expressions -/

theorem clean_getTOption (t : MiniC.TypeValue) : Clean (getTOption t) := by
  cases t with
  | tOption t => exact clean_ok t
  | _ => exact clean_simpleFail (by decide)

theorem clean_getTList (t : MiniC.TypeValue) : Clean (getTList t) := by
  cases t with
  | tList t => exact clean_ok t
  | _ => exact clean_simpleFail (by decide)

theorem clean_getTMap (t : MiniC.TypeValue) : Clean (MiniC.getTMap t) := by
  cases t with
  | tMap k v => exact clean_ok (k, v)
  | _ => exact clean_simpleFail (by decide)

theorem clean_constructorNode (a b : Option MiniC.Expression' × MiniC.TypeValue) :
    Clean (constructorNode a b) := by
  obtain ⟨_ | _, _⟩ := a <;> obtain ⟨_ | _, _⟩ := b
  case some.some => exact clean_simpleFail (by decide)
  all_goals exact clean_ok _

theorem clean_constructorLeaf {m : String} {param : AnnotatedExpression}
    {param' : MiniC.Expression} (x : String × TypeValue) :
    Clean (constructorLeaf m param param' x) := by
  rw [constructorLeaf]
  split
  · refine clean_bind (clean_trace (by decide) ?_) fun _ _ => clean_ok _
    exact clean_assertTypeValueEq _ _
  · exact clean_bind (clean_translateType x.2) fun _ _ => clean_ok _

/-- Lists, fields and entries are clean when all the expressions in them are. -/
theorem clean_translateAll {lst : List AnnotatedExpression}
    (h : ∀ ae ∈ lst, Clean (translateAnnotatedExpression ae)) :
    ∀ r ∈ translateAll lst, Clean r := by
  rw [translateAll_eq]
  intro r hr
  obtain ⟨ae, hae, rfl⟩ := List.mem_map.1 hr
  exact h ae hae

theorem clean_translateFields {m : List (String × AnnotatedExpression)}
    (h : ∀ ae ∈ m.map Prod.snd, Clean (translateAnnotatedExpression ae)) :
    ∀ r ∈ translateFields m, Clean r := by
  rw [translateFields_eq]
  intro r hr
  obtain ⟨x, hx, rfl⟩ := List.mem_map.1 hr
  exact h x.2 (List.mem_map_of_mem hx)

theorem clean_translateEntries {m : List (AnnotatedExpression × AnnotatedExpression)}
    (h : ∀ ae ∈ m.map Prod.fst ++ m.map Prod.snd, Clean (translateAnnotatedExpression ae)) :
    ∀ r ∈ translateEntries m, Clean r := by
  induction m with
  | nil => simp [translateEntries]
  | cons x m ih =>
    obtain ⟨k, v⟩ := x
    have hk := h k (by simp)
    have hv := h v (by simp)
    have hrec := ih fun ae hae => h ae (by
      obtain hae | hae := List.mem_append.1 hae
      · exact List.mem_append_left _ (List.mem_cons_of_mem _ hae)
      · exact List.mem_append_right _ (List.mem_cons_of_mem _ hae))
    rw [translateEntries]
    refine List.forall_mem_cons.2 ⟨?_, hrec⟩
    refine clean_bind hk fun _ _ => clean_bind (clean_translateType _) fun _ _ => ?_
    exact clean_bind hv fun _ _ => clean_ok _

/-- A function is clean when its body is. -/
theorem clean_translateLambda {env : MiniC.Environment} {b : String} {i o : TypeValue}
    {r : AnnotatedExpression} (h : Clean (translateAnnotatedExpression r)) :
    Clean (translateLambda env (.mk b i o r)) := by
  rw [translateLambda]
  split
  · refine clean_bind h fun _ _ => clean_trace (by decide) ?_
    refine clean_bind (clean_translateType i) fun _ _ => ?_
    exact clean_bind (clean_translateType o) fun _ _ => clean_ok _
  · refine clean_trace (by decide) ?_
    refine clean_bind (clean_translateType i) fun _ _ => ?_
    exact clean_bind (clean_translateType o) fun _ _ => clean_bind h fun _ _ => clean_ok _

/-- The clauses of a match that covers its sum are found. -/
theorem clean_translateMatching {expr' : MiniC.Expression} {tv : MiniC.TypeValue}
    {m : MatchingExpr} (here : m.Covers)
    (h : ∀ b ∈ m.bodies, Clean (translateAnnotatedExpression b)) :
    Clean (translateMatching expr' tv m) := by
  cases m with
  | matchBool t f =>
    rw [translateMatching]
    refine clean_bind (h t (by simp [MatchingExpr.bodies])) fun _ _ => ?_
    exact clean_bind (h f (by simp [MatchingExpr.bodies])) fun _ _ => clean_ok _
  | matchOption n name ty s =>
    rw [translateMatching]
    refine clean_bind (h n (by simp [MatchingExpr.bodies])) fun _ _ => ?_
    refine clean_bind (clean_translateType ty) fun _ _ => ?_
    exact clean_bind (h s (by simp [MatchingExpr.bodies])) fun _ _ => clean_ok _
  | matchList n hd tl c => exact clean_simpleFail (by decide)
  | matchTuple lst b => exact clean_simpleFail (by decide)
  | matchVariant lst variant =>
    rw [translateMatching]
    -- the tree of the match is the tree of the sum, whose constructors all have clauses
    refine clean_bind (clean_bind (clean_getTSum variant) fun _ _ => clean_ok _) fun tree htree => ?_
    obtain ⟨m, hm, htree⟩ := bind_eq_ok.1 htree
    cases variant <;> cases hm
    cases htree
    refine clean_bind (clean_traceOption (by decide) _) fun tree' htree' => ?_
    refine clean_bind (clean_matchTree tree') fun tree'' htree'' => ?_
    have hsum : tree'.toList = m := AppendTree.toList_ofList (traceOption_eq_ok.1 htree')
    rw [translateCases_eq]
    refine clean_matchVariant (fun n hn => ?_) (fun c hc => ?_) expr'
    · rw [matchTree_names htree'', hsum] at hn
      obtain ⟨x, hx, rfl⟩ := List.mem_map.1 hn
      rw [List.map_map]
      exact here x hx
    · obtain ⟨x, hx, rfl⟩ := List.mem_map.1 hc
      exact h x.2 (List.mem_map_of_mem hx)

/-- The translation of an expression whose matches have all their clauses. -/
theorem clean_translate {ae : AnnotatedExpression} (h : Covered ae) :
    Clean (translateAnnotatedExpression ae) := by
  -- every error that the translation can report has another text; a missing clause is
  -- reported for a match alone, where `here` excludes it
  induction h with
  | @mk e t env here _ ih =>
    rw [translateAnnotatedExpression]
    refine clean_bind (clean_translateType t) fun tv _ => ?_
    cases e with
    | eLiteral l =>
      rw [translateExpression]
      exact clean_ok _
    | eVariable name =>
      rw [translateExpression]
      refine clean_bind (clean_traceOption (by decide) _) fun ele _ => ?_
      exact clean_bind (clean_transpileEnvironmentElementType ele) fun _ _ => clean_ok _
    | eConstant name lst =>
      rw [translateExpression]
      refine clean_bind (clean_bindList (clean_translateAll ih)) fun lst' _ => ?_
      split
      · exact clean_bind (clean_getTOption tv) fun _ _ => clean_ok _
      · exact clean_ok _
    | eTuple lst =>
      rw [translateExpression]
      exact clean_foldNe (clean_translateAll ih) fun _ _ => clean_ok _
    | eRecord m =>
      rw [translateExpression]
      exact clean_foldNe (clean_translateFields ih) fun _ _ => clean_ok _
    | eList lst =>
      rw [translateExpression]
      refine clean_bind (clean_getTList tv) fun _ _ => ?_
      exact clean_bind (clean_bindList (clean_translateAll ih)) fun _ _ => clean_ok _
    | eMap m =>
      rw [translateExpression]
      refine clean_bind (clean_getTMap tv) fun _ _ => ?_
      exact clean_bind (clean_bindList (clean_translateEntries ih)) fun _ _ => clean_ok _
    | eFailwith ae =>
      rw [translateExpression]
      exact clean_bind (ih ae (by simp [Expression.parts])) fun _ _ => clean_ok _
    | eAssign name path ae =>
      rw [translateExpression]
      refine clean_bind (clean_foldlM clean_assignStep _ _) fun _ _ => ?_
      exact clean_bind (ih ae (by simp [Expression.parts])) fun _ _ => clean_ok _
    | eConstructor c ae =>
      rw [translateExpression]
      refine clean_bind (ih ae (by simp [Expression.parts])) fun ae' _ => ?_
      refine clean_bind (clean_bind (clean_getTSum t) fun _ _ => clean_ok _) fun tree htree => ?_
      obtain ⟨m, -, rfl⟩ := map_eq_ok.1 htree
      refine clean_bind (clean_foldNe (fun x _ => clean_constructorLeaf x)
        clean_constructorNode) fun o _ => ?_
      exact clean_bind (clean_traceOption (by decide) _) fun _ _ => clean_ok _
    | eTupleAccessor ae ind =>
      rw [translateExpression]
      refine clean_bind (clean_translateType _) fun _ _ => ?_
      refine clean_bind (clean_getTTuple _) fun _ _ => ?_
      refine clean_bind (clean_translateTypes _) fun _ _ => ?_
      refine clean_bind (clean_tupleAccessToLr _ _ _) fun _ _ => ?_
      exact clean_bind (ih ae (by simp [Expression.parts])) fun _ _ => clean_ok _
    | eRecordAccessor ae prop =>
      rw [translateExpression]
      refine clean_bind (clean_translateType _) fun _ _ => ?_
      refine clean_bind (clean_getTRecord _) fun _ _ => ?_
      refine clean_bind (clean_translateTypeMap _) fun _ _ => ?_
      refine clean_bind (clean_recordAccessToLr _ _ _) fun _ _ => ?_
      exact clean_bind (ih ae (by simp [Expression.parts])) fun _ _ => clean_ok _
    | eLambda l =>
      obtain ⟨b, i, o, r⟩ := l
      rw [translateExpression]
      refine clean_bind (clean_transpileEnvironment env) fun _ _ => ?_
      exact clean_translateLambda (ih r (by simp [Expression.parts]))
    | eMatching ae m =>
      rw [translateExpression]
      refine clean_bind (ih ae (by simp [Expression.parts])) fun _ _ => ?_
      exact clean_translateMatching here fun b hb => ih b (List.mem_cons_of_mem _ hb)
    | eApplication a b | eLetIn x a b | eLookUp a b | eSequence a b | eLoop a b =>
      rw [translateExpression]
      refine clean_bind (ih a (by simp [Expression.parts])) fun _ _ => ?_
      exact clean_bind (ih b (by simp [Expression.parts])) fun _ _ => clean_ok _

/-! ### Programs -/

/-- In what the type checker returns for a program, every match has its clauses. -/
theorem typeDeclarations_covered {e : Typer.Environment} {p : AstSimplified.Program}
    {p' : Program} (h : Typer.typeDeclarations e p = .ok p') :
    ∀ d ∈ p', Covered d.annotatedExpression := by
  induction p generalizing e p' with
  | nil =>
    cases h
    simp
  | cons d p ih =>
    -- a declaration of a type leaves no expression, one of a constant leaves its expression
    obtain ⟨⟨e', d'⟩, hd, h⟩ := bind_eq_ok.1 h
    obtain ⟨rest, hrest, hret⟩ := bind_eq_ok.1 h
    have hcovered := ih hrest
    cases d with
    | declarationType name te =>
      obtain ⟨tv, -, hd⟩ := bind_eq_ok.1 hd
      cases hd
      cases hret
      exact hcovered
    | declarationConstant name te expr =>
      obtain ⟨tvOpt, -, hd⟩ := bind_eq_ok.1 hd
      obtain ⟨ae, hae, hd⟩ := bind_eq_ok.1 hd
      cases hd
      cases hret
      have hae := Typer.typeExpression_covered expr _ _ _ (trace_eq_ok.1 hae)
      exact List.forall_mem_cons.2 ⟨hae, hcovered⟩

/-- The body of an entry point, with the declarations before it bound around it. -/
theorem clean_translateMain_entryLambda {acc : AnnotatedExpression → AnnotatedExpression}
    (hacc : ∀ ae, Covered ae → Covered (acc ae)) {ae : AnnotatedExpression} (h : Covered ae) :
    Clean (translateMain (entryLambda acc ae)) := by
  have hmain : ∀ {b i o r}, Covered r → Clean (translateMain (.mk b i o r)) := by
    intro b i o r hr
    refine clean_bind (clean_translateLambda (clean_translate hr)) fun expr _ => ?_
    split
    · exact clean_ok _
    · exact clean_simpleFail (by decide)
  obtain ⟨e, t, env⟩ := ae
  cases e with
  | eLambda l =>
    obtain ⟨b, i, o, r⟩ := l
    cases h with
    | mk _ parts => exact hmain (hacc r (parts r (by simp [Expression.parts])))
  | _ => exact hmain (hacc _ h)

/-- The entry point is translated under the declarations before it, which `acc` collects; what
it wraps around the body stays covered. -/
theorem clean_translateEntryAux {name : String} {p : Program}
    (hp : ∀ d ∈ p, Covered d.annotatedExpression)
    {acc : AnnotatedExpression → AnnotatedExpression}
    (hacc : ∀ ae, Covered ae → Covered (acc ae)) : Clean (translateEntryAux name acc p) := by
  induction p generalizing acc with
  | nil => exact clean_simpleFail (by decide)
  | cons d p ih =>
    obtain ⟨hd, hrest⟩ := List.forall_mem_cons.1 hp
    rw [translateEntryAux]
    split
    · exact clean_translateMain_entryLambda hacc hd
    · refine ih hrest fun ae hae => hacc _ ?_
      refine .mk trivial (List.forall_mem_cons.2 ⟨hd, ?_⟩)
      exact List.forall_mem_singleton.2 hae

/-- The entry point of a program that the type checker returns. -/
theorem clean_translateEntry {p : AstSimplified.Program} {p' : Program} {name : String}
    (h : Typer.typeProgram p = .ok p') : Clean (translateEntry p' name) :=
  clean_translateEntryAux (typeDeclarations_covered (trace_eq_ok.1 h)) fun _ => id

/-- The type checker accepts the lists of clauses that name every constructor of one sum
once, so on what it returns the transpiler finds every clause. -/
theorem matches_exhaustive :
    (∀ (e : Typer.WfEnvironment) (lst : List ((String × String) × AstSimplified.Expression)),
      lst ≠ [] → Typer.BodiesTyped e.1 lst →
      ((∃ m', Typer.typeMatchVariant e.1 (lst.map fun x => x.1.1)
          (Typer.typeCases e.1 lst) = .ok m') ↔
        Typer.Exhaustive e.1 (lst.map fun x => x.1.1))) ∧
    (∀ e tvOpt expr ae, Typer.typeExpression e tvOpt expr = .ok ae →
      Clean (translateAnnotatedExpression ae)) ∧
    (∀ p p' name, Typer.typeProgram p = .ok p' → Clean (translateEntry p' name)) := by
  refine ⟨fun e lst hne hbodies => ?_, fun e tvOpt expr ae h => ?_, fun p p' name h => ?_⟩
  · exact Typer.typeMatchVariant_isOk_iff e.2 hne hbodies
  · exact clean_translate (Typer.typeExpression_covered expr e tvOpt ae h)
  · exact clean_translateEntry h

/-- A sum of two constructors. -/
def signs : Typer.Environment :=
  .addType "sign" (.tSum [("Minus", tNat), ("Plus", tNat)]) .fullEmpty

/-- The clauses of a sum of two constructors, in the opposite order. -/
theorem matches_exhaustive_signs :
    ∃ m', Typer.typeMatchVariant signs ["Plus", "Minus"] (Typer.typeCases signs
      [(("Plus", "n"), .eVariable "n"), (("Minus", "n"), .eVariable "n")]) = .ok m' := by
  have hsum : (TypeValue.tSum [("Minus", tNat), ("Plus", tNat)]).Wf :=
    .sum (by decide) (by simp [tNat, TypeValue.Wf.constant])
  have hwf : signs.Wf := by
    simpa [signs, Typer.Environment.Wf, Typer.Environment.addType, Typer.Environment.fullEmpty]
      using hsum
  refine (matches_exhaustive.1 ⟨signs, hwf⟩
    [(("Plus", "n"), .eVariable "n"), (("Minus", "n"), .eVariable "n")] (by simp) ?_).2 ?_
  · intro x hx c V _
    obtain rfl | rfl : x = _ ∨ x = _ := by simpa using hx
    · exact ⟨_, rfl⟩
    · exact ⟨_, rfl⟩
  · refine ⟨[("Minus", tNat), ("Plus", tNat)], fun n hn => ?_, .swap _ _ _⟩
    obtain rfl | rfl : n = _ ∨ n = _ := by simpa using hn
    · exact ⟨_, rfl⟩
    · exact ⟨_, rfl⟩

end Ligo.Transpiler
