import Ligo.AstTyped.Names
import Ligo.Transpiler.Product
import Ligo.Transpiler.ListLiteral

/-!
# The shape of a translation

`translate_ind` is induction on the expressions that translate: it says which expression
of the intermediate language comes out in each case, from the translations of the parts. A
property of the translation is one premise for each construct of the language, and the
order in which the translation does its checks is dealt with here.
-/

namespace Ligo.Transpiler

open AstTyped
open Fuel (bind_eq_ok map_eq_ok map₂_eq_ok)

/-! ### Folds over append trees -/

/-- The components of a tuple that is built, in a tree of pairs. -/
theorem foldNe_pairNode {t : AppendTree (Result MiniC.Expression)} {e : MiniC.Expression}
    (h : foldNe id pairNode (some t) = .ok e) :
    ∃ t' : AppendTree MiniC.Expression, t.toList = t'.toList.map .ok ∧
      e = t'.fold id pairExpression := by
  rw [foldNe] at h
  induction t generalizing e with
  | leaf r =>
    obtain rfl : r = .ok e := h
    exact ⟨.leaf e, rfl, rfl⟩
  | node a b size full iha ihb =>
    obtain ⟨ea, eb, ha, hb, rfl⟩ := map₂_eq_ok.1 h
    obtain ⟨ta, hta, rfl⟩ := iha ha
    obtain ⟨tb, htb, rfl⟩ := ihb hb
    refine ⟨.node ta tb size full, ?_, rfl⟩
    rw [AppendTree.toList, AppendTree.toList, hta, htb, List.map_append]

/-- Building a tuple from the translations of its components. -/
theorem foldNe_pairNode_ofList {rs : List (Result MiniC.Expression)} {e : MiniC.Expression}
    (h : foldNe id pairNode (AppendTree.ofList rs) = .ok e) :
    ∃ t' : AppendTree MiniC.Expression, rs = t'.toList.map .ok ∧
      e = t'.fold id pairExpression := by
  cases ht : AppendTree.ofList rs with
  | none =>
    rw [ht] at h
    cases h
  | some t =>
    rw [ht] at h
    obtain ⟨t', ht', he⟩ := foldNe_pairNode h
    rw [AppendTree.toList_ofList ht] at ht'
    exact ⟨t', ht', he⟩

/-- `e` is `e₀` under `LEFT`s and `RIGHT`s. -/
inductive Injects (e₀ : MiniC.Expression') : MiniC.Expression' → Prop
  | here : Injects e₀ e₀
  | left {e t} (h : Injects e₀ e) : Injects e₀ (.eConstant "LEFT" [.mk e t])
  | right {e t} (h : Injects e₀ e) : Injects e₀ (.eConstant "RIGHT" [.mk e t])

/-- What the fold for a constructor builds is an injection of the parameter. -/
theorem foldNe_constructor {m : String} {param : AnnotatedExpression}
    {param' : MiniC.Expression} {t : AppendTree (String × TypeValue)} {e : MiniC.Expression'}
    {tv : MiniC.TypeValue}
    (h : foldNe (constructorLeaf m param param') constructorNode (some t) = .ok (some e, tv)) :
    Injects param'.content e := by
  rw [foldNe] at h
  induction t generalizing e tv with
  | leaf x =>
    rw [AppendTree.fold, constructorLeaf] at h
    split at h
    · obtain ⟨_, -, h⟩ := bind_eq_ok.1 h
      cases h
      exact .here
    · obtain ⟨_, -, h⟩ := bind_eq_ok.1 h
      cases h
  | node a b size full iha ihb =>
    obtain ⟨ea, ha, h⟩ := bind_eq_ok.1 h
    obtain ⟨eb, hb, h⟩ := bind_eq_ok.1 h
    obtain ⟨oa, ta⟩ := ea
    obtain ⟨ob, tb⟩ := eb
    -- of the two halves, only one has built something
    cases oa <;> cases ob <;> cases h
    · exact .right (ihb hb)
    · exact .left (iha ha)

/-! ### Lists of translations -/

/-- Translations of the elements of a list. -/
theorem forall₂_of_translate {α : Type} {f : α → Result MiniC.Expression}
    {Q : α → MiniC.Expression → Prop} {lst : List α} {lst' : List MiniC.Expression}
    (ih : ∀ x ∈ lst, ∀ e, f x = .ok e → Q x e)
    (h : List.Forall₂ (fun r e => r = .ok e) (lst.map f) lst') : List.Forall₂ Q lst lst' := by
  rw [List.forall₂_map_left_iff] at h
  induction h with
  | nil => exact .nil
  | cons hx _ ihlst =>
    exact .cons (ih _ List.mem_cons_self _ hx)
      (ihlst fun x hx => ih x (List.mem_cons_of_mem _ hx))

theorem forall_of_forall₂ {α β : Type} {R : α → β → Prop} {P : α → Prop} {Q : β → Prop}
    {xs : List α} {ys : List β} (h : List.Forall₂ R xs ys) (hP : ∀ x ∈ xs, P x)
    (hQ : ∀ x y, R x y → P x → Q y) : ∀ y ∈ ys, Q y := by
  induction h with
  | nil => exact fun y hy => absurd hy List.not_mem_nil
  | cons hxy _ ih =>
    obtain ⟨hx, hxs⟩ := List.forall_mem_cons.1 hP
    exact List.forall_mem_cons.2 ⟨hQ _ _ hxy hx, ih hxs⟩

theorem forall₂_of_map_ok {α β : Type} {r : List (Result α)} {f : β → Result α} {xs : List β}
    {as : List α} (hr : r = xs.map f) (h : r = as.map .ok) :
    List.Forall₂ (fun r a => r = .ok a) (xs.map f) as := by
  subst hr
  rw [h, List.forall₂_map_left_iff]
  exact List.forall₂_same.2 fun _ _ => rfl

/-- Translations of the bindings of a map, with the values wrapped in a `SOME`. -/
theorem forall₂_of_translateEntries {Q : AnnotatedExpression → MiniC.Expression → Prop}
    {m : List (AnnotatedExpression × AnnotatedExpression)}
    {m' : List (MiniC.Expression × MiniC.Expression)}
    (ih : ∀ x ∈ m, (∀ e, translateAnnotatedExpression x.1 = .ok e → Q x.1 e) ∧
      ∀ e, translateAnnotatedExpression x.2 = .ok e → Q x.2 e)
    (h : List.Forall₂ (fun r e => r = .ok e) (translateEntries m) m') :
    List.Forall₂ (fun x y => Q x.1 y.1 ∧ ∃ v' tv, translateType (tOption x.2.typeAnnot) = .ok tv ∧
      Q x.2 v' ∧ y.2 = .mk (.eConstant "SOME" [v']) tv) m m' := by
  induction m generalizing m' with
  | nil =>
    cases h
    exact .nil
  | cons x m ihm =>
    obtain ⟨k, v⟩ := x
    rw [translateEntries] at h
    -- an entry translates its key, the type of the option and its value, in this order
    cases h with
    | cons hx hm =>
      obtain ⟨k', hk, hx⟩ := bind_eq_ok.1 hx
      obtain ⟨tv, v', htv, hv, rfl⟩ := map₂_eq_ok.1 hx
      obtain ⟨ihk, ihv⟩ := ih (k, v) List.mem_cons_self
      exact .cons ⟨ihk k' hk, v', tv, htv, ihv v' hv, rfl⟩
        (ihm (fun x hx => ih x (List.mem_cons_of_mem _ hx)) hm)

/-! ### Induction -/

section Induction

variable {Q : AnnotatedExpression → MiniC.Expression → Prop}

/-- Induction on the expressions that translate. -/
theorem translate_ind {ae : AnnotatedExpression} {e : MiniC.Expression}
    (h : translateAnnotatedExpression ae = .ok e)
    (literal : ∀ l t env tv, translateType t = .ok tv →
      Q (.mk (.eLiteral l) t env) (.mk (.eLiteral (translateLiteral l)) tv))
    (constant : ∀ name lst t env lst' tv, translateType t = .ok tv → List.Forall₂ Q lst lst' →
      Q (.mk (.eConstant name lst) t env) (.mk (.eConstant name lst') tv))
    (none' : ∀ t env o tv, translateType t = .ok tv → getTOption tv = .ok o →
      Q (.mk (.eConstant "NONE" []) t env) (.mk (.eMakeNone o) tv))
    (variable' : ∀ name t env ele tv, Environment.getOpt name env = some ele →
      transpileEnvironmentElementType ele = .ok tv →
      Q (.mk (.eVariable name) t env) (.mk (.eVariable name) tv))
    (application : ∀ f arg t env f' arg' tv, translateType t = .ok tv → Q f f' → Q arg arg' →
      Q (.mk (.eApplication f arg) t env) (.mk (.eApplication f' arg') tv))
    (quote : ∀ b i o r t env i' o' r', translateType i = .ok i' → translateType o = .ok o' →
      FreeVariables.annotatedExpression [b] r = [] → Q r r' →
      Q (.mk (.eLambda (.mk b i o r)) t env)
        (.mk (.eLiteral (.dFunction (.mk b i' o' (ezEReturn r')))) (.tFunction i' o')))
    (closure : ∀ b i o r t env env' r' e', FreeVariables.annotatedExpression [b] r ≠ [] →
      transpileEnvironment env = .ok env' →
      translateLambdaDeep env' b i o (FreeVariables.annotatedExpression [b] r) (.ok r') =
        .ok e' → Q r r' → Q (.mk (.eLambda (.mk b i o r)) t env) e')
    (letIn : ∀ b rhs r t env rhs' r' tv, translateType t = .ok tv → Q rhs rhs' → Q r r' →
      Q (.mk (.eLetIn b rhs r) t env) (.mk (.eLetIn (b, rhs'.typeValue) rhs' r') tv))
    (tuple : ∀ (lst : List AnnotatedExpression) t env (tree : AppendTree MiniC.Expression),
      List.Forall₂ Q lst tree.toList →
      Q (.mk (.eTuple lst) t env) (tree.fold id pairExpression))
    (tupleAccessor : ∀ tpl ind t env tpl' (path : List (MiniC.TypeValue × MiniC.Step)), Q tpl tpl' →
      Q (.mk (.eTupleAccessor tpl ind) t env) (path.foldl accessNode tpl'))
    (constructor' : ∀ name p t env p' e tv, Q p p' → Injects p'.content e →
      Q (.mk (.eConstructor name p) t env) (.mk e tv))
    (record : ∀ (m : List (String × AnnotatedExpression)) t env
      (tree : AppendTree MiniC.Expression), List.Forall₂ (fun x => Q x.2) m tree.toList →
      Q (.mk (.eRecord m) t env) (tree.fold id pairExpression))
    (recordAccessor : ∀ r prop t env r' (path : List (MiniC.TypeValue × MiniC.Step)), Q r r' →
      Q (.mk (.eRecordAccessor r prop) t env) (path.foldl accessNode r'))
    (map : ∀ m t env src dst m' tv, translateType t = .ok tv →
      MiniC.getTMap tv = .ok (src, dst) →
      List.Forall₂ (fun (x : AnnotatedExpression × AnnotatedExpression)
        (y : MiniC.Expression × MiniC.Expression) => Q x.1 y.1 ∧
        ∃ v' tv, translateType (tOption x.2.typeAnnot) = .ok tv ∧ Q x.2 v' ∧
          y.2 = .mk (.eConstant "SOME" [v']) tv) m m' →
      Q (.mk (.eMap m) t env)
        (m'.foldl (fun prev x => .mk (.eConstant "UPDATE" [x.1, x.2, prev]) tv)
          (.mk (.eMakeEmptyMap src dst) tv)))
    (list : ∀ lst t env u lst' tv, translateType t = .ok tv → getTList tv = .ok u →
      List.Forall₂ Q lst lst' → Q (.mk (.eList lst) t env) (consList u tv lst'))
    (lookUp : ∀ ds i t env ds' i' tv, translateType t = .ok tv → Q ds ds' → Q i i' →
      Q (.mk (.eLookUp ds i) t env) (.mk (.eConstant "MAP_GET" [i', ds']) tv))
    (matchBool : ∀ e a b t env e' a' b' tv, translateType t = .ok tv → Q e e' → Q a a' →
      Q b b' → Q (.mk (.eMatching e (.matchBool a b)) t env) (.mk (.eIfBool e' a' b') tv))
    (matchOption : ∀ e n name ty s t env e' n' s' ty' tv, translateType t = .ok tv →
      translateType ty = .ok ty' → Q e e' → Q n n' → Q s s' →
      Q (.mk (.eMatching e (.matchOption n name ty s)) t env)
        (.mk (.eIfNone e' n' (name, ty') s') tv))
    (matchVariant : ∀ e lst variant t env e' tree tree' r tv, translateType t = .ok tv →
      treeOfSum variant = .ok (some tree) → matchTree tree = .ok tree' → Q e e' →
      (∀ x ∈ lst, ∀ b, translateAnnotatedExpression x.2 = .ok b → Q x.2 b) →
      Transpiler.matchVariant (translateCases lst) tv e' tree' = .ok r →
      Q (.mk (.eMatching e (.matchVariant lst variant)) t env) r)
    (failwith : ∀ ae t env ae' tv, translateType t = .ok tv → Q ae ae' →
      Q (.mk (.eFailwith ae) t env) (.mk (.eConstant "FAILWITH" [ae']) tv))
    (sequence : ∀ a b t env a' b' tv, translateType t = .ok tv → Q a a' → Q b b' →
      Q (.mk (.eSequence a b) t env) (.mk (.eSequence a' b') tv))
    (loop : ∀ e b t env e' b' tv, translateType t = .ok tv → Q e e' → Q b b' →
      Q (.mk (.eLoop e b) t env) (.mk (.eWhile e' b') tv))
    (assign : ∀ name path e t env ty lrs e' tv, translateType t = .ok tv →
      assignPath name.typeValue path = .ok (ty, lrs) → Q e e' →
      Q (.mk (.eAssign name path e) t env) (.mk (.eAssignment name.typeName lrs e') tv)) :
    Q ae e := by
  induction ae using AnnotatedExpression.ind generalizing e with
  | literal l t env =>
    obtain ⟨tv, htv, rfl⟩ := map_eq_ok.1 h
    exact literal l t env tv htv
  | constant name lst t env ih =>
    obtain ⟨tv, htv, h⟩ := bind_eq_ok.1 h
    rw [translateExpression] at h
    obtain ⟨lst', hlst, h⟩ := bind_eq_ok.1 h
    rw [translateAll_eq, bindList_eq_ok] at hlst
    have hlst := forall₂_of_translate (fun ae hae e => ih ae hae) hlst
    split at h
    · obtain ⟨o, ho, h⟩ := bind_eq_ok.1 h
      cases h
      cases hlst
      exact none' t env o tv htv ho
    · cases h
      exact constant name lst t env lst' tv htv hlst
  | variable' name t env =>
    obtain ⟨_, -, h⟩ := bind_eq_ok.1 h
    obtain ⟨ele, hele, h⟩ := bind_eq_ok.1 h
    obtain ⟨tv, htv, h⟩ := bind_eq_ok.1 h
    cases h
    exact variable' name t env ele tv (traceOption_eq_ok.1 hele) htv
  | application f arg t env ihf iharg =>
    obtain ⟨tv, htv, h⟩ := bind_eq_ok.1 h
    obtain ⟨f', arg', hf, harg, rfl⟩ := map₂_eq_ok.1 h
    exact application f arg t env f' arg' tv htv (ihf hf) (iharg harg)
  | lambda b i o r t env ih =>
    obtain ⟨_, -, h⟩ := bind_eq_ok.1 h
    rw [translateExpression] at h
    obtain ⟨env', henv, h⟩ := bind_eq_ok.1 h
    rw [translateLambda] at h
    split at h
    · rename_i hfv
      obtain ⟨r', hr, h⟩ := bind_eq_ok.1 h
      replace h := trace_eq_ok.1 h
      obtain ⟨i', o', hi, ho, rfl⟩ := map₂_eq_ok.1 h
      exact quote b i o r t env i' o' r' hi ho hfv (ih hr)
    · rename_i hfv
      have h := trace_eq_ok.1 h
      cases hr : translateAnnotatedExpression r with
      | error _ =>
        -- the body is translated in any case
        rw [hr] at h
        obtain ⟨_, -, h⟩ := bind_eq_ok.1 h
        obtain ⟨_, -, h⟩ := bind_eq_ok.1 h
        cases h
      | ok r' =>
        rw [hr] at h
        exact closure b i o r t env env' r' e hfv henv h (ih hr)
  | letIn b rhs r t env ihrhs ihr =>
    obtain ⟨tv, htv, h⟩ := bind_eq_ok.1 h
    obtain ⟨rhs', r', hrhs, hr, rfl⟩ := map₂_eq_ok.1 h
    exact letIn b rhs r t env rhs' r' tv htv (ihrhs hrhs) (ihr hr)
  | tuple lst t env ih =>
    obtain ⟨_, -, h⟩ := bind_eq_ok.1 h
    rw [translateExpression] at h
    obtain ⟨tree, htree, rfl⟩ := foldNe_pairNode_ofList h
    have hlst := forall₂_of_map_ok (translateAll_eq lst) htree
    exact tuple lst t env tree (forall₂_of_translate (fun ae hae e => ih ae hae) hlst)
  | tupleAccessor tpl ind t env ih =>
    obtain ⟨_, -, h⟩ := bind_eq_ok.1 h
    obtain ⟨_, -, h⟩ := bind_eq_ok.1 h
    obtain ⟨_, -, h⟩ := bind_eq_ok.1 h
    obtain ⟨_, -, h⟩ := bind_eq_ok.1 h
    obtain ⟨path, tpl', -, htpl, rfl⟩ := map₂_eq_ok.1 h
    exact tupleAccessor tpl ind t env tpl' path (ih htpl)
  | constructor' name p t env ih =>
    obtain ⟨_, -, h⟩ := bind_eq_ok.1 h
    obtain ⟨p', hp, h⟩ := bind_eq_ok.1 h
    obtain ⟨tree, -, h⟩ := bind_eq_ok.1 h
    obtain ⟨⟨o, tv⟩, hfold, h⟩ := bind_eq_ok.1 h
    obtain ⟨e', ho, rfl⟩ := map_eq_ok.1 h
    cases traceOption_eq_ok.1 ho
    cases tree with
    | none => cases hfold
    | some tree => exact constructor' name p t env p' e' tv (ih hp) (foldNe_constructor hfold)
  | record m t env ih =>
    obtain ⟨_, -, h⟩ := bind_eq_ok.1 h
    rw [translateExpression] at h
    obtain ⟨tree, htree, rfl⟩ := foldNe_pairNode_ofList h
    have hm := forall₂_of_map_ok (translateFields_eq m) htree
    exact record m t env tree (forall₂_of_translate (fun x hx e => ih x hx) hm)
  | recordAccessor r prop t env ih =>
    obtain ⟨_, -, h⟩ := bind_eq_ok.1 h
    obtain ⟨_, -, h⟩ := bind_eq_ok.1 h
    obtain ⟨_, -, h⟩ := bind_eq_ok.1 h
    obtain ⟨_, -, h⟩ := bind_eq_ok.1 h
    obtain ⟨path, r', -, hr, rfl⟩ := map₂_eq_ok.1 h
    exact recordAccessor r prop t env r' path (ih hr)
  | map m t env ih =>
    obtain ⟨tv, htv, h⟩ := bind_eq_ok.1 h
    obtain ⟨⟨src, dst⟩, hmap, h⟩ := bind_eq_ok.1 h
    obtain ⟨m', hm, rfl⟩ := map_eq_ok.1 h
    have hm := forall₂_of_translateEntries (Q := Q)
      (fun x hx => ⟨fun e => (ih x hx).1, fun e => (ih x hx).2⟩) (bindList_eq_ok.1 hm)
    exact map m t env src dst m' tv htv hmap hm
  | list lst t env ih =>
    obtain ⟨tv, htv, h⟩ := bind_eq_ok.1 h
    obtain ⟨u, hu, h⟩ := bind_eq_ok.1 h
    obtain ⟨lst', hlst, h⟩ := bind_eq_ok.1 h
    rw [translateAll_eq, bindList_eq_ok] at hlst
    cases h
    exact list lst t env u lst' tv htv hu
      (forall₂_of_translate (fun ae hae e => ih ae hae) hlst)
  | lookUp ds i t env ihds ihi =>
    obtain ⟨tv, htv, h⟩ := bind_eq_ok.1 h
    obtain ⟨ds', i', hds, hi, rfl⟩ := map₂_eq_ok.1 h
    exact lookUp ds i t env ds' i' tv htv (ihds hds) (ihi hi)
  | matchBool c a b t env ihc iha ihb =>
    obtain ⟨tv, htv, h⟩ := bind_eq_ok.1 h
    obtain ⟨e', he, h⟩ := bind_eq_ok.1 h
    obtain ⟨a', b', ha, hb, rfl⟩ := map₂_eq_ok.1 h
    exact matchBool c a b t env e' a' b' tv htv (ihc he) (iha ha) (ihb hb)
  | matchOption c n name ty s t env ihc ihn ihs =>
    obtain ⟨tv, htv, h⟩ := bind_eq_ok.1 h
    obtain ⟨e', he, h⟩ := bind_eq_ok.1 h
    obtain ⟨n', hn, h⟩ := bind_eq_ok.1 h
    obtain ⟨ty', s', hty, hs, rfl⟩ := map₂_eq_ok.1 h
    exact matchOption c n name ty s t env e' n' s' ty' tv htv hty (ihc he) (ihn hn) (ihs hs)
  | matchVariant c lst variant t env ihc ih =>
    obtain ⟨tv, htv, h⟩ := bind_eq_ok.1 h
    obtain ⟨e', he, h⟩ := bind_eq_ok.1 h
    obtain ⟨tree, htree, h⟩ := bind_eq_ok.1 h
    obtain ⟨tree₁, htree₁, h⟩ := bind_eq_ok.1 h
    obtain ⟨tree₂, htree₂, hr⟩ := bind_eq_ok.1 h
    cases traceOption_eq_ok.1 htree₁
    exact matchVariant c lst variant t env e' tree₁ tree₂ _ tv htv htree htree₂ (ihc he)
      (fun x hx b => ih x hx) hr
  | matchList =>
    obtain ⟨_, -, h⟩ := bind_eq_ok.1 h
    obtain ⟨_, -, h⟩ := bind_eq_ok.1 h
    cases h
  | matchTuple =>
    obtain ⟨_, -, h⟩ := bind_eq_ok.1 h
    obtain ⟨_, -, h⟩ := bind_eq_ok.1 h
    cases h
  | failwith ae t env ih =>
    obtain ⟨tv, ae', htv, hae, rfl⟩ := map₂_eq_ok.1 h
    exact failwith ae t env ae' tv htv (ih hae)
  | sequence a b t env iha ihb =>
    obtain ⟨tv, htv, h⟩ := bind_eq_ok.1 h
    obtain ⟨a', b', ha, hb, rfl⟩ := map₂_eq_ok.1 h
    exact sequence a b t env a' b' tv htv (iha ha) (ihb hb)
  | loop c b t env ihc ihb =>
    obtain ⟨tv, htv, h⟩ := bind_eq_ok.1 h
    obtain ⟨e', b', he, hb, rfl⟩ := map₂_eq_ok.1 h
    exact loop c b t env e' b' tv htv (ihc he) (ihb hb)
  | assign name path rhs t env ih =>
    obtain ⟨tv, htv, h⟩ := bind_eq_ok.1 h
    obtain ⟨⟨ty, lrs⟩, hpath, h⟩ := bind_eq_ok.1 h
    obtain ⟨e', he, rfl⟩ := map_eq_ok.1 h
    exact assign name path rhs t env ty lrs e' tv htv hpath (ih he)

end Induction

end Ligo.Transpiler
