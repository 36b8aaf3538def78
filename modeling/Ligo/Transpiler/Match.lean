import Ligo.MiniC.Enters
import Ligo.Transpiler.Shape

/-!
# Matches on variants

A constructor injects its parameter along a path of the tree of its sum
(`evaluates_constructor`), and the conditionals of a match take the value apart along the
same path (`enters_matchVariant`). Each conditional binds the part that it finds, under the
name `left` or `right`, and the next one reads it from there. These binders are left in
scope around the clause.

A clause therefore runs below the binders of its path, and a variable of the program that
is called `left` or `right` denotes a part of the matched value in a clause whose path has
such a step. `Hygienic` says that every variable keeps its value, and `hygienic_iff` that
this holds of exactly the clauses that do not mention a binder of their path.
-/

namespace Ligo.Transpiler

open AstTyped
open MiniC (Env Enters Evaluates)
open Michelson (Context)
open Fuel (bind_eq_ok map_eq_ok map₂_eq_ok)
open Outcome (ok_bind)

variable {ctx : Context}

/-! ### Paths in a sum -/

/-- The value `v` of a constructor whose place in the tree of its sum is `path`. -/
def inject {F : Type} (v : Michelson.Value F) : List Bool → Michelson.Value F
  | [] => v
  | false :: path => .left (inject v path)
  | true :: path => .right (inject v path)

/-- The name that a conditional binds. -/
def branchName (b : Bool) : String := if b then "right" else "left"

/-- The names that the conditionals on a path bind. -/
def branchNames (path : List Bool) : List String := path.map branchName

/-- The bindings of the conditionals on a path, the innermost first. -/
def branchEnv {F : Type} (v : Michelson.Value F) : List Bool → Env F
  | [] => []
  | b :: path => branchEnv v path ++ [(branchName b, inject v path)]

theorem mem_names_branchEnv {F : Type} {v : Michelson.Value F} {x : String}
    {path : List Bool} : x ∈ Scope.names (branchEnv v path) ↔ x ∈ branchNames path := by
  induction path with
  | nil => rfl
  | cons b path ih =>
    rw [branchEnv, Scope.names_append, List.mem_append, ih]
    simp [branchNames, or_comm]

/-! ### Construction -/

theorem evaluates_constant1 {name : String} {e : MiniC.Expression} {t : MiniC.TypeValue}
    {ρ ρ' : Env MiniC.AnonFunction} {v w : Michelson.Value MiniC.AnonFunction}
    (hconst : MiniC.constant ctx t name [v] = .ok w) (he : Evaluates ctx e ρ v ρ') :
    Evaluates ctx (.mk (.eConstant name [e]) t) ρ w ρ' := by
  obtain ⟨d, he⟩ := he
  exact ⟨d, MiniC.eval_eConstant (MiniC.evalArguments_singleton he) hconst⟩

/-- The constructor that is built is found at its place. -/
theorem constructor_isSome {c : String} {param : AnnotatedExpression}
    {param' : MiniC.Expression} {t : AppendTree (String × TypeValue)} {path : List Bool}
    {tc : TypeValue} (hpath : t.Leads path (c, tc))
    {o : Option MiniC.Expression'} {tv : MiniC.TypeValue}
    (h : foldNe (constructorLeaf c param param') constructorNode (some t) = .ok (o, tv)) :
    ∃ e, o = some e := by
  rw [foldNe] at h
  induction t generalizing path o tv with
  | leaf x =>
    obtain ⟨rfl, rfl⟩ := AppendTree.leads_leaf.1 hpath
    rw [AppendTree.fold, constructorLeaf, if_pos rfl] at h
    obtain ⟨_, -, h⟩ := bind_eq_ok.1 h
    cases h
    exact ⟨_, rfl⟩
  | node a b size full iha ihb =>
    obtain ⟨⟨oa, ta⟩, ha, h⟩ := bind_eq_ok.1 h
    obtain ⟨⟨ob, tb⟩, hb, h⟩ := bind_eq_ok.1 h
    -- on the side of the path something is built, and the node passes it on
    rcases AppendTree.leads_node.1 hpath with ⟨path, rfl, hpath⟩ | ⟨path, rfl, hpath⟩
    · obtain ⟨ea, rfl⟩ := iha hpath ha
      cases ob <;> cases h
      exact ⟨_, rfl⟩
    · obtain ⟨eb, rfl⟩ := ihb hpath hb
      cases oa <;> cases h
      exact ⟨_, rfl⟩

/-- A constructor injects along its path. -/
theorem evaluates_foldNe_constructor {c : String} {param : AnnotatedExpression}
    {param' : MiniC.Expression} {t : AppendTree (String × TypeValue)} {path : List Bool}
    {tc : TypeValue} (hpath : t.Leads path (c, tc)) {e : MiniC.Expression'}
    {tv : MiniC.TypeValue}
    (h : foldNe (constructorLeaf c param param') constructorNode (some t) = .ok (some e, tv))
    {ρ ρ' : Env MiniC.AnonFunction} {v : Michelson.Value MiniC.AnonFunction}
    (hparam : Evaluates ctx param' ρ v ρ') : Evaluates ctx (.mk e tv) ρ (inject v path) ρ' := by
  rw [foldNe] at h
  induction t generalizing path e tv with
  | leaf x =>
    obtain ⟨rfl, rfl⟩ := AppendTree.leads_leaf.1 hpath
    rw [AppendTree.fold, constructorLeaf, if_pos rfl] at h
    obtain ⟨_, -, h⟩ := bind_eq_ok.1 h
    cases h
    obtain ⟨e, t⟩ := param'
    exact hparam
  | node a b size full iha ihb =>
    obtain ⟨⟨oa, ta⟩, ha, h⟩ := bind_eq_ok.1 h
    obtain ⟨⟨ob, tb⟩, hb, h⟩ := bind_eq_ok.1 h
    -- the value is on one of the two sides; the node injects it there
    rcases AppendTree.leads_node.1 hpath with ⟨path, rfl, hpath⟩ | ⟨path, rfl, hpath⟩
    · obtain ⟨ea, rfl⟩ := constructor_isSome (t := a) hpath ha
      cases ob <;> cases h
      exact evaluates_constant1 rfl (iha hpath ha)
    · obtain ⟨eb, rfl⟩ := constructor_isSome (t := b) hpath hb
      cases oa <;> cases h
      exact evaluates_constant1 rfl (ihb hpath hb)

/-- The value of a constructor expression. -/
theorem evaluates_constructor {c : String} {param : AnnotatedExpression}
    {m : List (String × TypeValue)} {env : FullEnvironment} {e param' : MiniC.Expression}
    {tree : AppendTree (String × TypeValue)} {path : List Bool} {tc : TypeValue}
    (h : translateAnnotatedExpression (.mk (.eConstructor c param) (.tSum m) env) = .ok e)
    (htree : AppendTree.ofList m = some tree) (hpath : tree.Leads path (c, tc))
    (hparam : translateAnnotatedExpression param = .ok param')
    {ρ ρ' : Env MiniC.AnonFunction} {v : Michelson.Value MiniC.AnonFunction}
    (hv : Evaluates ctx param' ρ v ρ') : Evaluates ctx e ρ (inject v path) ρ' := by
  obtain ⟨_, -, h⟩ := bind_eq_ok.1 h
  obtain ⟨p', hp, h⟩ := bind_eq_ok.1 h
  cases hparam.symm.trans hp
  obtain ⟨otree, hsum, h⟩ := bind_eq_ok.1 h
  obtain ⟨⟨o, tv⟩, hfold, h⟩ := bind_eq_ok.1 h
  obtain ⟨e', ho, rfl⟩ := map_eq_ok.1 h
  -- the fold found the constructor, at the leaf that the path leads to
  cases traceOption_eq_ok.1 ho
  obtain rfl : otree = some tree := by
    rw [← htree]
    exact (Except.ok.inj hsum).symm
  exact evaluates_foldNe_constructor hpath hfold hv

/-! ### Dispatch -/

theorem evaluates_variable {x : String} {t : MiniC.TypeValue} {ρ : Env MiniC.AnonFunction}
    {v : Michelson.Value MiniC.AnonFunction} (h : Scope.lookup x ρ = some v) :
    Evaluates ctx (.mk (.eVariable x) t) ρ v ρ := by
  refine ⟨0, ?_⟩
  simp only [MiniC.evalAt, MiniC.eval, MiniC.eval', h]

section Dispatch

variable {lst : List ((String × String) × AnnotatedExpression)} {ty : MiniC.TypeValue}
  {c : String} {tc : TypeValue} {t : AppendTree (String × TypeValue)} {tree : MatchTree}
  {path : List Bool} {r top : MiniC.Expression}

/-- The clause of a constructor, with its translation. -/
def Clause (lst : List ((String × String) × AnnotatedExpression)) (c y : String)
    (clause : AnnotatedExpression) (body : MiniC.Expression) : Prop :=
  (lst.find? fun x => x.1.1 == c) = some ((c, y), clause) ∧
    translateAnnotatedExpression clause = .ok body

theorem find?_translateCases (c : String) :
    (translateCases lst).find? (fun x => x.1.1 == c) =
      (lst.find? fun x => x.1.1 == c).map fun x => (x.1, translateAnnotatedExpression x.2) := by
  rw [translateCases_eq, List.find?_map]
  rfl

/-- A match that translates has a clause for every constructor of its sum. -/
theorem exists_clause (htree : matchTree t = .ok tree) (hpath : t.Leads path (c, tc))
    (h : matchVariant (translateCases lst) ty top tree = .ok r) :
    ∃ y clause body, Clause lst c y clause body := by
  induction t generalizing tree path r top with
  | leaf x =>
    match path, hpath with
    | [], hpath =>
      obtain rfl : x = (c, tc) := hpath
      obtain ⟨tv, -, rfl⟩ := map_eq_ok.1 htree
      obtain ⟨⟨⟨c', y⟩, res⟩, hfind, h⟩ := bind_eq_ok.1 h
      obtain ⟨body, hbody, -⟩ := bind_eq_ok.1 h
      -- the clause of a leaf is looked up by the name of the constructor
      rw [traceOption_eq_ok, find?_translateCases, Option.map_eq_some_iff] at hfind
      obtain ⟨⟨x, clause⟩, hfind, hx⟩ := hfind
      cases hx
      have hname := List.find?_some hfind
      obtain rfl : c' = c := by simpa using hname
      exact ⟨y, clause, body, hfind, hbody⟩
    | _ :: _, hpath => exact hpath.elim
  | node a b size full iha ihb =>
    obtain ⟨ta, tb, hta, htb, rfl⟩ := map₂_eq_ok.1 htree
    obtain ⟨aTy, -, h⟩ := bind_eq_ok.1 h
    obtain ⟨a', ha, h⟩ := bind_eq_ok.1 h
    obtain ⟨bTy, -, h⟩ := bind_eq_ok.1 h
    obtain ⟨b', hb, h⟩ := bind_eq_ok.1 h
    -- the path goes on below `left` or `right`
    match path, hpath with
    | false :: path, hpath => exact iha hta hpath ha
    | true :: path, hpath => exact ihb htb hpath hb

/-- A match comes to the clause of the constructor, below the binders of its path. -/
theorem enters_matchVariant {y : String} {clause : AnnotatedExpression}
    {body : MiniC.Expression} (hclause : Clause lst c y clause body)
    (htree : matchTree t = .ok tree) (hpath : t.Leads path (c, tc))
    (h : matchVariant (translateCases lst) ty top tree = .ok r)
    {ρ ρ₁ : Env MiniC.AnonFunction} {v : Michelson.Value MiniC.AnonFunction}
    (htop : Evaluates ctx top ρ (inject v path) ρ₁) :
    Enters ctx r ρ body ((y, v) :: (branchEnv v path ++ ρ₁)) := by
  induction t generalizing tree path r top ρ ρ₁ with
  | leaf x =>
    match path, hpath with
    | [], hpath =>
      obtain rfl : x = (c, tc) := hpath
      obtain ⟨tv, -, rfl⟩ := map_eq_ok.1 htree
      obtain ⟨⟨⟨c', y'⟩, res⟩, hfind, h⟩ := bind_eq_ok.1 h
      obtain ⟨body', hbody, rfl⟩ := map_eq_ok.1 h
      rw [traceOption_eq_ok, find?_translateCases, hclause.1, Option.map_some] at hfind
      cases hfind
      cases hclause.2.symm.trans hbody
      exact .letIn htop (.here _ _)
    | _ :: _, hpath => exact hpath.elim
  | node a b size full iha ihb =>
    obtain ⟨ta, tb, hta, htb, rfl⟩ := map₂_eq_ok.1 htree
    obtain ⟨aTy, -, h⟩ := bind_eq_ok.1 h
    obtain ⟨a', ha, h⟩ := bind_eq_ok.1 h
    obtain ⟨bTy, -, h⟩ := bind_eq_ok.1 h
    obtain ⟨b', hb, h⟩ := bind_eq_ok.1 h
    cases h
    -- the next conditional reads what this one has bound
    match path, hpath with
    | false :: path, hpath =>
      have hread : ∀ {t}, Evaluates ctx (.mk (.eVariable "left") t) (("left", inject v path) :: ρ₁)
          (inject v path) (("left", inject v path) :: ρ₁) := evaluates_variable rfl
      have hnext := iha hta hpath ha hread
      rw [branchEnv, List.append_assoc]
      exact .left htop hnext
    | true :: path, hpath =>
      have hread : ∀ {t}, Evaluates ctx (.mk (.eVariable "right") t) (("right", inject v path) :: ρ₁)
          (inject v path) (("right", inject v path) :: ρ₁) := evaluates_variable rfl
      have hnext := ihb htb hpath hb hread
      rw [branchEnv, List.append_assoc]
      exact .right htop hnext

/-- What is matched has no part in whether a match translates. -/
theorem matchVariant_top (h : matchVariant (translateCases lst) ty top tree = .ok r)
    (top' : MiniC.Expression) :
    ∃ r', matchVariant (translateCases lst) ty top' tree = .ok r' := by
  cases tree with
  | leaf name tv =>
    obtain ⟨⟨⟨c, y⟩, clause⟩, hx, h⟩ := bind_eq_ok.1 h
    obtain ⟨body, hbody, -⟩ := bind_eq_ok.1 h
    change clause = .ok body at hbody
    refine ⟨.mk (.eLetIn (y, tv) top' body) ty, ?_⟩
    rw [matchVariant, hx, ok_bind, hbody]
    rfl
  | node a b tv =>
    obtain ⟨aTy, haTy, h⟩ := bind_eq_ok.1 h
    obtain ⟨a', ha, h⟩ := bind_eq_ok.1 h
    obtain ⟨bTy, hbTy, h⟩ := bind_eq_ok.1 h
    obtain ⟨b', hb, -⟩ := bind_eq_ok.1 h
    -- below the first conditional, the variables `left` and `right` are matched
    refine ⟨.mk (.eIfLeft top' ("left", aTy) a' ("right", bTy) b') ty, ?_⟩
    rw [matchVariant, haTy, ok_bind, ha, ok_bind, hbTy, ok_bind, hb]
    rfl

/-- The tree of a match carries the translation of its sum. -/
theorem translateType_of_matchTree (h : matchTree t = .ok tree) :
    foldNe id (fun a b => .ok (.tOr a b)) (some (t.map fun x => translateType x.2)) =
      .ok tree.tv := by
  rw [foldNe]
  induction t generalizing tree with
  | leaf x =>
    obtain ⟨tv, htv, rfl⟩ := map_eq_ok.1 h
    exact htv
  | node a b size full iha ihb =>
    obtain ⟨ta, tb, hta, htb, rfl⟩ := map₂_eq_ok.1 h
    rw [AppendTree.map, AppendTree.fold, iha hta, ihb htb]
    rfl

end Dispatch

/-! ### Hygiene -/

variable (ctx) in
/-- Wherever the value `v` of the constructor at `path` is matched, the clause runs with its
pattern variable `y` bound to `v`, and every other variable of the clause keeps its value. -/
def Hygienic (lst : List ((String × String) × AnnotatedExpression)) (variant : TypeValue)
    (y : String) (clause : AnnotatedExpression) (body : MiniC.Expression) (path : List Bool)
    (v : Michelson.Value MiniC.AnonFunction) : Prop :=
  ∀ ae t env e r, translateAnnotatedExpression ae = .ok e →
    translateAnnotatedExpression (.mk (.eMatching ae (.matchVariant lst variant)) t env) = .ok r →
    ∀ ρ ρ₁, Evaluates ctx e ρ (inject v path) ρ₁ →
      ∃ ρ₂, Enters ctx r ρ body ρ₂ ∧ Scope.lookup y ρ₂ = some v ∧
        ∀ x ∈ FreeNames.annotatedExpression [y] clause, ∀ u,
          Scope.lookup x ρ₁ = some u → Scope.lookup x ρ₂ = some u

section Hygiene

variable {lst : List ((String × String) × AnnotatedExpression)} {m : List (String × TypeValue)}
  {tree : AppendTree (String × TypeValue)} {path : List Bool} {c : String} {tc : TypeValue}

/-- The parts of the translation of a match. -/
theorem translate_matchVariant {ae : AnnotatedExpression} {t : TypeValue}
    {env : FullEnvironment} {r : MiniC.Expression}
    (h : translateAnnotatedExpression (.mk (.eMatching ae (.matchVariant lst (.tSum m))) t env) =
      .ok r) (htree : AppendTree.ofList m = some tree) :
    ∃ tv tree' top, translateType t = .ok tv ∧ matchTree tree = .ok tree' ∧
      translateAnnotatedExpression ae = .ok top ∧
      matchVariant (translateCases lst) tv top tree' = .ok r := by
  obtain ⟨tv, htv, h⟩ := bind_eq_ok.1 h
  obtain ⟨top, htop, h⟩ := bind_eq_ok.1 h
  obtain ⟨otree, hsum, h⟩ := bind_eq_ok.1 h
  obtain rfl : otree = some tree := by
    rw [← htree]
    exact (Except.ok.inj hsum).symm
  obtain ⟨tree₁, htree₁, h⟩ := bind_eq_ok.1 h
  obtain ⟨tree', htree', hr⟩ := bind_eq_ok.1 h
  cases traceOption_eq_ok.1 htree₁
  exact ⟨tv, tree', top, htv, htree', htop, hr⟩

/-- A match that translates also does so on a variable, of the type of the sum. -/
theorem exists_match_on_variable {ae : AnnotatedExpression} {t : TypeValue}
    {env : FullEnvironment} {r : MiniC.Expression}
    (h : translateAnnotatedExpression (.mk (.eMatching ae (.matchVariant lst (.tSum m))) t env) =
      .ok r) (htree : AppendTree.ofList m = some tree) (s : String) :
    ∃ ae' tv r', translateAnnotatedExpression ae' = .ok (.mk (.eVariable s) tv) ∧
      translateAnnotatedExpression (.mk (.eMatching ae' (.matchVariant lst (.tSum m))) t env) =
        .ok r' := by
  obtain ⟨tv, tree', top, htv, htree', -, h⟩ := translate_matchVariant h htree
  have hsum : translateType (.tSum m) = .ok tree'.tv := by
    rw [translateType, translateFieldTypes_eq, AppendTree.ofList_map, htree]
    exact translateType_of_matchTree htree'
  -- a variable of the type of the sum, in an environment that binds only this one
  have hvar : translateAnnotatedExpression (.mk (.eVariable s) (.tSum m)
      (.mk [(s, .mk (.tSum m) .binder)] [])) = .ok (.mk (.eVariable s) tree'.tv) := by
    have hfound : traceOption "name not in environment" (Environment.getOpt s
        (.mk [(s, .mk (.tSum m) .binder)] [])) = .ok (.mk (.tSum m) .binder) := by
      simp [Environment.getOpt, Environment.smallGetOpt, List.findSome?, traceOption]
    have hbinder : transpileEnvironmentElementType (.mk (.tSum m) .binder) = .ok tree'.tv := hsum
    rw [translate_mk hsum, translateExpression, hfound, ok_bind, hbinder]
    rfl
  obtain ⟨r', hr'⟩ := matchVariant_top h (.mk (.eVariable s) tree'.tv)
  exact ⟨_, _, r', hvar, translate_eMatching htv hvar htree htree' hr'⟩

/-- A constructor is taken apart as it was built, and its clause is hygienic exactly when it
does not mention a binder of the path. -/
theorem hygienic_iff {ae : AnnotatedExpression} {t : TypeValue} {env : FullEnvironment}
    {r : MiniC.Expression}
    (h : translateAnnotatedExpression (.mk (.eMatching ae (.matchVariant lst (.tSum m))) t env) =
      .ok r)
    (htree : AppendTree.ofList m = some tree) (hpath : tree.Leads path (c, tc)) :
    ∃ y clause body, Clause lst c y clause body ∧
      (∀ param env e param', translateAnnotatedExpression (.mk (.eConstructor c param) (.tSum m)
          env) = .ok e → translateAnnotatedExpression param = .ok param' →
        ∀ ρ v ρ', Evaluates ctx param' ρ v ρ' → Evaluates ctx e ρ (inject v path) ρ') ∧
      ∀ v, Hygienic ctx lst (.tSum m) y clause body path v ↔
        ∀ x ∈ FreeNames.annotatedExpression [y] clause, x ∉ branchNames path := by
  obtain ⟨tv, tree', top, -, htree', -, hr⟩ := translate_matchVariant h htree
  obtain ⟨y, clause, body, hclause⟩ := exists_clause htree' hpath hr
  -- where the clause runs, for every match
  have hscope : ∀ {ae t env e r}, translateAnnotatedExpression ae = .ok e →
      translateAnnotatedExpression (.mk (.eMatching ae (.matchVariant lst (.tSum m))) t env) =
        .ok r → ∀ {ρ ρ₁ v}, Evaluates ctx e ρ (inject v path) ρ₁ →
      Enters ctx r ρ body ((y, v) :: (branchEnv v path ++ ρ₁)) := by
    intro ae t env e r he hr ρ ρ₁ v hv
    obtain ⟨_, tree₂, top, -, htree₂, htop, hr⟩ := translate_matchVariant hr htree
    cases he.symm.trans htop
    exact enters_matchVariant hclause htree₂ hpath hr hv
  refine ⟨y, clause, body, hclause, fun param env e param' he hparam ρ v ρ' hv =>
    evaluates_constructor he htree hpath hparam hv, fun v => ⟨fun hyg x hx hbranch => ?_, ?_⟩⟩
  · have hxy : x ≠ y := fun hxy => FreeNames.notMem_of_mem hx (List.mem_singleton.2 hxy)
    obtain ⟨w, hw⟩ : ∃ w, Scope.lookup x (branchEnv v path) = some w := by
      refine Option.ne_none_iff_exists'.1 fun hnone => ?_
      exact Scope.lookup_eq_none.1 hnone (mem_names_branchEnv.2 hbranch)
    have hxs : x ≠ "scrutinee" := by
      rintro rfl
      obtain ⟨b, -, hb⟩ := List.mem_map.1 hbranch
      cases b <;> exact absurd hb (by decide)
    -- match on a variable, where `x` has another value outside
    obtain ⟨ae', tv', r', hae', hr'⟩ := exists_match_on_variable h htree "scrutinee"
    have hv : Evaluates ctx (.mk (.eVariable "scrutinee") tv')
        [("scrutinee", inject v path), (x, .some w)] (inject v path)
        [("scrutinee", inject v path), (x, .some w)] := evaluates_variable rfl
    obtain ⟨ρ₂, hent, -, hkeep⟩ := hyg _ _ _ _ _ hae' hr' _ _ hv
    obtain rfl := hent.unique (hscope hae' hr' hv)
    have houter : Scope.lookup x [("scrutinee", inject v path), (x, .some w)] = some (.some w) := by
      rw [Scope.lookup, if_neg hxs, Scope.lookup, if_pos rfl]
    have hinner := hkeep x hx (.some w) houter
    rw [Scope.lookup, if_neg hxy, Scope.lookup_append_of_mem (by rw [hw]; rfl), hw] at hinner
    have hsize := congrArg sizeOf (Option.some.inj hinner)
    simp at hsize
  · intro hfree ae t env e r he hr ρ ρ₁ hv
    refine ⟨_, hscope he hr hv, if_pos rfl, fun x hx u hu => ?_⟩
    have hxy : x ≠ y := fun hxy => FreeNames.notMem_of_mem hx (List.mem_singleton.2 hxy)
    have hbranch : x ∉ Scope.names (branchEnv v path) :=
      fun hmem => hfree x hx (mem_names_branchEnv.1 hmem)
    rw [Scope.lookup, if_neg hxy, Scope.lookup_append_of_notMem hbranch, hu]

end Hygiene

/-- A sum of two constructors. -/
def sumAB : List (String × TypeValue) := [("A", tInt), ("B", tInt)]

/-- The first clause returns the variable `left` of the program. -/
def clausesAB : List ((String × String) × AnnotatedExpression) :=
  let env : FullEnvironment := .mk [("n", .mk tInt .binder), ("left", .mk tInt .binder)] []
  [(("A", "n"), .mk (.eVariable "left") tInt env), (("B", "n"), .mk (.eVariable "left") tInt env)]

/-- A match on `A 1`. -/
def matchAB : AnnotatedExpression :=
  let env : FullEnvironment := .mk [("left", .mk tInt .binder)] []
  .mk (.eMatching (.mk (.eConstructor "A" (.mk (.eLiteral (.int ⟨1, OInt.one_mem⟩)) tInt env))
    (.tSum sumAB) env) (.matchVariant clausesAB (.tSum sumAB))) tInt env

/-- The path of `B` has no step to the left. -/
theorem clauseB_hygienic :
    ∃ y clause body, Clause clausesAB "B" y clause body ∧
      ∀ v, Hygienic Context.empty clausesAB (.tSum sumAB) y clause body [true] v := by
  obtain ⟨r, hr⟩ : ∃ r, translateAnnotatedExpression matchAB = .ok r := ⟨_, rfl⟩
  obtain ⟨y, clause, body, hclause, -, hiff⟩ := @hygienic_iff Context.empty _ _ _ [true] "B" tInt
    _ _ _ r hr rfl rfl
  refine ⟨y, clause, body, hclause, fun v => (hiff v).2 ?_⟩
  obtain ⟨hfind, -⟩ := hclause
  cases hfind
  decide

/-- In the clause of `A`, the variable `left`, which is 5 outside, is 1. -/
theorem left_is_hidden :
    ∃ r clause body, translateAnnotatedExpression matchAB = .ok r ∧
      Clause clausesAB "A" "n" clause body ∧
      Evaluates Context.empty r [("left", .int 5)] (.int 1) [("left", .int 5)] ∧
      ¬ Hygienic Context.empty clausesAB (.tSum sumAB) "n" clause body [false] (.int 1) := by
  refine ⟨_, _, _, rfl, ⟨rfl, rfl⟩, ⟨0, rfl⟩, fun hyg => ?_⟩
  obtain ⟨ρ₂, hent, -, hkeep⟩ := hyg _ _ _ _ _ rfl (show translateAnnotatedExpression matchAB = _
    from rfl) [("left", .int 5)] [("left", .int 5)] ⟨0, rfl⟩
  -- with the value from outside, the match would return 5
  have hleft := hkeep "left" (by decide) (.int 5) rfl
  obtain ⟨ρ', hbody⟩ := hent.evaluates_iff.1 ⟨[("left", .int 5)], 0, rfl⟩
  cases (hbody.unique (evaluates_variable hleft)).1

end Ligo.Transpiler
