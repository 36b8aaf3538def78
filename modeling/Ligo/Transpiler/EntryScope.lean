import Ligo.MiniC.Frame
import Ligo.Transpiler.Shape

/-!
# The scope of an entry point

`translateEntry` wraps the declarations before an entry point around the *body* of its
lambda, as `let`s inside the binder. A call therefore evaluates the declarations with the
parameter in scope, and the body above them all: the parameter is the outermost binding,
not the innermost one, and a declaration of its name hides it
(`enters_translateEntry_iff`).

`ParameterInnermost` is the scope that one expects, where the parameter is bound last. It
is the scope of the code when nothing is declared before the entry point, and otherwise
never, unless the declarations have no values (`parameterInnermost_iff`): the oldest
binding of the environment that the code builds is the argument of the call, the oldest
binding of the expected environment is the value of a declaration. That the bottom of the
environment still is the argument when the body starts is the frame property of the
declarations (`declares_frame`).
-/

namespace Ligo.Transpiler

open AstTyped
open MiniC (Env Enters Declares Evaluates AssignsWithin lets)
open Michelson (Context)
open Fuel (bind_eq_ok map_eq_ok map₂_eq_ok)

/-! ### Translations assign to the names of their scope -/

/-- The nodes that the transpiler puts between translated parts assign nothing, so what the
parts assign decides. -/
theorem assignsWithin_fold_pair {Γ : List String} {t : AppendTree MiniC.Expression}
    (h : ∀ e ∈ t.toList, AssignsWithin Γ e) : AssignsWithin Γ (t.fold id pairExpression) := by
  induction t with
  | leaf e => exact h e (by simp [AppendTree.toList])
  | node a b size full iha ihb =>
    rw [AppendTree.toList, List.forall_mem_append] at h
    exact ⟨iha h.1, ihb h.2, trivial⟩

theorem assignsWithin_foldl_accessNode {Γ : List String} {e : MiniC.Expression}
    {path : List (MiniC.TypeValue × MiniC.Step)} (h : AssignsWithin Γ e) :
    AssignsWithin Γ (path.foldl accessNode e) := by
  induction path generalizing e with
  | nil => exact h
  | cons x path ih => exact ih ⟨h, trivial⟩

/-- An injection assigns what its argument assigns. -/
theorem Injects.assignsWithin {Γ : List String} {e₀ e : MiniC.Expression'} (h : Injects e₀ e)
    (h₀ : MiniC.AssignsWithin' Γ e₀) : MiniC.AssignsWithin' Γ e := by
  induction h with
  | here => exact h₀
  | left _ ih | right _ ih => exact ⟨ih, trivial⟩

theorem assignsWithin_consList {Γ : List String} {t tv : MiniC.TypeValue}
    {es : List MiniC.Expression} (h : ∀ e ∈ es, AssignsWithin Γ e) :
    AssignsWithin Γ (consList t tv es) := by
  induction es using List.reverseRecOn with
  | nil => trivial
  | append_singleton es e ih =>
    rw [List.forall_mem_append] at h
    rw [consList_concat]
    exact ⟨h.2 e (List.mem_singleton_self e), ih h.1, trivial⟩

theorem assignsWithin_updates {Γ : List String} {tv : MiniC.TypeValue}
    {m : List (MiniC.Expression × MiniC.Expression)} {e : MiniC.Expression}
    (he : AssignsWithin Γ e) (h : ∀ x ∈ m, AssignsWithin Γ x.1 ∧ AssignsWithin Γ x.2) :
    AssignsWithin Γ (m.foldl (fun prev x => .mk (.eConstant "UPDATE" [x.1, x.2, prev]) tv) e) := by
  induction m generalizing e with
  | nil => exact he
  | cons x m ih =>
    obtain ⟨hx, hm⟩ := List.forall_mem_cons.1 h
    exact ih ⟨hx.1, hx.2, he, trivial⟩ hm

/-- The clauses of a match, each below its pattern variable. -/
theorem assignsWithin_matchVariant
    {lst : List ((String × String) × Result MiniC.Expression)} {ty : MiniC.TypeValue}
    {Γ : List String}
    (h : ∀ x ∈ lst, ∀ b, x.2 = .ok b → AssignsWithin (x.1.2 :: Γ) b) {tree : MatchTree}
    {top e : MiniC.Expression} (htop : AssignsWithin Γ top)
    (he : matchVariant lst ty top tree = .ok e) : AssignsWithin Γ e := by
  induction tree generalizing Γ top e with
  | leaf name tv =>
    obtain ⟨⟨⟨_, y⟩, body⟩, hfind, he⟩ := bind_eq_ok.1 he
    obtain ⟨b, hb, rfl⟩ := map_eq_ok.1 he
    have hmem := List.mem_of_find?_eq_some (traceOption_eq_ok.1 hfind)
    exact ⟨htop, h _ hmem b hb⟩
  | node a b tv iha ihb =>
    obtain ⟨aTy, -, he⟩ := bind_eq_ok.1 he
    obtain ⟨a', ha, he⟩ := bind_eq_ok.1 he
    obtain ⟨bTy, -, he⟩ := bind_eq_ok.1 he
    obtain ⟨b', hb, he⟩ := bind_eq_ok.1 he
    cases he
    -- the internal binders only enlarge the scope of the clauses
    have hbelow : ∀ z, ∀ x ∈ lst, ∀ b, x.2 = .ok b → AssignsWithin (x.1.2 :: z :: Γ) b :=
      fun z x hx b hb => (h x hx b hb).mono (List.cons_subset_cons _ (List.subset_cons_self z Γ))
    have hvar : ∀ {Δ} {x : String} {t}, AssignsWithin Δ (.mk (.eVariable x) t) := trivial
    exact ⟨htop, iha (hbelow "left") hvar ha, ihb (hbelow "right") hvar hb⟩

/-- The translation of an expression that takes its names from `Γ` assigns to names of
`Γ`. -/
theorem assignsWithin_of_translate {ae : AnnotatedExpression} {e : MiniC.Expression}
    (h : translateAnnotatedExpression ae = .ok e) {Γ : List String}
    (hΓ : FreeNames.annotatedExpression Γ ae = []) : AssignsWithin Γ e := by
  -- by induction on the translation, whose binders are bound in the scope of their parts
  revert Γ
  apply translate_ind (Q := fun ae e => ∀ {Γ}, FreeNames.annotatedExpression Γ ae = [] →
    AssignsWithin Γ e) h
  case literal | none' | variable' | quote =>
    intros
    trivial
  case constant =>
    intro name lst t env lst' tv _ hlst Γ hΓ
    refine MiniC.allAssignWithin_iff.2 (forall_of_forall₂ hlst (FreeNames.all_eq_nil.1 hΓ) ?_)
    exact fun _ _ h => h
  case application | sequence | loop =>
    intro a b t env a' b' tv _ ha hb Γ hΓ
    obtain ⟨h₁, h₂⟩ := List.append_eq_nil_iff.1 hΓ
    exact ⟨ha h₁, hb h₂⟩
  case closure =>
    intro b i o r t env env' r' e' _ _ he' _ Γ _
    obtain ⟨_, _, -, -, rfl⟩ := map₂_eq_ok.1 he'
    exact ⟨trivial, trivial, trivial⟩
  case letIn =>
    intro b rhs r t env rhs' r' tv _ hrhs hr Γ hΓ
    obtain ⟨h₁, h₂⟩ := List.append_eq_nil_iff.1 hΓ
    exact ⟨hrhs h₂, hr h₁⟩
  case tuple =>
    intro lst t env tree hlst Γ hΓ
    exact assignsWithin_fold_pair
      (forall_of_forall₂ hlst (FreeNames.all_eq_nil.1 hΓ) fun _ _ h => h)
  case record =>
    intro m t env tree hm Γ hΓ
    exact assignsWithin_fold_pair
      (forall_of_forall₂ hm (FreeNames.fields_eq_nil.1 hΓ) fun _ _ h => h)
  case tupleAccessor | recordAccessor =>
    intro a ind t env a' path ha Γ hΓ
    exact assignsWithin_foldl_accessNode (ha hΓ)
  case constructor' =>
    intro name p t env p' e tv hp he Γ hΓ
    obtain ⟨c, u⟩ := p'
    exact he.assignsWithin (hp hΓ)
  case map =>
    intro m t env src dst m' tv _ _ hm Γ hΓ
    refine assignsWithin_updates trivial
      (forall_of_forall₂ hm (FreeNames.entries_eq_nil.1 hΓ) ?_)
    rintro x y ⟨hk, v', tv, -, hv, hy⟩ hx
    rw [hy]
    exact ⟨hk hx.1, hv hx.2, trivial⟩
  case list =>
    intro lst t env u lst' tv _ _ hlst Γ hΓ
    exact assignsWithin_consList
      (forall_of_forall₂ hlst (FreeNames.all_eq_nil.1 hΓ) fun _ _ h => h)
  case lookUp =>
    intro ds i t env ds' i' tv _ hds hi Γ hΓ
    obtain ⟨h₁, h₂⟩ := List.append_eq_nil_iff.1 hΓ
    exact ⟨hi h₂, hds h₁, trivial⟩
  case matchBool =>
    intro c a b t env c' a' b' tv _ hc ha hb Γ hΓ
    obtain ⟨h₁, h₂⟩ := List.append_eq_nil_iff.1 hΓ
    obtain ⟨h₂, h₃⟩ := List.append_eq_nil_iff.1 h₂
    exact ⟨hc h₁, ha h₂, hb h₃⟩
  case matchOption =>
    intro c n name ty s t env c' n' s' ty' tv _ _ hc hn hs Γ hΓ
    obtain ⟨h₁, h₂⟩ := List.append_eq_nil_iff.1 hΓ
    obtain ⟨h₂, h₃⟩ := List.append_eq_nil_iff.1 h₂
    exact ⟨hc h₁, hn h₂, hs h₃⟩
  case matchVariant =>
    intro c lst variant t env c' tree tree' r tv _ _ _ hc hlst hr Γ hΓ
    obtain ⟨h₁, h₂⟩ := List.append_eq_nil_iff.1 hΓ
    refine assignsWithin_matchVariant ?_ (hc h₁) hr
    rw [translateCases_eq, List.forall_mem_map]
    intro x hx b hb
    exact hlst x hx b hb (FreeNames.variantCases_eq_nil.1 h₂ x hx)
  case failwith =>
    intro ae t env ae' tv _ hae Γ hΓ
    exact ⟨hae hΓ, trivial⟩
  case assign =>
    intro name path e t env ty lrs e' tv _ _ he Γ hΓ
    obtain ⟨h₁, h₂⟩ := List.append_eq_nil_iff.1 hΓ
    refine ⟨?_, he h₂⟩
    -- a variable that is assigned to counts as a name that is used
    by_contra hmem
    rw [if_neg hmem] at h₁
    cases h₁

/-! ### The function of an entry point -/

/-- The declarations around a body, as `translateEntry` wraps them. -/
def wrap (before : Program) (body : AnnotatedExpression) : AnnotatedExpression :=
  before.foldr (fun d body => eALetIn d.name d.annotatedExpression body d.preEnvironment) body

/-- The declarations and their translations. -/
def Translations (before : Program) (ds : List (String × MiniC.Expression)) : Prop :=
  List.Forall₂ (fun d x => x.1 = d.name ∧ translateAnnotatedExpression d.annotatedExpression =
    .ok x.2) before ds

/-- The translated declarations have their names. -/
theorem Translations.names {before : Program} {ds : List (String × MiniC.Expression)}
    (h : Translations before ds) : Scope.names ds = before.map Declaration.name := by
  induction h with
  | nil => rfl
  | cons hx _ ih => rw [Scope.names_cons, List.map_cons, hx.1, ih]

/-- The declarations of a closed program assign what is declared before them. -/
theorem Translations.within {before : Program} {ds : List (String × MiniC.Expression)}
    (h : Translations before ds) {b : List String} (hclosed : ClosedFrom b before) :
    MiniC.DeclarationsWithin b ds := by
  induction h generalizing b with
  | nil => trivial
  | @cons d x before ds hx _ ih =>
    obtain ⟨name, e⟩ := x
    obtain ⟨rfl, he⟩ := hx
    exact ⟨assignsWithin_of_translate he hclosed.1, ih hclosed.2⟩

/-- Declarations around an expression do not change its type. -/
theorem typeAnnot_wrap (before : Program) (body : AnnotatedExpression) :
    (wrap before body).typeAnnot = body.typeAnnot := by
  induction before with
  | nil => rfl
  | cons d before ih => exact ih

/-- The translation of wrapped declarations is a chain of `let`s. -/
theorem translate_wrap {before : Program} {body : AnnotatedExpression} {e : MiniC.Expression}
    (h : translateAnnotatedExpression (wrap before body) = .ok e) :
    ∃ ds body' tv, Translations before ds ∧ translateAnnotatedExpression body = .ok body' ∧
      e = lets tv ds body' := by
  have htv : ∃ tv, translateType body.typeAnnot = .ok tv := by
    obtain ⟨r, t, env⟩ := body
    rw [← typeAnnot_wrap before]
    generalize wrap before (.mk r t env) = ae at h ⊢
    obtain ⟨r, t, env⟩ := ae
    obtain ⟨tv, htv, -⟩ := bind_eq_ok.1 h
    exact ⟨tv, htv⟩
  obtain ⟨tv, htv⟩ := htv
  suffices ∃ ds body', Translations before ds ∧ translateAnnotatedExpression body = .ok body' ∧
      e = lets tv ds body' by
    obtain ⟨ds, body', hds, hbody, he⟩ := this
    exact ⟨ds, body', tv, hds, hbody, he⟩
  induction before generalizing e with
  | nil => exact ⟨[], e, .nil, h, rfl⟩
  | cons d before ih =>
    have h : translateAnnotatedExpression (.mk (.eLetIn d.name d.annotatedExpression
      (wrap before body)) (wrap before body).typeAnnot d.preEnvironment) = .ok e := h
    rw [typeAnnot_wrap] at h
    obtain ⟨tv', htv', h⟩ := bind_eq_ok.1 h
    cases htv.symm.trans htv'
    obtain ⟨rhs, rest, hrhs, hrest, rfl⟩ := map₂_eq_ok.1 h
    obtain ⟨ds, body', hds, hbody, rfl⟩ := ih hrest
    exact ⟨(d.name, rhs) :: ds, body', .cons ⟨rfl, hrhs⟩ hds, hbody, rfl⟩

/-- The declaration of `name` that comes first in `p`, after `before`, is the lambda `l`. -/
def FirstDeclaration (p : Program) (name : String) (before : Program) (l : Lambda) : Prop :=
  ∃ d after, p = before ++ d :: after ∧ d.name = name ∧ (∀ d' ∈ before, d'.name ≠ name) ∧
    d.annotatedExpression.expression = .eLambda l

/-- The first declaration of the name is the entry point, and the ones before it are wrapped
around its body. -/
theorem translateEntryAux_eq {name : String} {acc : AnnotatedExpression → AnnotatedExpression}
    {before after : Program} {d : Declaration} (hd : d.name = name)
    (hbefore : ∀ d' ∈ before, d'.name ≠ name) :
    translateEntryAux name acc (before ++ d :: after) =
      translateMain (entryLambda (fun body => acc (wrap before body)) d.annotatedExpression) := by
  induction before generalizing acc with
  | nil => exact if_pos hd
  | cons d' before ih =>
    obtain ⟨hd', hbefore⟩ := List.forall_mem_cons.1 hbefore
    rw [List.cons_append, translateEntryAux, if_neg hd', ih hbefore]
    rfl

/-- A lambda whose translation is a literal has no free variables, and the literal returns
the translation of its body. -/
theorem translateMain_eq_ok {b : String} {i o : TypeValue} {r : AnnotatedExpression}
    {f : MiniC.AnonFunction} (h : translateMain (.mk b i o r) = .ok f) :
    FreeVariables.annotatedExpression [b] r = [] ∧
      ∃ r', translateAnnotatedExpression r = .ok r' ∧ f.binder = b ∧ f.result = ezEReturn r' := by
  obtain ⟨expr, hexpr, h⟩ := bind_eq_ok.1 h
  rw [translateLambda] at hexpr
  split at hexpr
  · rename_i hfv
    obtain ⟨r', hr, hexpr⟩ := bind_eq_ok.1 hexpr
    replace hexpr := trace_eq_ok.1 hexpr
    obtain ⟨i', o', -, -, rfl⟩ := map₂_eq_ok.1 hexpr
    cases h
    exact ⟨hfv, r', hr, rfl, rfl⟩
  · replace hexpr := trace_eq_ok.1 hexpr
    -- a closure is a pair, not a literal
    obtain ⟨_, -, hexpr⟩ := bind_eq_ok.1 hexpr
    obtain ⟨_, _, -, -, rfl⟩ := map₂_eq_ok.1 hexpr
    cases h

/-! ### The scope of the body -/

variable (ctx : Context)

/-- A call of `f` evaluates `body` where the declarations `ds` are bound, evaluated in this
order and without the parameter, and the parameter is bound to the argument last. -/
def ParameterInnermost (ds : List (String × MiniC.Expression)) (f : MiniC.AnonFunction)
    (body : MiniC.Expression) : Prop :=
  ∀ v ρ, Enters ctx f.result [(f.binder, v)] body ρ ↔
    ∃ G, Declares ctx ds [] G ∧ ρ = (f.binder, v) :: G

variable {ctx}

/-- The declarations leave the binding below them alone. -/
theorem declares_frame {before : Program} {ds : List (String × MiniC.Expression)}
    (hds : Translations before ds) (hclosed : ClosedFrom [] before)
    {T ρ : Env MiniC.AnonFunction} (h : Declares ctx ds T ρ) :
    ∃ G, ρ = G ++ T ∧ Scope.names G = (before.map Declaration.name).reverse := by
  obtain ⟨G, hG, hnames⟩ := h.frame (Γ := []) (T := T) (hds.within hclosed) ⟨[], rfl, rfl⟩
  exact ⟨G, hG, by rw [hnames, List.append_nil, hds.names]⟩

/-- The body runs above the declarations, and these above the parameter. -/
theorem enters_translateEntry_iff {p : Program} {name : String} {before : Program} {l : Lambda}
    {f : MiniC.AnonFunction} (hl : FirstDeclaration p name before l)
    (h : translateEntry p name = .ok f) :
    ∃ ds body, Translations before ds ∧ translateAnnotatedExpression l.result = .ok body ∧
      f.binder = l.binder ∧ ∀ v ρ,
        Enters ctx f.result [(f.binder, v)] body ρ ↔ Declares ctx ds [(f.binder, v)] ρ := by
  obtain ⟨d, after, rfl, hname, hbefore, hlam⟩ := hl
  obtain ⟨b, i, o, r⟩ := l
  rw [translateEntry, translateEntryAux_eq hname hbefore, entryLambda, hlam] at h
  obtain ⟨-, r', hr, hbinder, hresult⟩ := translateMain_eq_ok h
  obtain ⟨ds, body, tv, hds, hbody, rfl⟩ := translate_wrap hr
  refine ⟨ds, body, hds, hbody, hbinder, fun v ρ => ?_⟩
  rw [hresult, ← MiniC.enters_lets_iff (t := tv)]
  constructor
  · intro hent
    have hsize := MiniC.sizeOf_lets tv ds body
    rw [ezEReturn] at hent
    generalize MiniC.lets tv ds body = e at hent hsize ⊢
    cases hent with
    | here =>
      -- the body is not the whole function
      simp only [MiniC.Expression.mk.sizeOf_spec,
        MiniC.Expression'.eEnvironmentReturn.sizeOf_spec] at hsize
      omega
    | ret hent => exact hent
  · exact fun hent => .ret hent

/-- The parameter is bound first, and only a name that is bound again can tell; it is bound
last only if there are no declarations to be bound. -/
theorem parameterInnermost_iff {p : Program} {name : String} {before : Program} {l : Lambda}
    {f : MiniC.AnonFunction} (hclosed : Closed p) (hl : FirstDeclaration p name before l)
    (h : translateEntry p name = .ok f) :
    ∃ ds body, Translations before ds ∧ translateAnnotatedExpression l.result = .ok body ∧
      f.binder = l.binder ∧
      (∀ v ρ, Enters ctx f.result [(f.binder, v)] body ρ → ∃ G, Declares ctx ds [(f.binder, v)] ρ ∧
        ρ = G ++ [(f.binder, v)] ∧ Scope.names G = (before.map Declaration.name).reverse ∧
        ∀ x, x ≠ f.binder ∨ f.binder ∉ before.map Declaration.name →
          Scope.lookup x ρ = Scope.lookup x ((f.binder, v) :: G)) ∧
      (ParameterInnermost ctx ds f body ↔
        before = [] ∨ (∀ G, ¬ Declares ctx ds [] G) ∧
          ∀ v ρ, ¬ Declares ctx ds [(f.binder, v)] ρ) := by
  obtain ⟨ds, body, hds, hbody, hbinder, henters⟩ := @enters_translateEntry_iff ctx _ _ _ _ _ hl h
  have hbefore : ClosedFrom [] before := by
    obtain ⟨d, after, rfl, -⟩ := hl
    exact ClosedFrom.of_append hclosed
  refine ⟨ds, body, hds, hbody, hbinder, fun v ρ hent => ?_, ?_⟩
  · have hdecl := (henters v ρ).1 hent
    obtain ⟨G, hG, hnames⟩ := declares_frame hds hbefore hdecl
    refine ⟨G, hdecl, hG, hnames, fun x hx => ?_⟩
    rw [hG, Scope.lookup_concat]
    rwa [hnames, List.mem_reverse]
  · rw [ParameterInnermost]
    simp only [henters]
    constructor
    · intro hinner
      by_cases hnil : before = []
      · exact .inl hnil
      · -- otherwise some declaration has an oldest binding, one for all arguments
        have hnone : ∀ G, ¬ Declares ctx ds [] G := by
          intro G hG
          obtain ⟨G', hG', hnames⟩ := declares_frame hds hbefore hG
          have hGne : G ≠ [] := by
            rintro rfl
            rw [List.append_nil] at hG'
            rw [← hG', Scope.names_nil] at hnames
            exact hnil (List.map_eq_nil_iff.1 (List.reverse_eq_nil_iff.1 hnames.symm))
          -- the oldest binding of the two environments would be the parameter, whatever its value
          have hlast : ∀ v, (f.binder, v) = G.getLast hGne := by
            intro v
            have hdecl := (hinner v ((f.binder, v) :: G)).2 ⟨G, hG, rfl⟩
            obtain ⟨G₁, hG₁, -⟩ := declares_frame hds hbefore hdecl
            have hlast : ((f.binder, v) :: G).getLast? = (G₁ ++ [(f.binder, v)]).getLast? :=
              congrArg _ hG₁
            rw [List.getLast?_concat, List.getLast?_cons, List.getLast?_eq_getLast_of_ne_nil hGne]
              at hlast
            exact (Option.some.inj hlast).symm
          have habsurd := (hlast .unit).trans (hlast .none).symm
          cases (Prod.mk.inj habsurd).2
        refine .inr ⟨hnone, fun v ρ hdecl => ?_⟩
        obtain ⟨G, hG, -⟩ := (hinner v ρ).1 hdecl
        exact hnone G hG
    · rintro (rfl | ⟨hnone, hnone'⟩) v ρ
      · cases hds
        exact ⟨fun hρ => ⟨[], rfl, hρ.symm⟩, fun ⟨G, hG, hρ⟩ => by
          cases hG
          exact hρ.symm⟩
      · exact ⟨fun hdecl => absurd hdecl (hnone' v ρ), fun ⟨G, hG, _⟩ => absurd hG (hnone G)⟩

/-- The entry point `main` whose parameter and body are `x`. -/
def mainX (env : FullEnvironment) : Declaration :=
  ⟨"main", .mk (.eLambda (.mk "x" tInt tInt (.mk (.eVariable "x") tInt
      (.mk [("x", .mk tInt .binder)] [])))) (.tFunction tInt tInt) env, env, env⟩

/-- An entry point without declarations before it. -/
theorem mainX_alone :
    ∃ f body, translateEntry [mainX (.mk [] [])] "main" = .ok f ∧
      ParameterInnermost Context.empty [] f body := by
  obtain ⟨f, hf⟩ : ∃ f, translateEntry [mainX (.mk [] [])] "main" = .ok f := ⟨_, rfl⟩
  obtain ⟨ds, body, hds, -, -, -, hiff⟩ := @parameterInnermost_iff Context.empty
    _ _ [] _ _ (show Closed [mainX (.mk [] [])] from ⟨rfl, trivial⟩) ⟨_, [], rfl, rfl, fun _ h => absurd h List.not_mem_nil, rfl⟩ hf
  cases hds
  exact ⟨f, body, hf, hiff.2 (.inl rfl)⟩

/-- The constant `x` before `main`. -/
def constX : Declaration :=
  ⟨"x", .mk (.eLiteral (.int ⟨1, OInt.one_mem⟩)) tInt (.mk [] []), .mk [] [],
    .mk [("x", .mk tInt .binder)] []⟩

/-- The argument 7 is not seen: the constant hides the parameter. -/
theorem constX_hides_parameter :
    ∃ f one body, translateEntry [constX, mainX constX.postEnvironment] "main" = .ok f ∧
      Translations [constX] [("x", one)] ∧
      MiniC.applyQuote Context.empty 1 f (.int 7) = .ok (.int 1) ∧
      ¬ ParameterInnermost Context.empty [("x", one)] f body := by
  obtain ⟨f, hf⟩ : ∃ f, translateEntry [constX, mainX constX.postEnvironment] "main" = .ok f :=
    ⟨_, rfl⟩
  cases hf
  refine ⟨_, .mk (.eLiteral (.dInt ⟨1, by decide⟩)) (.tBase .int),
    .mk (.eVariable "x") (.tBase .int), rfl, .cons ⟨rfl, rfl⟩ .nil, rfl, fun hinner => ?_⟩
  have hent := (hinner (.int 7) [("x", .int 7), ("x", .int 1)]).2
    ⟨[("x", .int 1)], ⟨.int 1, [], ⟨0, rfl⟩, rfl⟩, rfl⟩
  -- there the body would return the argument
  obtain ⟨ρ', h1⟩ := hent.call_iff.1 ⟨1, rfl⟩
  have h7 : Evaluates Context.empty (.mk (.eVariable "x") (.tBase .int))
      [("x", .int 7), ("x", .int 1)] (.int 7) [("x", .int 7), ("x", .int 1)] := ⟨0, rfl⟩
  cases (h1.unique h7).1

end Ligo.Transpiler
