import Ligo.Transpiler.AccessPath

/-!
# Nested assignments

`assigns_iff`: an assignment to a path of a variable does what it is for (`Assigns`)
exactly when the path reads the same in both directions, or when it changes nothing, and the
type of the variable is within the limit on the size of types. The type checker follows the
path from the left and the transpiler from the right (`transpiler_assignPath_iff`), so that a
path of two different fields leads to another component (`quad_elsewhere`), if it leads
anywhere at all.
-/

namespace Ligo.Transpiler

open AstTyped
open CompilerProgram (translateExpression_typed Known WellTyped compiles tmp
  translate_assignment_iff ends_assignment)
open MiniC (Step Apart Env component updatePath)
open Michelson (Context Ends Stack Value Node Outcome)
open Fuel (bind_eq_ok map₂_eq_ok)
open Outcome (ok_bind)
open Scope (names vals)

/-! ### Accessors -/

section Access

variable {ctx : Context}

/-- The components of a pair have types when the pair has one. -/
theorem known_pair {a b : MiniC.TypeValue} (h : Known (.tPair a b)) : Known a ∧ Known b := by
  obtain ⟨⟨u, hu⟩, n, hn⟩ := h
  -- both translations of a pair translate its components
  obtain ⟨ua, ub, hua, hub, -⟩ := map₂_eq_ok.1 hu
  obtain ⟨na, hna, hn⟩ := bind_eq_ok.1 hn
  obtain ⟨nb, hnb, -⟩ := bind_eq_ok.1 hn
  have ha : Known a := ⟨⟨ua, hua⟩, na, hna⟩
  have hb : Known b := ⟨⟨ub, hub⟩, nb, hnb⟩
  exact ⟨ha, hb⟩

/-- One step of an accessor is well typed. -/
theorem wellTyped_accessNode {Γ : MiniC.Environment} {e : MiniC.Expression}
    {a b : MiniC.TypeValue} (he : WellTyped ctx Γ e) (hτ : e.typeValue = .tPair a b)
    (hknown : Known (.tPair a b)) :
    WellTyped ctx Γ (accessNode e (a, .left)) ∧ WellTyped ctx Γ (accessNode e (b, .right)) := by
  obtain ⟨⟨_, hu⟩, -⟩ := id hknown
  obtain ⟨ua, ub, hua, hub, rfl⟩ := map₂_eq_ok.1 hu
  have hargs : ∀ e' ∈ [e], WellTyped ctx Γ e' := by
    intro e' he'
    cases List.mem_singleton.1 he'
    exact he
  have hpair : CompilerType.Ty.type_ (.tPair a b) = .ok (.pair ua ub) := by
    rw [CompilerType.Ty.type_, hua, hub]
    rfl
  have hbef : [e].mapM (fun e => CompilerType.Ty.type_ e.typeValue) = .ok [.pair ua ub] := by
    rw [List.mapM_cons, hτ, hpair]
    rfl
  -- `CAR` and `CDR` have predicates of their own, which fit every pair
  have hcar : CompilerProgram.Fits ctx "CAR" a [e] [.pair ua ub] ua :=
    CompilerProgram.fits_of_predicates rfl rfl fun _ => rfl
  have hcdr : CompilerProgram.Fits ctx "CDR" b [e] [.pair ua ub] ub :=
    CompilerProgram.fits_of_predicates rfl rfl fun _ => rfl
  obtain ⟨ha, hb⟩ := known_pair hknown
  exact ⟨.constant hargs hbef ha hua hcar, .constant hargs hbef hb hub hcdr⟩

/-- Reading a component is well typed at the types that are recorded along the path. -/
theorem wellTyped_access {Γ : MiniC.Environment} {e : MiniC.Expression}
    {path : List (MiniC.TypeValue × Step)} {τ τ' : MiniC.TypeValue} (he : WellTyped ctx Γ e)
    (hτ : e.typeValue = τ) (hknown : Known τ) (h : Recorded path τ τ') :
    WellTyped ctx Γ (path.foldl accessNode e) := by
  induction path generalizing e τ with
  | nil => exact he
  | cons x path ih =>
    obtain ⟨σ, step⟩ := x
    -- a recorded step says that the type it stands for is a component of a pair
    cases step <;> cases τ
    case left.tPair a b =>
      obtain ⟨rfl, h⟩ := h
      have hcar : WellTyped ctx Γ (accessNode e (σ, .left)) := (wellTyped_accessNode he hτ hknown).1
      exact ih hcar rfl (known_pair hknown).1 h
    case right.tPair a b =>
      obtain ⟨rfl, h⟩ := h
      have hcdr : WellTyped ctx Γ (accessNode e (σ, .right)) :=
        (wellTyped_accessNode he hτ hknown).2
      exact ih hcdr rfl (known_pair hknown).2 h
    all_goals exact h.elim

/-- Reading a component keeps an expression plain. -/
theorem plain_access {e : MiniC.Expression} {path : List (MiniC.TypeValue × Step)}
    (he : MiniC.Plain e) : MiniC.Plain (path.foldl accessNode e) := by
  induction path generalizing e with
  | nil => exact he
  | cons x path ih => exact ih ⟨he, trivial⟩

/-- An accessor reads the part at its steps. -/
theorem eval_access {F : Type} {quote : MiniC.AnonFunction → Option F}
    {apply : F → Value F → Outcome F (Value F)} {n : ℕ} {e : MiniC.Expression}
    {path : List (MiniC.TypeValue × Step)} {ρ ρ' : Env F} {v w : Value F}
    (he : MiniC.eval ctx quote apply n e ρ = .ok (v, ρ'))
    (h : component (path.map Prod.snd) v = some w) :
    MiniC.eval ctx quote apply n (path.foldl accessNode e) ρ = .ok (w, ρ') := by
  induction path generalizing e v with
  | nil =>
    cases h
    exact he
  | cons x path ih =>
    obtain ⟨σ, step⟩ := x
    -- each step of the accessor is a constant of one argument
    have hargs : MiniC.evalArguments ctx quote apply n [e] ρ = .ok ([v], ρ') :=
      MiniC.evalArguments_singleton he
    cases step <;> cases v
    case left.pair a b => exact ih (MiniC.eval_eConstant hargs rfl) h
    case right.pair a b => exact ih (MiniC.eval_eConstant hargs rfl) h
    all_goals cases h

end Access

/-! ### The variable -/

/-- The variable `a`: its types in the environments of the type checker and of the
generator. A variable that is a closure has another type in the latter. -/
structure Binds (env : Typer.Environment) (Γ : MiniC.Environment) (a : String) (T : TypeValue)
    (τ : MiniC.TypeValue) : Prop where
  fresh : a ≠ MiniC.Environment.tmpName
  element : ∃ el, Typer.Environment.getOpt a env = some el ∧ Typer.elementType el = T ∧
    transpileEnvironmentElementType el = .ok τ
  translated : translateType T = .ok τ
  bound : Scope.lookup a Γ = some τ
  known : Known τ
  stack : ∃ S, CompilerType.Ty.environment Γ = .ok S

/-- Reading the path `fs` of the variable `a` on the stack `s` gives `w`. -/
def Reads (ctx : Context) (env : Typer.Environment) (Γ : MiniC.Environment) (a : String)
    (fs : List Field) (s : Stack) (w : Value Node) : Prop :=
  ∃ ae e code Γ', Typer.typeExpression env none
      (.eAccessor (.eVariable a) (fs.map Field.simplified)) = .ok ae ∧
    translateAnnotatedExpression ae = .ok e ∧
    CompilerProgram.translateExpression ctx e Γ = .ok (code, Γ') ∧ Ends ctx code s (w :: s)

section Variable

variable {ctx : Context} {env : Typer.Environment} {Γ : MiniC.Environment} {a : String}
  {T : TypeValue} {τ : MiniC.TypeValue} (h : Binds env Γ a T τ)

include h

/-- A variable is typed and translated. -/
theorem typeExpression_eVariable :
    ∃ av, Typer.typeExpression env none (.eVariable a) = .ok av ∧ av.typeAnnot = T ∧
      translateAnnotatedExpression av = .ok (.mk (.eVariable a) τ) := by
  obtain ⟨el, hel, hT, htype⟩ := h.element
  refine ⟨.mk (.eVariable a) (Typer.elementType el) env.elements, ?_, hT, ?_⟩
  · rw [Typer.typeExpression, hel]
    rfl
  · have hτ : translateType (Typer.elementType el) = .ok τ := by rw [hT, h.translated]
    have hfound : traceOption "name not in environment" (Environment.getOpt a env.elements) =
        .ok el := traceOption_eq_ok.2 hel
    rw [translate_mk hτ, translateExpression, hfound, ok_bind, htype]
    rfl

/-- A valid path is read from the part that it resolves to. -/
theorem reads_iff {fs : List Field} {t : TypeValue} {steps : List Step} {ρ : Env Node}
    {old u w : Value Node} (hfs : resolve T fs = some (t, steps)) (hρ : names ρ = names Γ)
    (hold : Scope.lookup a ρ = some old) (hu : component steps old = some u) :
    Reads ctx env Γ a fs (vals ρ) w ↔ w = u := by
  obtain ⟨av, hav, hT, htranslate⟩ := typeExpression_eVariable h
  obtain ⟨ae, path, τ', hae, htranslate, rfl, hrecorded⟩ :=
    @translate_accesses env _ _ _ _ _ _ htranslate (by rw [hT, h.translated]) (by rw [hT, hfs])
  have htyped : Typer.typeExpression env none
      (.eAccessor (.eVariable a) (fs.map Field.simplified)) = .ok ae := by
    rw [Typer.typeExpression]
    exact trace_eq_ok.2 (bind_eq_ok.2 ⟨av, hav, trace_eq_ok.2 hae⟩)
  -- the accessor compiles, and its code pushes the part
  have hvariable : WellTyped ctx Γ (.mk (.eVariable a) τ) := .variable' h.fresh h.bound h.known
  obtain ⟨S, hS⟩ := h.stack
  obtain ⟨code, _, hcode, -⟩ :=
    translateExpression_typed (wellTyped_access hvariable rfl h.known hrecorded) hS
  have hplain : MiniC.Plain (path.foldl accessNode (.mk (.eVariable a) τ)) :=
    plain_access h.fresh
  have hends : Ends ctx code (vals ρ) (u :: vals ρ) := by
    refine Michelson.ends_of_step fun exec n => ?_
    have hstep := (compiles hplain hcode).2 exec n hρ []
    have heval : MiniC.eval ctx (CompilerProgram.compileQuote ctx) exec n
        (.mk (.eVariable a) τ) ρ = .ok (old, ρ) := by
      rw [MiniC.eval, MiniC.eval', hold]
    rw [List.append_nil, eval_access heval hu] at hstep
    rw [hstep]
    exact congrArg (fun s => Except.ok (u :: s)) (List.append_nil _)
  constructor
  · rintro ⟨ae', e', code', Γ', hae', he', hcode', hends'⟩
    cases htyped.symm.trans hae'
    cases htranslate.symm.trans he'
    cases hcode.symm.trans hcode'
    cases Ends.unique ctx hends' hends
    rfl
  · rintro rfl
    exact ⟨ae, _, code, _, htyped, htranslate, hcode, hends⟩

end Variable

/-! ### The assignment -/

/-- What the assignment of `v` to the path `fs` of `a` is for, when the evaluation of `v`
on the stack `s` gives `w` and leaves the values `ρ`: it compiles, the path then reads `w`,
the paths apart from it read what they did, and nothing but `a` changes. -/
def Assigns (ctx : Context) (env : Typer.Environment) (Γ : MiniC.Environment) (a : String)
    (T : TypeValue) (fs : List Field) (v : AstSimplified.Expression) (s : Stack) (ρ : Env Node)
    (w : Value Node) : Prop :=
  ∃ ae e code Γ' new,
    Typer.typeExpression env none (.eAssign a (fs.map Field.simplified) v) = .ok ae ∧
    translateAnnotatedExpression ae = .ok e ∧
    CompilerProgram.translateExpression ctx e Γ = .ok (code, Γ') ∧
    Ends ctx code s (.unit :: vals (Scope.assign a new ρ)) ∧
    Reads ctx env Γ a fs (vals (Scope.assign a new ρ)) w ∧
    ∀ gs r, Apart gs fs → Typer.assignPath T (gs.map Field.simplified) = .ok r → ∀ u,
      Reads ctx env Γ a gs (vals ρ) u → Reads ctx env Γ a gs (vals (Scope.assign a new ρ)) u

/-- The condition on the type of the variable, whose Michelson type is `ty`, the path, the old
value of the variable and the new value of the part, whose Michelson type is `u`: the path leads
to a part of this type from the right, the pairs on the way are within the limit, and the path
is its own reverse, unless both parts have the new value already. -/
def Settles (ctx : Context) (T : TypeValue) (ty : Michelson.Ty) (fs : List Field)
    (old w : Value Node) (u : Michelson.Ty) : Prop :=
  ∃ t' steps' τ', resolve T fs.reverse = some (t', steps') ∧ translateType t' = .ok τ' ∧
    CompilerType.Ty.type_ τ' = .ok u ∧ (steps' ≠ [] → ctx.admits ty = true) ∧
    (fs.reverse = fs ∨
      ∃ t steps, resolve T fs = some (t, steps) ∧ component steps old = some w ∧
        component steps' old = some w)

/-! ### Two pairs of integers -/

/-- Two pairs of integers. -/
def quadType : TypeValue := .tTuple [.tTuple [tInt, tInt], .tTuple [tInt, tInt]]

def quadPair : MiniC.TypeValue :=
  .tPair (.tPair (.tBase .int) (.tBase .int)) (.tPair (.tBase .int) (.tBase .int))

def quadTy : Michelson.Ty :=
  .pair (.pair (.comparable .int) (.comparable .int))
    (.pair (.comparable .int) (.comparable .int))

def intValue (n : ℤ) : Value Node := .atom (.int n)

/-- `((1, 2), (3, 4))`. -/
def quadValue : Value Node :=
  .pair (.pair (intValue 1) (intValue 2)) (.pair (intValue 3) (intValue 4))

/-- The environment of the type checker that binds `q`. -/
def quadEnvironment : Typer.Environment :=
  Typer.Environment.addEzBinder "q" quadType Typer.Environment.fullEmpty

theorem quad_binds : Binds quadEnvironment [("q", quadPair)] "q" quadType quadPair where
  fresh := by decide
  element := ⟨_, rfl, rfl, rfl⟩
  translated := rfl
  bound := rfl
  known := ⟨⟨quadTy, rfl⟩, _, rfl⟩
  stack := ⟨[quadTy], rfl⟩

/-- The literal `7`. -/
def seven : AstSimplified.Expression := .eLiteral (.int ⟨7, by decide⟩)

/-- The value of the variable has its type. -/
theorem quad_hasTy :
    Michelson.HasTy Context.empty (fun _ _ _ => True) quadTy quadValue :=
  ⟨_, _, rfl, ⟨_, _, rfl, ⟨_, rfl, rfl⟩, _, rfl, rfl⟩, _, _, rfl, ⟨_, rfl, rfl⟩, _, rfl, rfl⟩

/-! ### When an assignment does what it is for -/

section Assign

variable {ctx : Context} {env : Typer.Environment} {Γ : MiniC.Environment} {a : String}
  {T : TypeValue} {τ : MiniC.TypeValue} (h : Binds env Γ a T τ)
  {fs : List Field} {t : TypeValue} {path : List Access}
  (hpath : Typer.assignPath T (fs.map Field.simplified) = .ok (t, path))
  {v : AstSimplified.Expression} {av : AnnotatedExpression} {e : MiniC.Expression}
  (hv : Typer.typeExpression env none v = .ok av) (ht : av.typeAnnot = t)
  (hav : translateAnnotatedExpression av = .ok e)

include h hpath hv ht in
/-- The assignment of a component is typed. -/
theorem typeExpression_eAssign :
    Typer.typeExpression env none (.eAssign a (fs.map Field.simplified) v) =
      .ok (.mk (.eAssign ⟨a, T⟩ path av) tUnit env.elements) := by
  obtain ⟨el, hel, rfl, -⟩ := h.element
  have heq : assertTypeValueEq t av.typeAnnot = .ok () := assertTypeValueEq_iff.2 ht.symm
  rw [Typer.typeExpression]
  refine trace_eq_ok.2 (bind_eq_ok.2 ⟨el, traceOption_eq_ok.2 hel, ?_⟩)
  refine bind_eq_ok.2 ⟨(t, path), hpath, ?_⟩
  simp only [hv, ok_bind]
  exact bind_eq_ok.2 ⟨(), traceStrong_eq_ok.2 heq, rfl⟩

include h hpath hav in
/-- The transpiler accepts an assignment whose path it can follow from the right. -/
theorem translate_eAssign_iff {env' : FullEnvironment} {e' : MiniC.Expression} :
    translateAnnotatedExpression (.mk (.eAssign ⟨a, T⟩ path av) tUnit env') = .ok e' ↔
      ∃ t' steps', resolve T fs.reverse = some (t', steps') ∧
        e' = .mk (.eAssignment a steps' e) (.tBase .unit) := by
  obtain ⟨-, rfl⟩ := typer_assignPath_iff.1 hpath
  rw [translateAnnotatedExpression]
  constructor
  -- the types before the last step are discarded by the transpiler as well
  · intro he'
    obtain ⟨tv, htv, he'⟩ := bind_eq_ok.1 he'
    cases htv
    rw [translateExpression] at he'
    obtain ⟨⟨t', steps'⟩, hpath', he'⟩ := bind_eq_ok.1 he'
    obtain ⟨e₁, he₁, he'⟩ := bind_eq_ok.1 he'
    cases hav.symm.trans he₁
    cases he'
    exact ⟨t', steps', (transpiler_assignPath_iff h.translated).1 hpath', rfl⟩
  -- the other way round, the path and the expression are translated one after the other
  · rintro ⟨t', steps', hresolve, rfl⟩
    have hunit : translateType tUnit = .ok (.tBase .unit) := rfl
    have hpath' : assignPath T (fs.map Field.typed) = .ok (t', steps') :=
      (transpiler_assignPath_iff h.translated).2 hresolve
    rw [hunit, ok_bind, translateExpression, hpath', ok_bind, hav]
    rfl

variable {codeE : Node} {τv : MiniC.TypeValue} {u : Michelson.Ty}
  (he : CompilerProgram.translateExpression ctx e Γ = .ok (codeE, tmp τv Γ))
  (hu : CompilerType.Ty.type_ τv = .ok u) {s : Stack} {ρ : Env Node} {w old : Value Node}
  (hend : Ends ctx codeE s (w :: vals ρ)) (hρ : names ρ = names Γ)
  (hold : Scope.lookup a ρ = some old) {fn : Node → Michelson.Ty → Michelson.Ty → Prop}
  {ty : Michelson.Ty} (hty : CompilerType.Ty.type_ τ = .ok ty)
  (htyped : Michelson.HasTy ctx fn ty old)

include h hty htyped in
/-- A value of the type of the variable has the parts that paths resolve to. -/
theorem component_of_resolve {gs : List Field} {t' : TypeValue} {steps : List Step}
    (hgs : resolve T gs = some (t', steps)) : ∃ c, component steps old = some c := by
  obtain ⟨τ', -, hat⟩ := resolve_translateType hgs h.translated
  obtain ⟨u', -, hat'⟩ := tyAt_of_typeAt hat hty
  obtain ⟨c, hc, -⟩ := MiniC.component_of_hasTy htyped hat'
  exact ⟨c, hc⟩

include h he hu hend hρ hold hty in
/-- The assignment compiles when its path leads to a part of the type of the value from
the right, and then it writes this part. -/
theorem ends_eAssign {t' : TypeValue} {steps' : List Step} {τ' : MiniC.TypeValue}
    {new : Value Node} (hresolve : resolve T fs.reverse = some (t', steps'))
    (hτ' : translateType t' = .ok τ') (hu' : CompilerType.Ty.type_ τ' = .ok u)
    (hwithin : steps' ≠ [] → ctx.admits ty = true) (hnew : updatePath w steps' old = .ok new) :
    ∃ code Γ', CompilerProgram.translateExpression ctx
        (.mk (.eAssignment a steps' e) (.tBase .unit)) Γ = .ok (code, Γ') ∧
      Ends ctx code s (.unit :: vals (Scope.assign a new ρ)) := by
  obtain ⟨S, hS⟩ := h.stack
  obtain ⟨_, hτ₁, hat⟩ := resolve_translateType hresolve h.translated
  cases hτ'.symm.trans hτ₁
  obtain ⟨_, hu₁, hat'⟩ := tyAt_of_typeAt hat hty
  cases hu'.symm.trans hu₁
  obtain ⟨⟨code, Γ'⟩, hcode⟩ :=
    (translate_assignment_iff h.fresh hS h.bound hty hu he).2 ⟨hat', hwithin⟩
  exact ⟨code, Γ', hcode, ends_assignment h.fresh he hcode hρ hend hold hnew⟩

include h hpath hv ht hav he hu hend hρ hold hty htyped

/-- What an assignment does when it compiles, and that it compiles, decides the conditions. -/
theorem settles_of_assigns (hassigns : Assigns ctx env Γ a T fs v s ρ w) :
    Settles ctx T ty fs old w u := by
  obtain ⟨S, hS⟩ := h.stack
  obtain ⟨⟨steps, hsteps⟩, hpath'⟩ := typer_assignPath_iff.1 hpath
  obtain ⟨c, hc⟩ := component_of_resolve h hty htyped hsteps
  have hae := typeExpression_eAssign h hpath hv ht
  have hreads := @reads_iff ctx env Γ a T τ h
  obtain ⟨ae', e', code, Γ', new, hae', he', hcode, hends, hread, hrest⟩ := hassigns
  cases hae.symm.trans hae'
  obtain ⟨t', steps', hresolve, rfl⟩ := (translate_eAssign_iff h hpath hav).1 he'
  obtain ⟨τ', hτ', hat⟩ := resolve_translateType hresolve h.translated
  obtain ⟨u', hu', hat'⟩ := tyAt_of_typeAt hat hty
  -- it compiles, so the part that is written has the type of the value
  obtain ⟨htype, hwithin⟩ :=
    (translate_assignment_iff h.fresh hS h.bound hty hu he).1 ⟨_, hcode⟩
  cases hat'.symm.trans htype
  refine ⟨t', steps', τ', hresolve, hτ', hu', hwithin, ?_⟩
  by_cases hreverse : fs.reverse = fs
  · exact .inl hreverse
  refine .inr ⟨t, steps, hsteps, ?_⟩
  have hapart : Apart fs.reverse fs := MiniC.apart_of_length (List.length_reverse ..) hreverse
  have hapart' : Apart steps steps' := (apart_resolve hresolve hsteps hapart).symm
  obtain ⟨c', hc'⟩ := component_of_resolve h hty htyped hresolve
  obtain ⟨new', hnew'⟩ := @MiniC.updatePath_of_component _ w _ _ _ hc'
  have hends' := ends_assignment h.fresh he hcode hρ hend hold hnew'
  have hvals := (List.cons.inj (Ends.unique ctx hends hends')).2
  rw [hvals] at hread hrest
  have hρ' : names (Scope.assign a new' ρ) = names Γ := (Scope.names_assign ..).trans hρ
  have hold' := Scope.lookup_assign hold new'
  -- the path reads what it did, and so does its reverse
  have hsame : component steps new' = some c :=
    (MiniC.component_updatePath_of_apart hapart' hnew').trans hc
  obtain rfl := (hreads hsteps hρ' hold' hsame).1 hread
  have hreverse' := hrest fs.reverse _ hapart
    (typer_assignPath_iff.2 ⟨⟨steps', hresolve⟩, rfl⟩) c'
    ((hreads hresolve hρ hold hc').2 rfl)
  obtain rfl :=
    (hreads hresolve hρ' hold' (MiniC.component_updatePath hnew')).1 hreverse'
  exact ⟨hc, hc'⟩

/-- The conditions are enough for the assignment to compile and to store the value where it
belongs. -/
theorem assigns_of_settles (hsettles : Settles ctx T ty fs old w u) :
    Assigns ctx env Γ a T fs v s ρ w := by
  have hae := typeExpression_eAssign h hpath hv ht
  have hreads := @reads_iff ctx env Γ a T τ h
  obtain ⟨t', steps', τ', hresolve, hτ', hu', hwithin, hcond⟩ := hsettles
  obtain ⟨c', hc'⟩ := component_of_resolve h hty htyped hresolve
  obtain ⟨new, hnew⟩ := @MiniC.updatePath_of_component _ w _ _ _ hc'
  obtain ⟨code, Γ', hcode, hends⟩ := ends_eAssign h he hu hend hρ hold hty
    hresolve hτ' hu' hwithin hnew
  have hρ' : names (Scope.assign a new ρ) = names Γ := (Scope.names_assign ..).trans hρ
  have hold' := Scope.lookup_assign hold new
  refine ⟨_, _, code, Γ', new, hae,
    (translate_eAssign_iff h hpath hav).2 ⟨t', steps', hresolve, rfl⟩, hcode, hends, ?_, ?_⟩
  · rcases hcond with hreverse | ⟨_, _, hsteps', hw, hw'⟩
    · rw [hreverse] at hresolve
      exact (hreads hresolve hρ' hold' (MiniC.component_updatePath hnew)).2 rfl
    · -- the value is there already
      cases hnew.symm.trans (MiniC.updatePath_component hw')
      exact (hreads hsteps' hρ' hold' hw).2 rfl
  · intro gs r hapart hgs x hread
    obtain ⟨⟨stepsG, hstepsG⟩, -⟩ := typer_assignPath_iff.1 (show Typer.assignPath T
      (gs.map Field.simplified) = .ok (r.1, r.2) from hgs)
    obtain ⟨g, hg⟩ := component_of_resolve h hty htyped hstepsG
    obtain rfl := (hreads hstepsG hρ hold hg).1 hread
    refine (hreads hstepsG hρ' hold' ?_).2 rfl
    rcases hcond with hreverse | ⟨_, _, hsteps', hw, hw'⟩
    · rw [hreverse] at hresolve
      exact (MiniC.component_updatePath_of_apart (apart_resolve hstepsG hresolve hapart)
        hnew).trans hg
    · cases hnew.symm.trans (MiniC.updatePath_component hw')
      exact hg

/-- An assignment to a component does what it should exactly under these conditions. -/
theorem assigns_iff : Assigns ctx env Γ a T fs v s ρ w ↔ Settles ctx T ty fs old w u :=
  ⟨settles_of_assigns h hpath hv ht hav he hu hend hρ hold hty htyped,
    assigns_of_settles h hpath hv ht hav he hu hend hρ hold hty htyped⟩

end Assign

/-- `q.0.1 := 7` writes the part `q.1.0` of `((1, 2), (3, 4))`. -/
theorem quad_elsewhere :
    Binds quadEnvironment [("q", quadPair)] "q" quadType quadPair ∧
      Typer.assignPath quadType ([Field.tuple 0, .tuple 1].map Field.simplified) =
        .ok (tInt, [.tuple 0, .tuple 1]) ∧
      Typer.typeExpression quadEnvironment none seven =
        .ok (.mk (.eLiteral (.int ⟨7, by decide⟩)) tInt quadEnvironment.elements) ∧
      ¬ Assigns Context.empty quadEnvironment [("q", quadPair)] "q" quadType
        [.tuple 0, .tuple 1] seven [quadValue] [("q", quadValue)] (intValue 7) := by
  refine ⟨quad_binds, rfl, rfl, fun hassigns => ?_⟩
  obtain ⟨_, _, _, hresolve, -, -, -, hcond⟩ := @settles_of_assigns Context.empty _ _ _ _ _ quad_binds
    _ _ _ rfl seven _ _ rfl rfl rfl (Michelson.iPush (Michelson.prim .tInt []) (.int 7))
    (.tBase .int) _ rfl rfl [quadValue] [("q", quadValue)] (intValue 7) _ ⟨0, rfl⟩ rfl rfl
    _ _ rfl quad_hasTy hassigns
  rcases hcond with hreverse | ⟨_, _, hsteps, hold, -⟩
  · exact absurd hreverse (by decide)
  · cases hsteps
    cases hold

/-- `q.1.1 := 7` writes the part that it names. -/
theorem assigns_iff_quad :
    Assigns Context.empty quadEnvironment [("q", quadPair)] "q" quadType [.tuple 1, .tuple 1]
      seven [quadValue] [("q", quadValue)] (intValue 7) :=
  (@assigns_iff Context.empty _ _ _ _ _ quad_binds _ _ _ rfl seven _ _ rfl rfl rfl
    (Michelson.iPush (Michelson.prim .tInt []) (.int 7)) (.tBase .int) _ rfl rfl [quadValue]
    [("q", quadValue)] (intValue 7) quadValue ⟨0, rfl⟩ rfl rfl (fun _ _ _ => True) _ rfl
    quad_hasTy).2 ⟨_, _, _, rfl, rfl, rfl, fun _ => rfl, .inl rfl⟩

end Ligo.Transpiler
