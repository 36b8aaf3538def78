import Ligo.Typer.Checks
import Ligo.Typer.Exhaustive
import Ligo.Typer.Vetted

/-!
# Soundness of the type checker

What the type checker accepts is derivable by the typing rules exactly when the program keeps
the conditions that are not checked (`typeExpression_sound_iff`). Each construct has a lemma,
that also gives the type that is read off the program.
-/

namespace Ligo.Typer

open AstTyped
open Fuel (bind_eq_ok map_eq_ok map₂_eq_ok)

/-! ### The typing rules -/

/-- What the type checker makes of the expression has the type that is read off it, and is
derivable when the expression is vetted. -/
def ChecksSound (e₀ : Environment) (expr : AstSimplified.Expression) : Prop :=
  ∀ (e : Environment) (tvOpt : Option TypeValue) (ae : AnnotatedExpression), SameTypes e e₀ →
    typeExpression e tvOpt expr = .ok ae →
      typeOf e₀ (context e) tvOpt expr = some ae.typeAnnot ∧
        (Typed (context e) ae ↔ Vetted e₀ (context e) tvOpt expr)

section Sound

variable {e e₀ : Environment} {tvOpt : Option TypeValue}

/-- The elements of a list have their types, and are well typed when they are vetted. -/
theorem typeAll_sound {lst : List AstSimplified.Expression} {lst' : List AnnotatedExpression}
    (ih : ∀ expr ∈ lst, ChecksSound e₀ expr) (he : SameTypes e e₀)
    (h : typeAll e lst = .ok lst') :
    typesOf e₀ (context e) lst = some (lst'.map AnnotatedExpression.typeAnnot) ∧
      ((∀ ae ∈ lst', Typed (context e) ae) ↔
        ∀ expr ∈ lst, Vetted e₀ (context e) none expr) := by
  induction lst generalizing lst' with
  | nil =>
    cases h
    exact ⟨rfl, by simp⟩
  | cons expr lst ihl =>
    -- the elements are typed from the front, each on its own
    rw [typeAll] at h
    obtain ⟨ae, rest, hae, hrest, rfl⟩ := map₂_eq_ok.1 h
    obtain ⟨htype, hiff⟩ := ih _ List.mem_cons_self _ _ _ he hae
    obtain ⟨htypes, hiffs⟩ := ihl (fun expr hexpr => ih expr (List.mem_cons_of_mem _ hexpr)) hrest
    constructor
    · rw [typesOf, htype, htypes]
      rfl
    · rw [List.forall_mem_cons, List.forall_mem_cons, hiff, hiffs]

/-- The same for the fields of a record. -/
theorem typeFields_sound {m : List (String × AstSimplified.Expression)}
    {m' : List (String × AnnotatedExpression)} (ih : ∀ x ∈ m, ChecksSound e₀ x.2)
    (he : SameTypes e e₀) (h : typeFields e m = .ok m') :
    fieldTypes e₀ (context e) m = some (m'.map fun x => (x.1, x.2.typeAnnot)) ∧
      ((∀ x ∈ m', Typed (context e) x.2) ↔ ∀ x ∈ m, Vetted e₀ (context e) none x.2) := by
  induction m generalizing m' with
  | nil =>
    cases h
    exact ⟨rfl, by simp⟩
  | cons x m ihm =>
    obtain ⟨k, expr⟩ := x
    rw [typeFields] at h
    obtain ⟨ae, rest, hae, hrest, rfl⟩ := map₂_eq_ok.1 h
    obtain ⟨htype, hiff⟩ := ih _ List.mem_cons_self _ _ _ he hae
    obtain ⟨htypes, hiffs⟩ := ihm (fun x hx => ih x (List.mem_cons_of_mem _ hx)) hrest
    constructor
    · rw [fieldTypes, htype, htypes]
      rfl
    · rw [List.forall_mem_cons, List.forall_mem_cons, hiff, hiffs]

/-- The same for the entries of a map, keys and values apart. -/
theorem typeEntries_sound {m : List (AstSimplified.Expression × AstSimplified.Expression)}
    {m' : List (AnnotatedExpression × AnnotatedExpression)}
    (ih : ∀ x ∈ m, ChecksSound e₀ x.1 ∧ ChecksSound e₀ x.2) (he : SameTypes e e₀)
    (h : typeEntries e m = .ok m') :
    entryTypes e₀ (context e) m = some (m'.map fun x => (x.1.typeAnnot, x.2.typeAnnot)) ∧
      ((∀ x ∈ m', Typed (context e) x.1) ↔ ∀ x ∈ m, Vetted e₀ (context e) none x.1) ∧
      ((∀ x ∈ m', Typed (context e) x.2) ↔ ∀ x ∈ m, Vetted e₀ (context e) none x.2) := by
  induction m generalizing m' with
  | nil =>
    cases h
    exact ⟨rfl, by simp, by simp⟩
  | cons x m ihm =>
    obtain ⟨k, v⟩ := x
    rw [typeEntries] at h
    -- an entry types its key before its value
    obtain ⟨k', hk, h⟩ := bind_eq_ok.1 h
    obtain ⟨v', rest, hv, hrest, rfl⟩ := map₂_eq_ok.1 h
    obtain ⟨ihk, ihv⟩ := ih _ List.mem_cons_self
    obtain ⟨hktype, hkiff⟩ := ihk _ _ _ he hk
    obtain ⟨hvtype, hviff⟩ := ihv _ _ _ he hv
    obtain ⟨htypes, hkiffs, hviffs⟩ := ihm (fun x hx => ih x (List.mem_cons_of_mem _ hx)) hrest
    refine ⟨?_, ?_, ?_⟩
    · rw [entryTypes, hktype, hvtype, htypes]
      rfl
    · rw [List.forall_mem_cons, List.forall_mem_cons, hkiff, hkiffs]
    · rw [List.forall_mem_cons, List.forall_mem_cons, hviff, hviffs]

/-- A step of an accessor keeps the type of the part, unless it looks into a map: what it
builds is then an option. -/
theorem typeAccess_sound {Γ : Context} {prev ae : AnnotatedExpression} {a : AstSimplified.Access}
    (h : typeAccess e tvOpt prev a = .ok ae) :
    stepType prev.typeAnnot a = some ae.typeAnnot ∧
      (Typed Γ ae ↔ Typed Γ prev ∧ ∀ key, AstSimplified.Access.map key ≠ a) := by
  cases a with
  | tuple index =>
    obtain ⟨tys, htys, h⟩ := bind_eq_ok.1 h
    obtain ⟨t, ht, h⟩ := bind_eq_ok.1 h
    obtain ⟨-, rfl⟩ := annotate_iff.1 h
    cases hT : prev.typeAnnot <;> rw [hT] at htys <;> cases htys
    have hnth := traceOption_eq_ok.1 ht
    obtain ⟨i, rfl, hi⟩ := nth_eq_some hnth
    refine ⟨hnth, ?_⟩
    constructor
    · intro htyped
      cases htyped with
      | tupleAccessor hprev _ _ => exact ⟨hprev, by simp⟩
    · rintro ⟨hprev, -⟩
      exact .tupleAccessor hprev hT hi
  | record property =>
    obtain ⟨m, hm, h⟩ := bind_eq_ok.1 h
    obtain ⟨t, ht, h⟩ := bind_eq_ok.1 h
    obtain ⟨-, rfl⟩ := annotate_iff.1 h
    cases hT : prev.typeAnnot <;> rw [hT] at hm <;> cases hm
    have hlookup := traceOption_eq_ok.1 ht
    refine ⟨hlookup, ?_⟩
    constructor
    · intro htyped
      cases htyped with
      | recordAccessor hprev _ _ => exact ⟨hprev, by simp⟩
    · rintro ⟨hprev, -⟩
      exact .recordAccessor hprev hT hlookup
  | map key =>
    rw [typeAccess] at h
    obtain ⟨key', hkey, h⟩ := bind_eq_ok.1 h
    obtain ⟨⟨k, v⟩, hmap, h⟩ := bind_eq_ok.1 h
    obtain ⟨_, hcheck, h⟩ := bind_eq_ok.1 h
    obtain ⟨-, rfl⟩ := annotate_iff.1 h
    have hT := Operators.Typer.getTMap_eq_ok.1 hmap
    rw [hT]
    refine ⟨rfl, ?_⟩
    constructor
    · generalize hv : v = w
      intro htyped
      cases htyped with
      | lookUp hprev _ hprevT =>
        -- no type is an option of itself
        rw [hT, hv] at hprevT
        injection hprevT with _ hargs
        injection hargs with _ hargs
        injection hargs with hvalue _
        have hsize := congrArg sizeOf hvalue
        simp [tOption] at hsize
        omega
    · rintro ⟨-, hne⟩
      exact absurd rfl (hne key)

/-- A path of accesses is typed step by step; looking a key up is given the type of the value,
and not of an option, so no path that does so is well typed. -/
theorem typeAccesses_sound {Γ : Context} {prev ae : AnnotatedExpression}
    {path : List AstSimplified.Access} (h : typeAccesses e tvOpt prev path = .ok ae) :
    path.foldlM stepType prev.typeAnnot = some ae.typeAnnot ∧
      (Typed Γ ae ↔ Typed Γ prev ∧ ∀ key, AstSimplified.Access.map key ∉ path) := by
  induction path generalizing prev with
  | nil =>
    cases h
    exact ⟨rfl, by simp⟩
  | cons a path ih =>
    rw [typeAccesses] at h
    obtain ⟨ae', hstep, h⟩ := bind_eq_ok.1 h
    obtain ⟨htype, hiff⟩ := typeAccess_sound (Γ := Γ) hstep
    obtain ⟨htypes, hiffs⟩ := ih h
    constructor
    · rw [List.foldlM_cons, htype]
      exact htypes
    · rw [hiffs, hiff, and_assoc, ← forall_and]
      simp only [List.mem_cons, not_or, ne_eq]

/-- The path of an assignment leads to the type that is compared. -/
theorem foldlM_assignStep {T t : TypeValue} {path : List AstSimplified.Access}
    {acc path' : List AstTyped.Access} (h : path.foldlM assignStep (T, acc) = .ok (t, path')) :
    ∃ rest, path' = acc ++ rest ∧ PathType T rest t := by
  induction path generalizing T acc with
  | nil =>
    cases h
    exact ⟨[], by simp, .nil⟩
  | cons a path ih =>
    rw [List.foldlM_cons] at h
    obtain ⟨⟨T₁, acc₁⟩, hstep, h⟩ := bind_eq_ok.1 h
    obtain ⟨rest, rfl, hrest⟩ := ih h
    -- the types of the components are the source's, as `PathType` has them
    cases a with
    | tuple index =>
      obtain ⟨tys, htys, hstep⟩ := bind_eq_ok.1 hstep
      obtain ⟨u, hu, hstep⟩ := bind_eq_ok.1 hstep
      cases hstep
      cases T <;> cases htys
      obtain ⟨i, rfl, hi⟩ := nth_eq_some (traceOption_eq_ok.1 hu)
      exact ⟨.tuple i :: rest, by simp, .tuple hi hrest⟩
    | record property =>
      obtain ⟨m, hm, hstep⟩ := bind_eq_ok.1 hstep
      obtain ⟨u, hu, hstep⟩ := bind_eq_ok.1 hstep
      cases hstep
      cases T <;> cases hm
      exact ⟨.record property :: rest, by simp, .record (traceOption_eq_ok.1 hu) hrest⟩
    | map key => cases hstep

/-- Only `NONE` has a condition. -/
theorem constantType_iff {name name' : String} {tys : List TypeValue} {t : TypeValue}
    (h : Operators.Typer.typeConstant name tys tvOpt = .ok (name', t)) :
    ConstantType name' tys t ↔ (name = "NONE" → ∃ o, tvOpt = some (tOption o)) := by
  obtain ⟨rfl, haccepts⟩ := Operators.Typer.accepts_of_typeConstant h
  constructor
  · rintro hconstant rfl
    obtain rfl := haccepts.of_none rfl
    obtain ⟨o, rfl⟩ := hconstant.of_none rfl
    exact ⟨o, rfl⟩
  · intro hnone
    refine .operator haccepts fun hname => ?_
    obtain ⟨o, ho⟩ := hnone hname
    rw [haccepts.of_none hname] at ho
    exact ⟨o, Option.some.inj ho⟩

/-- Each clause binds what its constructor takes. -/
theorem typeCases_sound {m : List (String × TypeValue)}
    {lst : List ((String × String) × AstSimplified.Expression)}
    {lst' : List ((String × String) × AnnotatedExpression)} (ih : ∀ x ∈ lst, ChecksSound e₀ x.2)
    (he : SameTypes e e₀)
    (hm : ∀ x ∈ lst, ∃ c, Environment.getConstructor x.1.1 e = some (c, .tSum m))
    (h : typeCases e lst = .ok lst') :
    caseType e₀ (context e) lst = (lst'.map fun x => x.2.typeAnnot).head? ∧
      (∀ x ∈ lst', ∃ c, m.lookup x.1.1 = some c) ∧
      ((∀ x ∈ lst', ∀ c, m.lookup x.1.1 = some c → Typed ((context e).bind x.1.2 c) x.2) ↔
        ∀ x ∈ lst, ∀ c V, Environment.getConstructor x.1.1 e₀ = some (c, V) →
          Vetted e₀ ((context e).bind x.1.2 c) none x.2) := by
  induction lst generalizing lst' with
  | nil =>
    cases h
    exact ⟨rfl, by simp, by simp⟩
  | cons x lst ihl =>
    obtain ⟨⟨k, name⟩, b⟩ := x
    rw [typeCases] at h
    obtain ⟨⟨t, V⟩, hc, h⟩ := bind_eq_ok.1 h
    obtain ⟨b', rest, hb, hrest, rfl⟩ := map₂_eq_ok.1 h
    have hget := traceOption_eq_ok.1 hc
    obtain ⟨c, hsum⟩ := hm _ List.mem_cons_self
    rw [hget] at hsum
    cases hsum
    obtain ⟨_, -, _, -, -, m₀, hm₀, hlookup⟩ := getConstructor_eq_some hget
    cases hm₀
    obtain ⟨htype, hiff⟩ := ih _ List.mem_cons_self _ _ _ he.addEzBinder hb
    rw [context_addEzBinder] at htype hiff
    obtain ⟨-, hlookups, hiffs⟩ := ihl (fun x hx => ih x (List.mem_cons_of_mem _ hx))
      (fun x hx => hm x (List.mem_cons_of_mem _ hx)) hrest
    -- the constructor is the same in `e₀`, which has the same types
    have hget₀ := hget
    rw [he.getConstructor] at hget₀
    refine ⟨?_, List.forall_mem_cons.2 ⟨⟨_, hlookup⟩, hlookups⟩, ?_⟩
    · rw [caseType, hget₀]
      exact htype
    · rw [List.forall_mem_cons, List.forall_mem_cons, hiffs]
      refine and_congr_left' ?_
      change (∀ c, m.lookup k = some c → Typed ((context e).bind name c) b') ↔
        ∀ c V, Environment.getConstructor k e₀ = some (c, V) →
          Vetted e₀ ((context e).bind name c) none b
      rw [hlookup, hget₀]
      simpa using hiff

/-- Literals have the type of their form. -/
theorem typed_literal {Γ : Context} {env : FullEnvironment} {l : Literal} :
    Typed Γ (.mk (.eLiteral (typeLiteral tvOpt l).1) (typeLiteral tvOpt l).2 env) := by
  have hty : (typeLiteral tvOpt l).2 = literalType (typeLiteral tvOpt l).1 := by
    cases l with
    | string s =>
      simp only [typeLiteral]
      split <;> rfl
    | _ => rfl
  rw [hty]
  exact .literal

/-- Constants are typed by the table, which the rules use as well. -/
theorem constant_sound {name : String} {lst : List AstSimplified.Expression}
    (ih : ∀ expr ∈ lst, ChecksSound e₀ expr) : ChecksSound e₀ (.eConstant name lst) := by
  intro e tvOpt ae he h
  rw [typeExpression, trace_eq_ok] at h
  obtain ⟨lst', hlst, h⟩ := bind_eq_ok.1 h
  obtain ⟨⟨name', tv⟩, hconstant, h⟩ := bind_eq_ok.1 h
  obtain ⟨-, rfl⟩ := annotate_iff.1 h
  obtain ⟨htypes, hiffs⟩ := typeAll_sound ih he hlst
  constructor
  -- the type is what the table of constants returns for the types of the arguments
  · rw [typeOf, htypes, Option.bind_some, hconstant]
    rfl
  · constructor
    · intro htyped
      cases htyped with
      | constant htlst hty =>
        exact .constant (hiffs.1 htlst) ((constantType_iff hconstant).1 hty)
    · intro hvetted
      cases hvetted with
      | constant hvlst hnone =>
        exact .constant (hiffs.2 hvlst) ((constantType_iff hconstant).2 hnone)

/-- The elements of a list have one type, which is expected or that of the first element. -/
theorem list_sound {lst : List AstSimplified.Expression} (ih : ∀ expr ∈ lst, ChecksSound e₀ expr) :
    ChecksSound e₀ (.eList lst) := by
  intro e tvOpt ae he h
  rw [typeExpression, trace_eq_ok] at h
  obtain ⟨lst', hlst, h⟩ := bind_eq_ok.1 h
  obtain ⟨init, hinit, h⟩ := bind_eq_ok.1 h
  obtain ⟨opt, hopt, h⟩ := bind_eq_ok.1 h
  obtain ⟨t, ht, h⟩ := bind_eq_ok.1 h
  obtain ⟨hexpected, rfl⟩ := annotate_iff.1 h
  obtain ⟨htypes, hiffs⟩ := typeAll_sound ih he hlst
  rw [traceOption_eq_ok.1 ht] at hopt
  obtain ⟨hall, hhead⟩ := listType_eq_ok hinit hopt
  -- every element has been compared with the type so far
  have helements : ∀ ae ∈ lst', ae.typeAnnot = t :=
    fun ae hae => hall _ (List.mem_map_of_mem hae)
  constructor
  · cases tvOpt with
    | none =>
      rw [typeOf, htypes, Option.bind_some, hhead rfl]
      rfl
    | some tv =>
      rw [typeOf, ← hexpected tv rfl]
      rfl
  · constructor
    · intro htyped
      cases htyped with
      | list htlst _ => exact .list (hiffs.1 htlst)
    · intro hvetted
      cases hvetted with
      | list hvlst => exact .list (hiffs.2 hvlst) helements

/-- The same for the keys and the values of a map. -/
theorem map_sound {m : List (AstSimplified.Expression × AstSimplified.Expression)}
    (ih : ∀ x ∈ m, ChecksSound e₀ x.1 ∧ ChecksSound e₀ x.2) : ChecksSound e₀ (.eMap m) := by
  intro e tvOpt ae he h
  rw [typeExpression, trace_eq_ok] at h
  obtain ⟨m', hm, h⟩ := bind_eq_ok.1 h
  obtain ⟨k, hk, h⟩ := bind_eq_ok.1 h
  obtain ⟨v, hv, h⟩ := bind_eq_ok.1 h
  obtain ⟨hexpected, rfl⟩ := annotate_iff.1 h
  obtain ⟨htypes, hkiffs, hviffs⟩ := typeEntries_sound ih he hm
  -- keys and values are each compared with the first one
  obtain ⟨hkeys, hkhead⟩ := entryType_eq_ok hk
  obtain ⟨hvalues, hvhead⟩ := entryType_eq_ok hv
  have hentries : ∀ x ∈ m', x.1.typeAnnot = k ∧ x.2.typeAnnot = v :=
    fun x hx => ⟨hkeys _ (List.mem_map_of_mem hx), hvalues _ (List.mem_map_of_mem hx)⟩
  constructor
  -- with an expected type the literal may be empty, without one the first entry gives the type
  · cases tvOpt with
    | none =>
      obtain ⟨x, hx⟩ : ∃ x, m'.head? = some x := by
        have hhead := hkhead rfl
        rw [List.head?_map] at hhead
        obtain ⟨x, hx, -⟩ := Option.map_eq_some_iff.1 hhead
        exact ⟨x, hx⟩
      obtain ⟨hkx, hvx⟩ := hentries x (List.mem_of_head? hx)
      rw [typeOf, htypes, Option.bind_some, List.head?_map, hx, ← hkx, ← hvx]
      rfl
    | some tv =>
      rw [typeOf, ← hexpected tv rfl]
      rfl
  · constructor
    · intro htyped
      cases htyped with
      | map htk htv _ => exact .map (hkiffs.1 htk) (hviffs.1 htv)
    · intro hvetted
      cases hvetted with
      | map hvk hvv => exact .map (hkiffs.2 hvk) (hviffs.2 hvv) hentries

/-- The type of the body is expected, but not every expression heeds what is expected. -/
theorem lambda_sound {b : String} {bt it ot : Option AstSimplified.TypeExpression}
    {r : AstSimplified.Expression} (ih : ChecksSound e₀ r) :
    ChecksSound e₀ (.eLambda b bt it ot r) := by
  intro e tvOpt ae he h
  rw [typeExpression, trace_eq_ok] at h
  obtain ⟨ite, hite, h⟩ := bind_eq_ok.1 h
  obtain ⟨i, hi, h⟩ := bind_eq_ok.1 h
  obtain ⟨ote, hote, h⟩ := bind_eq_ok.1 h
  obtain ⟨o, ho, h⟩ := bind_eq_ok.1 h
  obtain ⟨r', hr, h⟩ := bind_eq_ok.1 h
  obtain ⟨-, rfl⟩ := annotate_iff.1 h
  -- both annotations of a lambda are required
  obtain rfl := traceOption_eq_ok.1 hite
  obtain rfl := traceOption_eq_ok.1 hote
  have hi₀ : (some ite).bind (evaluated e₀) = some i := he.evaluated hi
  have ho₀ : (some ote).bind (evaluated e₀) = some o := he.evaluated ho
  obtain ⟨htype, hiff⟩ := ih _ _ _ he.addEzBinder hr
  rw [context_addEzBinder] at htype hiff
  refine ⟨by rw [typeOf, hi₀, ho₀]; rfl, ?_⟩
  constructor
  -- the rule asks the output type of the typed body, `Vetted` asks it of the source
  · intro htyped
    cases htyped with
    | lambda htr hro =>
      rw [hro] at htype
      exact .lambda hi₀ ho₀ (hiff.1 htr) htype
  · intro hvetted
    cases hvetted with
    | lambda hi₁ ho₁ hvr hro =>
      rw [hi₀] at hi₁
      rw [ho₀] at ho₁
      cases hi₁
      cases ho₁
      rw [htype] at hro
      exact .lambda (hiff.2 hvr) (Option.some.inj hro)

/-- The argument is compared with the parameter. -/
theorem application_sound {f arg : AstSimplified.Expression} (ihf : ChecksSound e₀ f)
    (iharg : ChecksSound e₀ arg) : ChecksSound e₀ (.eApplication f arg) := by
  intro e tvOpt ae he h
  rw [typeExpression, trace_eq_ok] at h
  obtain ⟨f', hf, h⟩ := bind_eq_ok.1 h
  obtain ⟨arg', harg, h⟩ := bind_eq_ok.1 h
  obtain ⟨hftype, hfiff⟩ := ihf _ _ _ he hf
  obtain ⟨-, hargiff⟩ := iharg _ _ _ he harg
  split at h
  · next param result hfun =>
    obtain ⟨_, hcheck, h⟩ := bind_eq_ok.1 h
    obtain ⟨-, rfl⟩ := annotate_iff.1 h
    rw [assertTypeValueEq_iff.1 hcheck] at hfun
    refine ⟨by rw [typeOf, hftype, hfun]; rfl, ?_⟩
    -- the argument has been compared with the parameter, so nothing more is asked
    constructor
    · intro htyped
      cases htyped with
      | application htf htarg _ => exact .application (hfiff.1 htf) (hargiff.1 htarg)
    · intro hvetted
      cases hvetted with
      | application hvf hvarg => exact .application (hfiff.2 hvf) (hargiff.2 hvarg) hfun
  · cases h

/-- What is bound has the type of its right-hand side, whatever was expected of it. -/
theorem letIn_sound {b : String} {bt : Option AstSimplified.TypeExpression}
    {rhs r : AstSimplified.Expression} (ihrhs : ChecksSound e₀ rhs) (ihr : ChecksSound e₀ r) :
    ChecksSound e₀ (.eLetIn b bt rhs r) := by
  intro e tvOpt ae he h
  rw [typeExpression, trace_eq_ok] at h
  obtain ⟨rhsTvOpt, hbt, h⟩ := bind_eq_ok.1 h
  obtain ⟨rhs', hrhs, h⟩ := bind_eq_ok.1 h
  obtain ⟨r', hr, h⟩ := bind_eq_ok.1 h
  obtain ⟨-, rfl⟩ := annotate_iff.1 h
  -- the annotation is only what is expected of the right-hand side
  obtain rfl := he.bindMapOption hbt
  obtain ⟨hrhstype, hrhsiff⟩ := ihrhs _ _ _ he hrhs
  obtain ⟨hrtype, hriff⟩ := ihr _ _ _ he.addEzDeclaration hr
  rw [context_addEzDeclaration] at hrtype hriff
  refine ⟨by rw [typeOf, hrhstype, Option.bind_some, hrtype]; rfl, ?_⟩
  constructor
  · intro htyped
    cases htyped with
    | letIn htrhs htr _ => exact .letIn (hrhsiff.1 htrhs) hrhstype (hriff.1 htr)
  · intro hvetted
    cases hvetted with
    | letIn hvrhs hty hvr =>
      rw [hrhstype] at hty
      cases hty
      exact .letIn (hrhsiff.2 hvrhs) (hriff.2 hvr) rfl

/-- A constructor belongs to the newest sum that has it. -/
theorem constructor_sound {name : String} {expr : AstSimplified.Expression}
    (ih : ChecksSound e₀ expr) : ChecksSound e₀ (.eConstructor name expr) := by
  intro e tvOpt ae he h
  rw [typeExpression, trace_eq_ok] at h
  obtain ⟨⟨c, V⟩, hget, h⟩ := bind_eq_ok.1 h
  obtain ⟨expr', hexpr, h⟩ := bind_eq_ok.1 h
  obtain ⟨_, hcheck, h⟩ := bind_eq_ok.1 h
  obtain ⟨-, rfl⟩ := annotate_iff.1 h
  obtain ⟨-, hiff⟩ := ih _ _ _ he hexpr
  have hget := traceOption_eq_ok.1 hget
  -- the constructor is looked up in the environment, with its sum
  obtain ⟨_, -, _, -, -, m, rfl, hlookup⟩ := getConstructor_eq_some hget
  rw [← assertTypeValueEq_iff.1 hcheck] at hlookup
  refine ⟨by rw [typeOf, ← he.getConstructor, hget]; rfl, ?_⟩
  constructor
  · intro htyped
    cases htyped with
    | constructor' htexpr _ => exact .constructor' (hiff.1 htexpr)
  · intro hvetted
    cases hvetted with
    | constructor' hvexpr => exact .constructor' (hiff.2 hvexpr) hlookup

/-- A key is compared with the type of the keys. -/
theorem lookUp_sound {ds i : AstSimplified.Expression} (ihds : ChecksSound e₀ ds)
    (ihi : ChecksSound e₀ i) : ChecksSound e₀ (.eLookUp ds i) := by
  intro e tvOpt ae he h
  rw [typeExpression, trace_eq_ok] at h
  obtain ⟨ds', hds, h⟩ := bind_eq_ok.1 h
  obtain ⟨i', hi, h⟩ := bind_eq_ok.1 h
  obtain ⟨⟨src, dst⟩, hmap, h⟩ := bind_eq_ok.1 h
  obtain ⟨_, hcheck, h⟩ := bind_eq_ok.1 h
  obtain ⟨-, rfl⟩ := annotate_iff.1 h
  obtain ⟨hdstype, hdsiff⟩ := ihds _ _ _ he hds
  obtain ⟨-, hiiff⟩ := ihi _ _ _ he hi
  -- the key has been compared with the keys of the map
  have hds' := Operators.Typer.getTMap_eq_ok.1 hmap
  rw [← assertTypeValueEq_iff.1 hcheck] at hds'
  refine ⟨by rw [typeOf, hdstype, hds']; rfl, ?_⟩
  constructor
  · intro htyped
    cases htyped with
    | lookUp htds hti _ => exact .lookUp (hdsiff.1 htds) (hiiff.1 hti)
  · intro hvetted
    cases hvetted with
    | lookUp hvds hvi => exact .lookUp (hdsiff.2 hvds) (hiiff.2 hvi) hds'

/-- The condition is compared with booleans and the body with the unit. -/
theorem loop_sound {a b : AstSimplified.Expression} (iha : ChecksSound e₀ a) (ihb : ChecksSound e₀ b) :
    ChecksSound e₀ (.eLoop a b) := by
  intro e tvOpt ae he h
  rw [typeExpression, trace_eq_ok] at h
  obtain ⟨a', ha, h⟩ := bind_eq_ok.1 h
  obtain ⟨b', hb, h⟩ := bind_eq_ok.1 h
  obtain ⟨_, hcondition, h⟩ := bind_eq_ok.1 h
  obtain ⟨_, hbody, h⟩ := bind_eq_ok.1 h
  obtain ⟨-, rfl⟩ := annotate_iff.1 h
  obtain ⟨-, haiff⟩ := iha _ _ _ he ha
  obtain ⟨-, hbiff⟩ := ihb _ _ _ he hb
  -- the two checks of a loop are those that the rule asks for
  have hbool := (assertTypeValueEq_iff.1 (traceStrong_eq_ok.1 hcondition)).symm
  have hunit := (assertTypeValueEq_iff.1 (traceStrong_eq_ok.1 hbody)).symm
  refine ⟨rfl, ?_⟩
  constructor
  · intro htyped
    cases htyped with
    | loop hta _ htb _ => exact .loop (haiff.1 hta) (hbiff.1 htb)
  · intro hvetted
    cases hvetted with
    | loop hva hvb => exact .loop (haiff.2 hva) hbool (hbiff.2 hvb) hunit

/-- What is assigned is compared with the type at the end of the path. -/
theorem assign_sound {name : String} {path : List AstSimplified.Access}
    {expr : AstSimplified.Expression} (ih : ChecksSound e₀ expr) :
    ChecksSound e₀ (.eAssign name path expr) := by
  intro e tvOpt ae he h
  rw [typeExpression, trace_eq_ok] at h
  obtain ⟨ele, hele, h⟩ := bind_eq_ok.1 h
  obtain ⟨⟨t, path'⟩, hpath, h⟩ := bind_eq_ok.1 h
  obtain ⟨expr', hexpr, h⟩ := bind_eq_ok.1 h
  obtain ⟨_, hcheck, h⟩ := bind_eq_ok.1 h
  obtain ⟨-, rfl⟩ := annotate_iff.1 h
  obtain ⟨-, hiff⟩ := ih _ _ _ he hexpr
  have hx : context e name = some (elementType ele) := by
    rw [context, traceOption_eq_ok.1 hele]
    rfl
  -- the path is typed from the type of the variable
  obtain ⟨rest, rfl, hrest⟩ := foldlM_assignStep hpath
  rw [assertTypeValueEq_iff.1 (traceStrong_eq_ok.1 hcheck)] at hrest
  refine ⟨rfl, ?_⟩
  constructor
  · intro htyped
    cases htyped with
    | assign _ _ htexpr => exact .assign (hiff.1 htexpr)
  · intro hvetted
    cases hvetted with
    | assign hvexpr => exact .assign hx hrest (hiff.2 hvexpr)

/-- An annotated expression does not heed what is expected of it. -/
theorem annotated_sound {expr : AstSimplified.Expression} {te : AstSimplified.TypeExpression}
    (ih : ChecksSound e₀ expr) : ChecksSound e₀ (.eAnnotated expr te) := by
  intro e tvOpt ae he h
  rw [typeExpression, trace_eq_ok] at h
  obtain ⟨tv, htv, h⟩ := bind_eq_ok.1 h
  obtain ⟨⟨expr', t', env'⟩, hexpr, h⟩ := bind_eq_ok.1 h
  obtain ⟨t, hmerge, rfl⟩ := map_eq_ok.1 h
  obtain ⟨htv₁, ht', -⟩ := mergeAnnotated_eq_ok hmerge
  -- the annotation is expected of the expression and compared with its type afterwards
  obtain rfl := htv₁ tv rfl
  obtain rfl := ht' t' rfl
  obtain ⟨-, hiff⟩ := ih _ _ _ he hexpr
  have htv₀ := he.evaluated htv
  refine ⟨by rw [typeOf, htv₀]; rfl, ?_⟩
  change Typed (context e) (.mk expr' _ env') ↔ _
  rw [hiff]
  constructor
  · intro hvexpr
    rw [← htv₀] at hvexpr
    exact .annotated hvexpr
  · intro hvetted
    cases hvetted with
    | annotated hvexpr =>
      rw [htv₀] at hvexpr
      exact hvexpr

/-- The branches of a match on an option are compared with each other. -/
theorem matchOption_sound {ex n s : AstSimplified.Expression} {name : String}
    (ihex : ChecksSound e₀ ex) (ihn : ChecksSound e₀ n) (ihs : ChecksSound e₀ s) :
    ChecksSound e₀ (.eMatching ex (.matchOption n name s)) := by
  intro e tvOpt ae he h
  rw [typeExpression, trace_eq_ok] at h
  obtain ⟨ex', hex, h⟩ := bind_eq_ok.1 h
  rw [typeMatching] at h
  obtain ⟨o, ho, h⟩ := bind_eq_ok.1 h
  obtain ⟨n', hn, h⟩ := bind_eq_ok.1 h
  obtain ⟨s', hs, h⟩ := bind_eq_ok.1 h
  obtain ⟨t, -, ht, rfl⟩ := branches_eq_ok h
  obtain ⟨hextype, hexiff⟩ := ihex _ _ _ he hex
  obtain ⟨hntype, hniff⟩ := ihn _ _ _ he hn
  obtain ⟨-, hsiff⟩ := ihs _ _ _ he.addEzBinder hs
  rw [context_addEzBinder] at hsiff
  -- what is matched has been checked to be an option, and the branches have one type
  have hext := getTOption_eq_ok.1 (traceStrong_eq_ok.1 ho)
  obtain ⟨hnt, hst⟩ : n'.typeAnnot = t ∧ s'.typeAnnot = t := by simpa [branchTypes] using ht
  refine ⟨by rw [typeOf, branchType, hntype, hnt]; rfl, ?_⟩
  rw [hext] at hextype
  constructor
  · intro htyped
    cases htyped with
    | matchOption htex _ htn hts _ _ =>
      exact .matchOption (hexiff.1 htex) hextype (hniff.1 htn) (hsiff.1 hts)
  · intro hvetted
    cases hvetted with
    | matchOption hvex hvext hvn hvs =>
      rw [hextype] at hvext
      cases hvext
      exact .matchOption (hexiff.2 hvex) hext (hniff.2 hvn) (hsiff.2 hvs) hnt hst

/-- The second branch of a match on a list is typed below its head and its tail. -/
theorem matchList_sound {ex n c : AstSimplified.Expression} {hd tl : String}
    (ihex : ChecksSound e₀ ex) (ihn : ChecksSound e₀ n) (ihc : ChecksSound e₀ c) :
    ChecksSound e₀ (.eMatching ex (.matchList n hd tl c)) := by
  intro e tvOpt ae he h
  rw [typeExpression, trace_eq_ok] at h
  obtain ⟨ex', hex, h⟩ := bind_eq_ok.1 h
  rw [typeMatching] at h
  obtain ⟨a, ha, h⟩ := bind_eq_ok.1 h
  obtain ⟨n', hn, h⟩ := bind_eq_ok.1 h
  obtain ⟨c', hc, h⟩ := bind_eq_ok.1 h
  obtain ⟨t, -, ht, rfl⟩ := branches_eq_ok h
  obtain ⟨hextype, hexiff⟩ := ihex _ _ _ he hex
  obtain ⟨hntype, hniff⟩ := ihn _ _ _ he hn
  obtain ⟨-, hciff⟩ := ihc _ _ _ he.addEzBinder.addEzBinder hc
  rw [context_addEzBinder, context_addEzBinder] at hciff
  -- what is matched has been checked to be a list, whose elements the branch binds
  have hext := Operators.Typer.getTList_eq_ok.1 (traceStrong_eq_ok.1 ha)
  obtain ⟨hnt, hct⟩ : n'.typeAnnot = t ∧ c'.typeAnnot = t := by simpa [branchTypes] using ht
  refine ⟨by rw [typeOf, branchType, hntype, hnt]; rfl, ?_⟩
  rw [hext] at hextype hciff
  constructor
  · intro htyped
    cases htyped with
    | matchList htex htext htn htc _ _ =>
      rw [hext] at htext
      cases htext
      exact .matchList (hexiff.1 htex) hextype (hniff.1 htn) (hciff.1 htc)
  · intro hvetted
    cases hvetted with
    | matchList hvex hvext hvn hvc =>
      rw [hextype] at hvext
      cases hvext
      exact .matchList (hexiff.2 hvex) hext (hniff.2 hvn) (hciff.2 hvc) hnt hct

/-- The pattern of a tuple has a name for each component. -/
theorem matchTuple_sound {ex b : AstSimplified.Expression} {lst : List String}
    (ihex : ChecksSound e₀ ex) (ihb : ChecksSound e₀ b) :
    ChecksSound e₀ (.eMatching ex (.matchTuple lst b)) := by
  intro e tvOpt ae he h
  rw [typeExpression, trace_eq_ok] at h
  obtain ⟨ex', hex, h⟩ := bind_eq_ok.1 h
  rw [typeMatching] at h
  obtain ⟨tys, htys, h⟩ := bind_eq_ok.1 h
  split at h
  -- there are as many names as components
  · next hlength =>
    obtain ⟨b', hb, h⟩ := bind_eq_ok.1 h
    obtain ⟨t, -, ht, rfl⟩ := branches_eq_ok h
    obtain ⟨hextype, hexiff⟩ := ihex _ _ _ he hex
    obtain ⟨hbtype, hbiff⟩ := ihb _ _ _ he.addBinders hb
    rw [context_addBinders] at hbtype hbiff
    have htys := traceStrong_eq_ok.1 htys
    have hext : ex'.typeAnnot = .tTuple tys := by
      cases hT : ex'.typeAnnot <;> rw [hT] at htys <;> cases htys
      rfl
    have hbt : b'.typeAnnot = t := ht _ List.mem_cons_self
    rw [hext] at hextype
    constructor
    · rw [typeOf, hextype, branchType, ← hbt]
      exact hbtype
    · constructor
      · intro htyped
        cases htyped with
        | matchTuple htex htext _ htb _ =>
          rw [hext] at htext
          cases htext
          exact .matchTuple (hexiff.1 htex) hextype (hbiff.1 htb)
      · intro hvetted
        cases hvetted with
        | matchTuple hvex hvext hvb =>
          rw [hextype] at hvext
          cases hvext
          exact .matchTuple (hexiff.2 hvex) hext hlength (hbiff.2 hvb) hbt
  · cases h

/-- An assertion is typed apart: only the branch that is left is a branch. -/
theorem matchBool_sound {ex a b : AstSimplified.Expression} (ihex : ChecksSound e₀ ex)
    (iha : ChecksSound e₀ a) (ihfw : ∀ fw, a = .eFailwith fw → ChecksSound e₀ fw)
    (ihb : ChecksSound e₀ b) : ChecksSound e₀ (.eMatching ex (.matchBool a b)) := by
  intro e tvOpt ae he h
  rw [typeExpression, trace_eq_ok] at h
  obtain ⟨ex', hex, h⟩ := bind_eq_ok.1 h
  obtain ⟨-, hexiff⟩ := ihex _ _ _ he hex
  by_cases hfw : ∃ fw, a = .eFailwith fw
  -- a `failwith` in the first branch: the match becomes an `ASSERT`
  · obtain ⟨fw, rfl⟩ := hfw
    rw [typeMatching] at h
    obtain ⟨fw', hfw, h⟩ := bind_eq_ok.1 h
    obtain ⟨b', hb, h⟩ := bind_eq_ok.1 h
    obtain ⟨_, hbool, h⟩ := bind_eq_ok.1 h
    obtain ⟨_, hunit, h⟩ := bind_eq_ok.1 h
    obtain ⟨-, rfl⟩ := annotate_iff.1 h
    obtain ⟨-, hfwiff⟩ := ihfw fw rfl _ _ _ he hfw
    obtain ⟨hbtype, hbiff⟩ := ihb _ _ _ he hb
    have hext := getTBool_eq_ok.1 (traceStrong_eq_ok.1 hbool)
    have hbt := getTUnit_eq_ok.1 (traceStrong_eq_ok.1 hunit)
    refine ⟨by rw [typeOf, branchType, hbtype, hbt]; rfl, ?_⟩
    constructor
    · intro htyped
      cases htyped with
      | matchBool htex _ hta htb _ _ =>
        cases hta with
        | constant hargs _ =>
          exact .assertion (hexiff.1 htex) (hfwiff.1 (hargs fw' (by simp))) (hbiff.1 htb)
    · intro hvetted
      cases hvetted with
      | assertion hvex hvfw hvb =>
        have htex := hexiff.2 hvex
        refine .matchBool htex hext (.constant ?_ ?_) (hbiff.2 hvb) rfl hbt
        · simpa using ⟨htex, hfwiff.2 hvfw⟩
        · rw [List.map_cons, hext]
          exact .assert
      | matchBool _ hva _ => cases hva
  · rw [typeMatching] at h
    · obtain ⟨_, hbool, h⟩ := bind_eq_ok.1 h
      obtain ⟨a', ha, h⟩ := bind_eq_ok.1 h
      obtain ⟨b', hb, h⟩ := bind_eq_ok.1 h
      obtain ⟨t, -, ht, rfl⟩ := branches_eq_ok h
      obtain ⟨-, haiff⟩ := iha _ _ _ he ha
      obtain ⟨hbtype, hbiff⟩ := ihb _ _ _ he hb
      have hext := getTBool_eq_ok.1 (traceStrong_eq_ok.1 hbool)
      obtain ⟨hat, hbt⟩ : a'.typeAnnot = t ∧ b'.typeAnnot = t := by simpa [branchTypes] using ht
      refine ⟨by rw [typeOf, branchType, hbtype, hbt]; rfl, ?_⟩
      constructor
      · intro htyped
        cases htyped with
        | matchBool htex _ hta htb _ _ =>
          exact .matchBool (hexiff.1 htex) (haiff.1 hta) (hbiff.1 htb)
      · intro hvetted
        cases hvetted with
        | assertion _ _ _ => exact absurd ⟨_, rfl⟩ hfw
        | matchBool hvex hva hvb =>
          exact .matchBool (hexiff.2 hvex) hext (haiff.2 hva) (hbiff.2 hvb) hat hbt
    · exact fun fw heq => hfw ⟨fw, heq⟩

/-- The scrutinee is not compared with the sum of the clauses. -/
theorem matchVariant_sound {ex : AstSimplified.Expression}
    {lst : List ((String × String) × AstSimplified.Expression)} (ihex : ChecksSound e₀ ex)
    (ihlst : ∀ x ∈ lst, ChecksSound e₀ x.2) :
    ChecksSound e₀ (.eMatching ex (.matchVariant lst)) := by
  intro e tvOpt ae he h
  rw [typeExpression, trace_eq_ok] at h
  obtain ⟨ex', hex, h⟩ := bind_eq_ok.1 h
  obtain ⟨hextype, hexiff⟩ := ihex _ _ _ he hex
  rw [typeMatching] at h
  obtain ⟨m', hm', h⟩ := bind_eq_ok.1 h
  obtain ⟨V, lst', hV, hlst', rfl⟩ := map₂_eq_ok.1 hm'
  obtain ⟨t, hhead, ht, rfl⟩ := branches_eq_ok h
  obtain ⟨hne, hnames, m, rfl, -, -⟩ := matchedVariant_iff.1 hV
  have hm : ∀ x ∈ lst, ∃ c, Environment.getConstructor x.1.1 e = some (c, .tSum m) :=
    fun x hx => hnames x.1.1 (List.mem_map_of_mem hx)
  obtain ⟨hcase, hlookups, hiffs⟩ := typeCases_sound ihlst he hm hlst'
  have hbranches : ∀ x ∈ lst', x.2.typeAnnot = t :=
    fun x hx => ht _ (List.mem_map_of_mem hx)
  -- `e₀` has the same types, so the same sum owns the constructors there
  have howned : ∀ x ∈ lst,
      (Environment.getConstructor x.1.1 e₀).map Prod.snd = some (.tSum m) := by
    intro x hx
    obtain ⟨c, hc⟩ := hm x hx
    rw [← he.getConstructor, hc]
    rfl
  constructor
  · rw [typeOf, branchType, hcase]
    exact hhead
  · constructor
    · intro htyped
      cases htyped with
      | matchVariant htex hext _ htlst _ =>
        refine .matchVariant (hexiff.1 htex) ?_ (hiffs.1 htlst)
        intro x hx
        rw [howned x hx, hextype, hext]
    · intro hvetted
      cases hvetted with
      | matchVariant hvex howner hvlst =>
        obtain ⟨x, hx⟩ : ∃ x, x ∈ lst := List.exists_mem_of_ne_nil lst fun hnil => by
          rw [hnil] at hne
          exact hne rfl
        have hext := howner x hx
        rw [howned x hx, hextype] at hext
        exact .matchVariant (hexiff.2 hvex) (Option.some.inj hext).symm hlookups
          (hiffs.2 hvlst) hbranches

/-- By induction on the source: what the type checker returns has the type that the source can
be read at, and it is well typed exactly when the source is vetted. -/
theorem typeExpression_sound (expr : AstSimplified.Expression) : ChecksSound e₀ expr := by
  -- by induction on the source, in every environment with the types of `e₀`: binders add
  -- variables to it and no types
  induction expr using AstSimplified.Expression.ind with
  | literal l =>
    intro e tvOpt ae he h
    rw [typeExpression, trace_eq_ok] at h
    obtain ⟨-, rfl⟩ := annotate_iff.1 h
    exact ⟨rfl, iff_of_true typed_literal .literal⟩
  | skip =>
    intro e tvOpt ae he h
    rw [typeExpression, trace_eq_ok] at h
    obtain ⟨-, rfl⟩ := annotate_iff.1 h
    exact ⟨rfl, iff_of_true .literal .skip⟩
  | variable' name =>
    intro e tvOpt ae he h
    rw [typeExpression, trace_eq_ok] at h
    obtain ⟨tv, htv, h⟩ := bind_eq_ok.1 h
    obtain ⟨-, rfl⟩ := annotate_iff.1 h
    have hx : context e name = some (elementType tv) := by
      rw [context, traceOption_eq_ok.1 htv]
      rfl
    exact ⟨hx, iff_of_true (.variable' hx) .variable'⟩
  | failwith _ _ =>
    intro e tvOpt ae he h
    rw [typeExpression, trace_eq_ok] at h
    cases h
  | constant name lst ih => exact constant_sound ih
  | tuple lst ih =>
    intro e tvOpt ae he h
    rw [typeExpression, trace_eq_ok] at h
    obtain ⟨lst', hlst, h⟩ := bind_eq_ok.1 h
    obtain ⟨-, rfl⟩ := annotate_iff.1 h
    obtain ⟨htypes, hiffs⟩ := typeAll_sound ih he hlst
    refine ⟨by rw [typeOf, htypes]; rfl, ?_⟩
    constructor
    · intro htyped
      cases htyped with
      | tuple htlst => exact .tuple (hiffs.1 htlst)
    · intro hvetted
      cases hvetted with
      | tuple hvlst => exact .tuple (hiffs.2 hvlst)
  | list lst ih => exact list_sound ih
  | record m ih =>
    intro e tvOpt ae he h
    rw [typeExpression, trace_eq_ok] at h
    obtain ⟨m', hm, h⟩ := bind_eq_ok.1 h
    obtain ⟨-, rfl⟩ := annotate_iff.1 h
    obtain ⟨htypes, hiffs⟩ := typeFields_sound ih he hm
    refine ⟨by rw [typeOf, htypes]; rfl, ?_⟩
    constructor
    · intro htyped
      cases htyped with
      | record htm => exact .record (hiffs.1 htm)
    · intro hvetted
      cases hvetted with
      | record hvm => exact .record (hiffs.2 hvm)
  | map m ih => exact map_sound ih
  | lambda b bt it ot r ih => exact lambda_sound ih
  | application f arg ihf iharg => exact application_sound ihf iharg
  | letIn b bt rhs r ihrhs ihr => exact letIn_sound ihrhs ihr
  | constructor' name expr ih => exact constructor_sound ih
  | accessor expr path ih ihpath =>
    intro e tvOpt ae he h
    obtain ⟨ae', hexpr, h⟩ := typeExpression_accessor_iff.1 h
    obtain ⟨htype, hiff⟩ := ih _ _ _ he hexpr
    obtain ⟨hpath, hiffs⟩ := typeAccesses_sound (Γ := context e) h
    refine ⟨by rw [typeOf, htype, Option.bind_some, hpath], ?_⟩
    rw [hiffs, hiff]
    constructor
    · rintro ⟨hvexpr, hmap⟩
      exact .accessor hvexpr hmap
    · intro hvetted
      cases hvetted with
      | accessor hvexpr hmap => exact ⟨hvexpr, hmap⟩
  | lookUp ds i ihds ihi => exact lookUp_sound ihds ihi
  | sequence a b iha ihb =>
    intro e tvOpt ae he h
    rw [typeExpression, trace_eq_ok] at h
    obtain ⟨a', ha, h⟩ := bind_eq_ok.1 h
    obtain ⟨b', hb, h⟩ := bind_eq_ok.1 h
    obtain ⟨_, hcheck, h⟩ := bind_eq_ok.1 h
    obtain ⟨-, rfl⟩ := annotate_iff.1 h
    obtain ⟨-, haiff⟩ := iha _ _ _ he ha
    obtain ⟨hbtype, hbiff⟩ := ihb _ _ _ he hb
    have hunit := (assertTypeValueEq_iff.1 (traceStrong_eq_ok.1 hcheck)).symm
    refine ⟨by rw [typeOf, hbtype]; rfl, ?_⟩
    constructor
    · intro htyped
      cases htyped with
      | sequence hta _ htb _ => exact .sequence (haiff.1 hta) (hbiff.1 htb)
    · intro hvetted
      cases hvetted with
      | sequence hva hvb => exact .sequence (haiff.2 hva) hunit (hbiff.2 hvb) rfl
  | loop a b iha ihb => exact loop_sound iha ihb
  | assign name path expr ih => exact assign_sound ih
  | annotated expr te ih => exact annotated_sound ih
  | matchBool ex a b ihex iha ihfw ihb => exact matchBool_sound ihex iha ihfw ihb
  | matchOption ex n name s ihex ihn ihs => exact matchOption_sound ihex ihn ihs
  | matchList ex n hd tl c ihex ihn ihc => exact matchList_sound ihex ihn ihc
  | matchTuple ex lst b ihex ihb => exact matchTuple_sound ihex ihb
  | matchVariant ex lst ihex ihlst => exact matchVariant_sound ihex ihlst

/-- The type of what is returned is the one that is read off the program. -/
theorem typeOf_typeExpression {expr : AstSimplified.Expression} {ae : AnnotatedExpression}
    (h : typeExpression e tvOpt expr = .ok ae) :
    typeOf e (context e) tvOpt expr = some ae.typeAnnot :=
  (typeExpression_sound expr e tvOpt ae ⟨rfl, rfl⟩ h).1

/-- What the checker returns is well typed exactly when the source is vetted: when the conditions
that the checker leaves out hold of it. -/
theorem typeExpression_sound_iff {expr : AstSimplified.Expression} {ae : AnnotatedExpression}
    (h : typeExpression e tvOpt expr = .ok ae) :
    Typed (context e) ae ↔ Vetted e (context e) tvOpt expr :=
  (typeExpression_sound expr e tvOpt ae ⟨rfl, rfl⟩ h).2

end Sound

/-! ### A match -/

/-- The sum of two constructors. -/
def declaresAction : Environment :=
  Environment.addType "action" (.tSum [("Decrement", tInt), ("Increment", tInt)])
    Environment.fullEmpty

/-- A match on the constructors of the sum. -/
def matchAction (ex : AstSimplified.Expression) : AstSimplified.Expression :=
  .eMatching ex (.matchVariant
    [(("Increment", "n"), .eVariable "n"), (("Decrement", "n"), .eVariable "n")])

/-- A constructor of the sum may be matched on. -/
theorem matchAction_typed : ∃ ae, typeExpression declaresAction none
    (matchAction (.eConstructor "Increment" (.eLiteral (.int ⟨1, by decide⟩)))) = .ok ae ∧
      Typed (context declaresAction) ae := by
  refine ⟨_, rfl, (@typeExpression_sound_iff declaresAction none
    (matchAction (.eConstructor "Increment" (.eLiteral (.int ⟨1, by decide⟩)))) _ rfl).2
      (.matchVariant (.constructor' .literal) ?_ ?_)⟩
  · exact List.forall_mem_cons.2 ⟨rfl, List.forall_mem_singleton.2 rfl⟩
  · refine List.forall_mem_cons.2 ⟨?_, List.forall_mem_singleton.2 ?_⟩
    · exact fun _ _ _ => .variable'
    · exact fun _ _ _ => .variable'

/-- An integer is accepted too. -/
theorem matchAction_untyped : ¬ ∀ (e : Environment) (tvOpt : Option TypeValue)
    (expr : AstSimplified.Expression) (ae : AnnotatedExpression),
      typeExpression e tvOpt expr = .ok ae → Typed (context e) ae := by
  intro h
  have htyped := h declaresAction none (matchAction (.eLiteral (.int ⟨1, by decide⟩))) _ rfl
  cases htyped with
  | matchVariant _ hext _ _ _ => cases hext

end Ligo.Typer
