import Ligo.Compiler.WellTyped

/-!
# Code generation preserves types

No check of the generator fails on a well-typed expression: `translateExpression`
succeeds, and its code takes the stack of the environment to that stack with the value of
the expression on top (`translateExpression_typed`).

An expression is compiled in environments that hold temporaries which it cannot name, so
the induction is over all environments in which the names that it can use have their types
(`Agrees`). Each construct has a lemma of its own about what its parts compile to
(`Preserves`), and the induction on the derivation puts them together.
-/

namespace Ligo.CompilerProgram

open MiniC Michelson
open Fuel (bind_eq_ok map_eq_ok map₂_eq_ok)

variable {ctx : Michelson.Context}

/-! ### What is proved of each part -/

/-- The names that an expression can use have the same types in both environments. -/
def Agrees (Γ env : Environment) : Prop :=
  ∀ x, x ≠ Environment.tmpName → Scope.lookup x env = Scope.lookup x Γ

/-- The value of an expression on the stack is a binding without a name. -/
theorem Agrees.tmp {Γ env : Environment} (h : Agrees Γ env) (τ : TypeValue) :
    Agrees Γ (tmp τ env) := by
  intro x hx
  change Scope.lookup x ((Environment.tmpName, τ) :: env) = _
  rw [Scope.lookup, if_neg hx]
  exact h x hx

/-- Binding a name on both sides. -/
theorem Agrees.cons {Γ env : Environment} (h : Agrees Γ env) (b : String × TypeValue) :
    Agrees (b :: Γ) (b :: env) := by
  intro x hx
  rw [Scope.lookup, Scope.lookup, h x hx]

variable (ctx) in
/-- In every environment that agrees with `Γ`, the expression compiles to code that pushes
a value of its type. -/
def Preserves (Γ : Environment) (e : Expression) : Prop :=
  ∀ env s, Agrees Γ env → CompilerType.Ty.environment env = .ok s →
    ∃ code u, translateExpression ctx e env = .ok (code, tmp e.typeValue env) ∧
      CompilerType.Ty.type_ e.typeValue = .ok u ∧ Types ctx code s (u :: s)

variable (ctx) in
/-- The literal compiles to a datum that the checker reads at its type. -/
def Readable (v : MiniC.Value) (τ : TypeValue) : Prop :=
  ∀ u, CompilerType.Ty.type_ τ = .ok u → ∃ n a, translateValue ctx v = .ok n ∧
    readData ctx u (strip n) = some a ∧ typeBodies ctx u (strip n) = true

/-- The checks at the end of a construct. -/
theorem finish_ok {env env' : Environment} {s s' : StackTy} {τ : TypeValue} {code : Node}
    (hs : CompilerType.Ty.environment env = .ok s) (hτ : Known τ)
    (hs' : CompilerType.Ty.environment env' = .ok s') (h : Types ctx code s s') :
    finish ctx env τ env' code = .ok (code, env') := by
  obtain ⟨n, hn⟩ := hτ.2
  rw [finish, hs, hn, hs']
  change (CompilerEnvironment.check ctx _ code s s' >>= _) = _
  rw [CompilerEnvironment.check_eq_ok h]
  rfl

/-- A value on the stack that has no name. -/
theorem environment_tmp {env : Environment} {s : StackTy} {τ : TypeValue} {u : Michelson.Ty}
    (hs : CompilerType.Ty.environment env = .ok s) (hu : CompilerType.Ty.type_ τ = .ok u) :
    CompilerType.Ty.environment (tmp τ env) = .ok (u :: s) :=
  CompilerType.Ty.environment_eq_cons hu hs

/-- A construct that leaves its value on top of the environment compiles, when the code
that it puts together has the right type. -/
theorem preserves_of_finish {Γ : Environment} {e' : Expression'} {τ : TypeValue} (hτ : Known τ)
    (h : ∀ env s u, Agrees Γ env → CompilerType.Ty.environment env = .ok s →
      CompilerType.Ty.type_ τ = .ok u → ∃ code, Types ctx code s (u :: s) ∧
        ∀ r, finish ctx env τ (tmp τ env) code = .ok r →
          translateExpression' ctx e' τ env = .ok r) :
    Preserves ctx Γ (.mk e' τ) := by
  intro env s hag hs
  obtain ⟨u, hu⟩ := hτ.1
  obtain ⟨code, htypes, heq⟩ := h env s u hag hs hu
  refine ⟨code, u, ?_, hu, htypes⟩
  rw [translateExpression_mk_eq_ok]
  exact heq _ (finish_ok hs hτ (environment_tmp hs hu) htypes)

theorem known_base (b : TypeBase) : Known (.tBase b) := ⟨⟨_, rfl⟩, _, rfl⟩

/-! ### Literals -/

section Literals

open Michelson

/-- The rule for data, with the functions in it. -/
theorem types_iPush {τ : TypeValue} {t n : Node} {u : Michelson.Ty} {a : Michelson.Value Node}
    {s : StackTy} (hu : CompilerType.Ty.type_ τ = .ok u) (ht : CompilerType.type_ τ = .ok t)
    (hpush : u.allowed false = true) (hwithin : ctx.admits u = true)
    (hread : readData ctx u (strip n) = some a)
    (hbodies : typeBodies ctx u (strip n) = true) : Types ctx (iPush t n) s (u :: s) := by
  unfold Types
  rw [iPush, strip_prim [t, n] (p := .iPush) (by decide), List.map_cons, List.map_singleton,
    strip_type_ ht]
  exact typeInstr_iPush (parseTy_type_ hu ht hpush) hread hbodies hwithin

/-- A literal that can be read back is pushed, at a type that may be pushed. -/
theorem preserves_literal {Γ : Environment} {v : MiniC.Value} {τ : TypeValue}
    {u : Michelson.Ty} (hτ : Known τ) (hu : CompilerType.Ty.type_ τ = .ok u)
    (hpush : u.allowed false = true) (hwithin : ctx.admits u = true)
    (hv : Readable ctx v τ) :
    Preserves ctx Γ (.mk (.eLiteral v) τ) := by
  refine preserves_of_finish hτ fun env s u' _ hs hu' => ?_
  obtain rfl : u = u' := Except.ok.inj (hu.symm.trans hu')
  obtain ⟨n, a, hn, hread, hbodies⟩ := hv u hu
  obtain ⟨t, ht⟩ := hτ.2
  refine ⟨iPush t n, types_iPush hu ht hpush hwithin hread hbodies, fun r hr => ?_⟩
  rw [translateExpression', hn, ht]
  exact hr

end Literals

/-! ### Variables and constants -/

theorem preserves_skip {Γ : Environment} : Preserves ctx Γ (.mk .eSkip (.tBase .unit)) := by
  refine preserves_of_finish (known_base .unit) fun env s u _ hs hu => ?_
  cases hu
  refine ⟨iPushUnit, types_iPushUnit, fun r hr => ?_⟩
  rw [translateExpression'_eSkip]
  exact hr

/-- The code of `get` copies the value of the newest binding. -/
theorem preserves_variable {Γ : Environment} {x : String} {τ : TypeValue}
    (hx : x ≠ Environment.tmpName) (hlookup : Scope.lookup x Γ = some τ) (hτ : Known τ) :
    Preserves ctx Γ (.mk (.eVariable x) τ) := by
  refine preserves_of_finish hτ fun env s u hag hs hu => ?_
  obtain ⟨code, u', hcode, hu', htypes⟩ :=
    CompilerEnvironment.get_ok ctx hs ((hag x hx).trans hlookup)
  obtain rfl : u = u' := Except.ok.inj (hu.symm.trans hu')
  refine ⟨code, htypes, fun r hr => ?_⟩
  rw [translateExpression', hcode]
  exact hr

/-- The arguments of a constant leave their values on the stack, the first one on top. -/
theorem preserves_arguments {Γ : Environment} {lst : List Expression}
    (h : ∀ e ∈ lst, Preserves ctx Γ e) {env : Environment} {s : StackTy} (hag : Agrees Γ env)
    (hs : CompilerType.Ty.environment env = .ok s) :
    ∃ env' codes bef, translateArguments ctx lst env = .ok (env', codes) ∧ Agrees Γ env' ∧
      lst.mapM (fun e => CompilerType.Ty.type_ e.typeValue) = .ok bef ∧
      CompilerType.Ty.environment env' = .ok (bef ++ s) ∧
      Types ctx (seq codes.reverse) s (bef ++ s) := by
  induction lst with
  | nil => exact ⟨env, [], [], by rw [translateArguments], hag, rfl, hs, types_nil⟩
  -- the first argument is compiled last, above the others
  | cons e lst ih =>
    obtain ⟨env', codes, bef, hargs, hag', hbef, hs', htypes⟩ :=
      ih fun e he => h e (List.mem_cons_of_mem _ he)
    obtain ⟨code, u, hcode, hu, hty⟩ := h e List.mem_cons_self env' _ hag' hs'
    refine ⟨tmp e.typeValue env', code :: codes, u :: bef, ?_, hag'.tmp _, ?_,
      environment_tmp hs' hu, ?_⟩
    · rw [translateArguments, hargs]
      change (translateExpression ctx e env' >>= _) = _
      rw [hcode]
      rfl
    · rw [List.mapM_cons, hu, hbef]
      rfl
    · rw [List.reverse_cons]
      exact htypes.append hty.singleton

/-- The arguments are evaluated from the last to the first, and the predicate's code fits their
types. -/
theorem preserves_constant {Γ : Environment} {name : String} {lst : List Expression}
    {τ : TypeValue} {bef : StackTy} {u : Michelson.Ty} (hlst : ∀ e ∈ lst, Preserves ctx Γ e)
    (hbef : lst.mapM (fun e => CompilerType.Ty.type_ e.typeValue) = .ok bef) (hτ : Known τ)
    (hu : CompilerType.Ty.type_ τ = .ok u) (hfits : Fits ctx name τ lst bef u) :
    Preserves ctx Γ (.mk (.eConstant name lst) τ) := by
  refine preserves_of_finish hτ fun env s u' hag hs hu' => ?_
  -- the predicate runs on the types of the arguments, the last of which is the deepest
  obtain rfl : u = u' := Except.ok.inj (hu.symm.trans hu')
  obtain ⟨env', codes, bef', hargs, -, hbef', -, htypes⟩ := preserves_arguments hlst hag hs
  obtain rfl : bef = bef' := Except.ok.inj (hbef.symm.trans hbef')
  obtain ⟨p, hp, hlen, hcode⟩ := hfits
  have happly : applyPredicate p lst.length (seq codes.reverse) =
      .ok (seq [seq codes.reverse, predicateCode p]) := applyPredicate_eq_ok.2 ⟨hlen, rfl⟩
  refine ⟨_, htypes.cons (hcode s).singleton, fun r hr => ?_⟩
  -- the compiler finds the predicate and checks the number of the arguments
  rw [translateExpression', hargs]
  change (getPredicate name τ lst >>= fun predicate => applyPredicate predicate lst.length
    (seq codes.reverse) >>= _) = _
  rw [hp]
  change (applyPredicate p lst.length (seq codes.reverse) >>= _) = _
  rw [happly]
  exact trace_eq_ok.2 hr

/-! ### Applications -/

/-- A function on its argument. -/
theorem types_iExec {a b : Michelson.Ty} {s : StackTy} :
    Types ctx iExec (a :: .lambda a b :: s) (b :: s) := by
  change (if a = a then Michelson.ret b s else none) = _
  rw [if_pos rfl]
  rfl

/-- A function without captured values is executed on its argument. -/
theorem preserves_quoteApplication {Γ : Environment} {f arg : Expression} {τ : TypeValue}
    (hf : Preserves ctx Γ f) (harg : Preserves ctx Γ arg) (hτ : Known τ)
    (htype : f.typeValue = .tFunction arg.typeValue τ) :
    Preserves ctx Γ (.mk (.eApplication f arg) τ) := by
  refine preserves_of_finish hτ fun env s u hag hs hu => ?_
  obtain ⟨codeF, uf, hcodeF, huf, htypesF⟩ := hf env s hag hs
  obtain ⟨codeArg, ua, hcodeArg, hua, htypesArg⟩ :=
    harg _ _ (hag.tmp f.typeValue) (environment_tmp hs huf)
  -- the value of the function has the type of the arrow
  have hlambda : uf = .lambda ua u := by
    rw [htype, CompilerType.Ty.type_, hua, hu] at huf
    exact (Except.ok.inj huf).symm
  subst hlambda
  refine ⟨seq [iComment "quote application", iComment "get f", codeF, iComment "get arg",
    codeArg, iExec], ?_, fun r hr => ?_⟩
  · refine (types_iComment _).cons ((types_iComment _).cons ?_)
    refine htypesF.cons ((types_iComment _).cons ?_)
    exact htypesArg.cons types_iExec.singleton
  · rw [translateExpression']
    simp only [htype]
    rw [trace_eq_ok, hcodeF]
    change (translateExpression ctx arg (tmp f.typeValue env) >>= _) = _
    rw [hcodeArg]
    exact hr

/-- A captured environment with a Micheline type is not empty. -/
theorem addPackedAnon_ok {c : Environment} {τ : TypeValue} {cap ua : Michelson.Ty} {n : Node}
    (hn : CompilerType.environmentClosure c = .ok n)
    (hcap : CompilerType.Ty.environmentRepresentation c = .ok cap)
    (hua : CompilerType.Ty.type_ τ = .ok ua) (hwithin : ctx.admits (.pair ua cap) = true) :
    CompilerEnvironment.addPackedAnon ctx c τ = .ok (seq [iPair]) := by
  cases c with
  | nil => cases hn
  | cons x c =>
    have hout : CompilerType.Ty.environmentRepresentation
        (Environment.add ("_add_packed_anon", τ) (x :: c)) = .ok (.pair ua cap) := by
      change (CompilerType.Ty.type_ τ >>= fun a =>
        CompilerType.Ty.environmentRepresentation (x :: c) >>= fun b =>
          Except.ok (Michelson.Ty.pair a b)) = _
      rw [hua, hcap]
      rfl
    -- the generator checks that the code makes the pair of the two types
    have htypes : Types ctx CompilerEnvironment.addPackedCode [ua, cap] [.pair ua cap] :=
      (types_iPair hwithin).singleton
    rw [CompilerEnvironment.addPackedAnon, hcap, hout, hua]
    change (CompilerEnvironment.check ctx _ _ [ua, cap] [.pair ua cap] >>= _) = _
    rw [CompilerEnvironment.check_eq_ok htypes]
    rfl

/-- A closure is executed on its argument paired with what it has captured. -/
theorem preserves_closureApplication {Γ : Environment} {f arg : Expression} {τ : TypeValue}
    {c : Environment} (hf : Preserves ctx Γ f) (hknown : Known f.typeValue)
    (harg : Preserves ctx Γ arg) (hτ : Known τ)
    (htype : f.typeValue = .tDeepClosure c arg.typeValue τ)
    (hwithin : ∀ ua cap, CompilerType.Ty.type_ arg.typeValue = .ok ua →
      CompilerType.Ty.environmentRepresentation c = .ok cap →
        ctx.admits (.pair ua cap) = true) :
    Preserves ctx Γ (.mk (.eApplication f arg) τ) := by
  refine preserves_of_finish hτ fun env s u hag hs hu => ?_
  obtain ⟨codeArg, ua, hcodeArg, hua, htypesArg⟩ := harg env s hag hs
  obtain ⟨codeF, uf, hcodeF, huf, htypesF⟩ :=
    hf _ _ (hag.tmp arg.typeValue) (environment_tmp hs hua)
  obtain ⟨nf, hnf⟩ := hknown.2
  have hnf' : CompilerType.type_ (.tDeepClosure c arg.typeValue τ) = .ok nf := by
    rw [← htype]
    exact hnf
  obtain ⟨n, hn, -⟩ := bind_eq_ok.1 hnf'
  -- a closure is its code paired with what it captures
  obtain ⟨cap, hcap, hlambda⟩ : ∃ cap, CompilerType.Ty.environmentRepresentation c = .ok cap ∧
      uf = .pair (.lambda (.pair ua cap) u) cap := by
    rw [htype, CompilerType.Ty.type_] at huf
    obtain ⟨cap, hcap, huf⟩ := bind_eq_ok.1 huf
    rw [hua, hu] at huf
    exact ⟨cap, hcap, (Except.ok.inj huf).symm⟩
  subst hlambda
  have hmade : ctx.admits (.pair ua cap) = true := hwithin ua cap hua hcap
  refine ⟨seq [iComment "closure application", iComment "arg", codeArg, iComment "f'", codeF,
    iUnpair, iComment "append", dip (seq [iSwap, seq [iPair]]), iComment "exec", iSwap, iExec],
    ?_, fun r hr => ?_⟩
  · -- the argument is paired with the captured values below the code of the function
    have hpair : Types ctx (dip (seq [iSwap, seq [iPair]]))
        (.lambda (.pair ua cap) u :: cap :: ua :: s) (.lambda (.pair ua cap) u :: .pair ua cap :: s) :=
      (types_iSwap.cons ((types_iPair hmade).singleton.singleton)).dip
    refine (types_iComment _).cons ((types_iComment _).cons ?_)
    refine htypesArg.cons ((types_iComment _).cons ?_)
    refine htypesF.cons (types_iUnpair.cons ((types_iComment _).cons ?_))
    refine hpair.cons ((types_iComment _).cons ?_)
    exact types_iSwap.cons types_iExec.singleton
  · rw [translateExpression']
    simp only [htype]
    rw [trace_eq_ok, hcodeArg]
    change (translateExpression ctx f (tmp arg.typeValue env) >>= _) = _
    rw [hcodeF]
    change (CompilerType.type_ (.tDeepClosure c arg.typeValue τ) >>= fun _ =>
      CompilerEnvironment.addPackedAnon ctx c arg.typeValue >>= _) = _
    rw [hnf']
    change (CompilerEnvironment.addPackedAnon ctx c arg.typeValue >>= _) = _
    rw [addPackedAnon_ok hn hcap hua hmade]
    exact trace_eq_ok.2 hr

/-! ### Empty collections -/

/-- Empty maps, lists and options name the type of what is not there. -/
theorem preserves_makeEmptyMap {Γ : Environment} {k v : TypeValue} {w : Michelson.Ty}
    (hτ : Known (.tMap k v)) (hw : CompilerType.Ty.type_ v = .ok w)
    (hallowed : w.allowed true = true) (hwithin : Within ctx (.tMap k v)) :
    Preserves ctx Γ (.mk (.eMakeEmptyMap k v) (.tMap k v)) := by
  refine preserves_of_finish hτ fun env s u _ hs hu => ?_
  -- the type of the map is the new one on the stack, so it has to be within the limit
  have hmade : ctx.admits u = true := hwithin u hu
  obtain ⟨c, hc, hu⟩ := bind_eq_ok.1 hu
  obtain ⟨w', hw', hu⟩ := bind_eq_ok.1 hu
  obtain rfl : w = w' := Except.ok.inj (hw.symm.trans hw')
  cases hu
  obtain ⟨n, hn⟩ := hτ.2
  obtain ⟨nk, hnk, hn⟩ := bind_eq_ok.1 hn
  obtain ⟨nv, hnv, -⟩ := bind_eq_ok.1 hn
  refine ⟨iEmptyMap nk nv, ?_, fun r hr => ?_⟩
  -- the types in the code are read back as those of the map
  · unfold Types
    rw [iEmptyMap, strip_prim [nk, nv] (p := .iEmptyMap) nofun, List.map_cons,
      List.map_singleton, strip_type_ hnk, strip_type_ hnv]
    simp only [prim, typeInstr, CompilerType.parseComparableTy_type_ hc hnk,
      parseTy_type_ hw hnv hallowed]
    exact grow_of_admits hmade
  · rw [translateExpression', hnk, hnv]
    exact hr

theorem preserves_makeEmptyList {Γ : Environment} {t : TypeValue} {w : Michelson.Ty}
    (hτ : Known (.tList t)) (hw : CompilerType.Ty.type_ t = .ok w)
    (hallowed : w.allowed true = true) (hwithin : Within ctx (.tList t)) :
    Preserves ctx Γ (.mk (.eMakeEmptyList t) (.tList t)) := by
  refine preserves_of_finish hτ fun env s u _ hs hu => ?_
  -- the type of the list is the new one on the stack
  have hmade : ctx.admits u = true := hwithin u hu
  obtain ⟨w', hw', hu⟩ := bind_eq_ok.1 hu
  obtain rfl : w = w' := Except.ok.inj (hw.symm.trans hw')
  cases hu
  obtain ⟨n, hn⟩ := hτ.2
  obtain ⟨nt, hnt, -⟩ := bind_eq_ok.1 hn
  refine ⟨iNil nt, ?_, fun r hr => ?_⟩
  · unfold Types
    rw [iNil, strip_prim [nt] (p := .iNil) nofun, List.map_singleton, strip_type_ hnt]
    simp only [prim, typeInstr, parseTy_type_ hw hnt hallowed]
    exact grow_of_admits hmade
  · rw [translateExpression', hnt]
    exact hr

theorem preserves_makeNone {Γ : Environment} {t : TypeValue} {w : Michelson.Ty}
    (hτ : Known (.tOption t)) (hw : CompilerType.Ty.type_ t = .ok w)
    (hallowed : w.allowed true = true) (hwithin : Within ctx (.tOption t)) :
    Preserves ctx Γ (.mk (.eMakeNone t) (.tOption t)) := by
  refine preserves_of_finish hτ fun env s u _ hs hu => ?_
  have hmade : ctx.admits u = true := hwithin u hu
  obtain ⟨w', hw', hu⟩ := bind_eq_ok.1 hu
  obtain rfl : w = w' := Except.ok.inj (hw.symm.trans hw')
  cases hu
  obtain ⟨n, hn⟩ := hτ.2
  obtain ⟨nt, hnt, -⟩ := bind_eq_ok.1 hn
  refine ⟨iNone nt, types_iNone hw hnt hallowed hmade, fun r hr => ?_⟩
  rw [translateExpression', hnt]
  exact hr

/-! ### Binders and branches -/

section Binders

variable {Γ : Environment}

/-- What the first expression leaves is dropped. -/
theorem preserves_sequence {a b : Expression} (ha : Preserves ctx Γ a) (hb : Preserves ctx Γ b)
    (hτ : Known b.typeValue) : Preserves ctx Γ (.mk (.eSequence a b) b.typeValue) := by
  refine preserves_of_finish hτ fun env s u hag hs hu => ?_
  obtain ⟨codeA, ua, hcodeA, hua, htypesA⟩ := ha env s hag hs
  obtain ⟨codeB, ub, hcodeB, hub, htypesB⟩ := hb env s hag hs
  obtain rfl : u = ub := Except.ok.inj (hu.symm.trans hub)
  refine ⟨seq [codeA, iDrop, codeB], ?_, fun r hr => ?_⟩
  · exact htypesA.cons (types_iDrop.cons htypesB.singleton)
  · rw [translateExpression', hcodeA]
    change (translateExpression ctx b env >>= _) = _
    rw [hcodeB]
    exact hr

/-- The body runs above the value, which is dropped afterwards. -/
theorem preserves_letIn {x : String} {e b : Expression} (he : Preserves ctx Γ e)
    (hb : Preserves ctx ((x, e.typeValue) :: Γ) b) (hτ : Known b.typeValue) :
    Preserves ctx Γ (.mk (.eLetIn (x, e.typeValue) e b) b.typeValue) := by
  refine preserves_of_finish hτ fun env s u hag hs hu => ?_
  obtain ⟨codeE, ue, hcodeE, hue, htypesE⟩ := he env s hag hs
  obtain ⟨codeB, ub, hcodeB, hub, htypesB⟩ := hb _ _ (hag.cons (x, e.typeValue))
    (CompilerType.Ty.environment_eq_cons hue hs)
  obtain rfl : u = ub := Except.ok.inj (hu.symm.trans hub)
  -- below the result, the restriction drops the binding
  obtain ⟨restrict, hrestrict, htypes⟩ :=
    CompilerEnvironment.selectEnv_tail ctx hs (x, e.typeValue) hue
  refine ⟨seq [codeE, codeB, iComment "restrict let", dip restrict], ?_, fun r hr => ?_⟩
  · exact htypesE.cons (htypesB.cons ((types_iComment _).cons htypes.dip.singleton))
  · rw [translateExpression', hcodeE]
    change (translateExpression ctx b ((x, e.typeValue) :: env) >>= _) = _
    rw [hcodeB]
    change (CompilerEnvironment.selectEnv ctx ((x, e.typeValue) :: env) env >>= _) = _
    rw [hrestrict]
    exact hr

/-- The branches leave one type. -/
theorem preserves_ifBool {c a b : Expression} (hc : Preserves ctx Γ c)
    (hbool : c.typeValue = .tBase .bool) (ha : Preserves ctx Γ a) (hb : Preserves ctx Γ b)
    (htype : b.typeValue = a.typeValue) (hτ : Known a.typeValue) :
    Preserves ctx Γ (.mk (.eIfBool c a b) a.typeValue) := by
  refine preserves_of_finish hτ fun env s u hag hs hu => ?_
  obtain ⟨codeC, uc, hcodeC, huc, htypesC⟩ := hc env s hag hs
  obtain ⟨codeA, ua, hcodeA, hua, htypesA⟩ := ha env s hag hs
  obtain ⟨codeB, ub, hcodeB, hub, htypesB⟩ := hb env s hag hs
  rw [hbool] at huc
  rw [htype] at hub
  cases huc
  -- both branches leave a value of the type of the conditional
  obtain rfl : u = ua := Except.ok.inj (hu.symm.trans hua)
  obtain rfl : u = ub := Except.ok.inj (hu.symm.trans hub)
  refine ⟨seq [codeC, iIf codeA codeB], ?_, fun r hr => ?_⟩
  · exact htypesC.cons (Types.iIf htypesA htypesB).singleton
  · rw [translateExpression', hcodeC]
    change (translateExpression ctx a env >>= _) = _
    rw [hcodeA]
    change (translateExpression ctx b env >>= _) = _
    rw [hcodeB]
    exact hr

/-- The value of the option is bound in the second branch. -/
theorem preserves_ifNone {c n e : Expression} {x : String} {t : TypeValue}
    (hc : Preserves ctx Γ c) (hoption : c.typeValue = .tOption t) (hn : Preserves ctx Γ n)
    (he : Preserves ctx ((x, t) :: Γ) e) (htype : e.typeValue = n.typeValue)
    (hτ : Known n.typeValue) : Preserves ctx Γ (.mk (.eIfNone c n (x, t) e) n.typeValue) := by
  refine preserves_of_finish hτ fun env s u hag hs hu => ?_
  obtain ⟨codeC, uc, hcodeC, huc, htypesC⟩ := hc env s hag hs
  obtain ⟨ut, hut, rfl⟩ : ∃ ut, CompilerType.Ty.type_ t = .ok ut ∧ uc = .option ut := by
    rw [hoption] at huc
    obtain ⟨ut, hut, rfl⟩ := map_eq_ok.1 huc
    exact ⟨ut, hut, rfl⟩
  obtain ⟨codeN, un, hcodeN, hun, htypesN⟩ := hn env s hag hs
  obtain ⟨codeE, ue, hcodeE, hue, htypesE⟩ := he _ _ (hag.cons (x, t))
    (CompilerType.Ty.environment_eq_cons hut hs)
  rw [htype] at hue
  obtain rfl : u = un := Except.ok.inj (hu.symm.trans hun)
  obtain rfl : u = ue := Except.ok.inj (hu.symm.trans hue)
  -- only the branch of the content binds a name, so only that branch is restricted
  obtain ⟨restrict, hrestrict, htypes⟩ :=
    CompilerEnvironment.selectEnv_tail ctx hs (x, t) hut
  refine ⟨seq [codeC, iIfNone codeN (seq [codeE, dip restrict])], ?_, fun r hr => ?_⟩
  · have hsome : Types ctx (seq [codeE, dip restrict]) (ut :: s) (u :: s) :=
      htypesE.cons htypes.dip.singleton
    exact htypesC.cons (Types.iIfNone htypesN hsome).singleton
  · rw [translateExpression', hcodeC]
    change (translateExpression ctx n env >>= _) = _
    rw [hcodeN]
    change (translateExpression ctx e ((x, t) :: env) >>= _) = _
    rw [hcodeE]
    change (CompilerEnvironment.selectEnv ctx ((x, t) :: env) env >>= _) = _
    rw [hrestrict]
    exact hr

/-- The value is bound in the branch of its side. -/
theorem preserves_ifLeft {c l r : Expression} {x y : String} {a b : TypeValue}
    (hc : Preserves ctx Γ c) (hor : c.typeValue = .tOr a b)
    (hl : Preserves ctx ((x, a) :: Γ) l) (hr : Preserves ctx ((y, b) :: Γ) r)
    (htype : r.typeValue = l.typeValue) (hτ : Known l.typeValue) :
    Preserves ctx Γ (.mk (.eIfLeft c (x, a) l (y, b) r) l.typeValue) := by
  refine preserves_of_finish hτ fun env s u hag hs hu => ?_
  obtain ⟨codeC, uc, hcodeC, huc, htypesC⟩ := hc env s hag hs
  obtain ⟨ua, ub, hua, hub, rfl⟩ : ∃ ua ub, CompilerType.Ty.type_ a = .ok ua ∧
      CompilerType.Ty.type_ b = .ok ub ∧ uc = .or ua ub := by
    rw [hor] at huc
    obtain ⟨ua, ub, hua, hub, rfl⟩ := map₂_eq_ok.1 huc
    exact ⟨ua, ub, hua, hub, rfl⟩
  obtain ⟨codeL, ul, hcodeL, hul, htypesL⟩ := hl _ _ (hag.cons (x, a))
    (CompilerType.Ty.environment_eq_cons hua hs)
  obtain ⟨codeR, ur, hcodeR, hur, htypesR⟩ := hr _ _ (hag.cons (y, b))
    (CompilerType.Ty.environment_eq_cons hub hs)
  rw [htype] at hur
  obtain rfl : u = ul := Except.ok.inj (hu.symm.trans hul)
  obtain rfl : u = ur := Except.ok.inj (hu.symm.trans hur)
  -- each branch drops its binding at its end
  obtain ⟨restrictL, hrestrictL, hselectL⟩ :=
    CompilerEnvironment.selectEnv_tail ctx hs (x, a) hua
  obtain ⟨restrictR, hrestrictR, hselectR⟩ :=
    CompilerEnvironment.selectEnv_tail ctx hs (y, b) hub
  refine ⟨seq [codeC, iIfLeft (seq [codeL, iComment "restrict left", dip restrictL])
    (seq [codeR, iComment "restrict right", dip restrictR])], ?_, fun res hres => ?_⟩
  · have hleft : Types ctx (seq [codeL, iComment "restrict left", dip restrictL]) (ua :: s)
        (u :: s) := htypesL.cons ((types_iComment _).cons hselectL.dip.singleton)
    have hright : Types ctx (seq [codeR, iComment "restrict right", dip restrictR]) (ub :: s)
        (u :: s) := htypesR.cons ((types_iComment _).cons hselectR.dip.singleton)
    exact htypesC.cons (Types.iIfLeft hleft hright).singleton
  · rw [translateExpression', hcodeC]
    change (translateExpression ctx l ((x, a) :: env) >>= _) = _
    rw [hcodeL]
    change (translateExpression ctx r ((y, b) :: env) >>= _) = _
    rw [hcodeR]
    change (CompilerEnvironment.selectEnv ctx ((x, a) :: env) env >>= _) = _
    rw [hrestrictL]
    change (CompilerEnvironment.selectEnv ctx ((y, b) :: env) env >>= _) = _
    rw [hrestrictR]
    exact hres

/-- The temporary that the block of a loop leaves is dropped before the next condition. -/
theorem preserves_while {c b : Expression} (hc : Preserves ctx Γ c)
    (hbool : c.typeValue = .tBase .bool) (hb : Preserves ctx Γ b) :
    Preserves ctx Γ (.mk (.eWhile c b) (.tBase .unit)) := by
  refine preserves_of_finish (known_base .unit) fun env s u hag hs hu => ?_
  obtain ⟨codeC, uc, hcodeC, huc, htypesC⟩ := hc env s hag hs
  obtain ⟨codeB, ub, hcodeB, hub, htypesB⟩ := hb env s hag hs
  rw [hbool] at huc
  cases huc
  cases hu
  obtain ⟨restrict, hrestrict, htypes⟩ :=
    CompilerEnvironment.selectEnv_tail ctx hs (Environment.tmpName, b.typeValue) hub
  refine ⟨seq [codeC, prim .iLoop [seq [codeB, restrict, codeC]], iPushUnit], ?_,
    fun r hr => ?_⟩
  · have hbody : Types ctx (seq [codeB, restrict, codeC]) s (.comparable .bool :: s) :=
      htypesB.cons (htypes.cons htypesC.singleton)
    exact htypesC.cons ((Types.iLoop hbody).cons types_iPushUnit.singleton)
  · rw [translateExpression', hcodeC]
    change (translateExpression ctx b env >>= _) = _
    rw [hcodeB]
    change (CompilerEnvironment.selectEnv ctx ((Environment.tmpName, b.typeValue) :: env) env
      >>= _) = _
    rw [hrestrict]
    exact hr

end Binders

/-! ### Assignments -/

/-- The code that updates the component at a path replaces a value of its type. Each pair
that it puts together again is part of the whole type. -/
theorem types_modifyCode {lrs : List Step} {σ τ : TypeValue} {t u : Michelson.Ty}
    (hpath : typeAt lrs σ = some τ) (ht : CompilerType.Ty.type_ σ = .ok t)
    (hu : CompilerType.Ty.type_ τ = .ok u) (hwithin : lrs ≠ [] → ctx.admits t = true)
    (s : StackTy) : Types ctx (modifyCode lrs) (u :: t :: s) (t :: s) := by
  induction lrs generalizing σ t s with
  | nil =>
    cases hpath
    -- the empty path replaces the whole value
    obtain rfl : u = t := Except.ok.inj (hu.symm.trans ht)
    exact types_iDrop.dip
  | cons step lrs ih =>
    have hpair : ∃ a b, σ = .tPair a b := by
      cases step <;> cases σ <;> first | exact ⟨_, _, rfl⟩ | cases hpath
    obtain ⟨a, b, rfl⟩ := hpair
    obtain ⟨ta, tb, hta, htb, rfl⟩ := map₂_eq_ok.1 ht
    have hpair : ctx.admits (.pair ta tb) = true := hwithin (by simp)
    rw [modifyCode, foldRight'_cons, ← modifyCode]
    cases step with
    -- the other component waits below while the path goes on in this one
    | left =>
      have hunpair : Types ctx (dip iUnpair) (u :: .pair ta tb :: s) (u :: ta :: tb :: s) :=
        types_iUnpair.dip
      have hleft := ih hpath hta (fun _ => Context.admits_fst hpair) (tb :: s)
      exact hunpair.cons (hleft.cons (types_iPair hpair).singleton)
    | right =>
      have hunpair : Types ctx (dip iUnpiar) (u :: .pair ta tb :: s) (u :: tb :: ta :: s) :=
        types_iUnpiar.dip
      have hright := ih hpath htb (fun _ => Context.admits_snd hpair) (ta :: s)
      exact hunpair.cons (hright.cons (types_iPiar hpair).singleton)

/-- A component is replaced along its path, and every pair on the path is made again. -/
theorem preserves_assignment {Γ : Environment} {x : String} {σ : TypeValue} {lrs : List Step}
    {e : Expression} (hx : x ≠ Environment.tmpName) (hlookup : Scope.lookup x Γ = some σ)
    (he : Preserves ctx Γ e) (hpath : typeAt lrs σ = some e.typeValue)
    (hwithin : lrs ≠ [] → Within ctx σ) :
    Preserves ctx Γ (.mk (.eAssignment x lrs e) (.tBase .unit)) := by
  refine preserves_of_finish (known_base .unit) fun env s u hag hs hu => ?_
  obtain ⟨codeE, ue, hcodeE, hue, htypesE⟩ := he env s hag hs
  -- the new value lies on the stack under a temporary name
  have hs' := environment_tmp hs hue
  obtain ⟨codeGet, t, hcodeGet, ht, htypesGet⟩ :=
    CompilerEnvironment.get_ok ctx hs' ((hag.tmp e.typeValue x hx).trans hlookup)
  obtain ⟨codeSet, t', hcodeSet, ht', htypesSet⟩ :=
    CompilerEnvironment.set_ok ctx hs ((hag x hx).trans hlookup)
  obtain rfl : t = t' := Except.ok.inj (ht.symm.trans ht')
  cases hu
  refine ⟨seq [iComment "assign: start # env", codeE,
    iComment "assign: compute rhs # rhs : env", codeGet,
    iComment "assign: get name # name : rhs : env", iSwap,
    iComment "assign: swap # rhs : name : env", modifyCode lrs,
    iComment "assign: modify code # name+rhs : env", codeSet,
    iComment "assign: set new # new_env", iPushUnit], ?_, fun r hr => ?_⟩
  -- one typing for each entry of the sequence, in its order
  · have hmodify : Types ctx (modifyCode lrs) (ue :: t :: s) (t :: s) :=
      types_modifyCode hpath ht hue (fun hne => hwithin hne t ht) s
    refine (types_iComment _).cons ?_
    refine htypesE.cons ((types_iComment _).cons ?_)
    refine htypesGet.cons ((types_iComment _).cons ?_)
    refine types_iSwap.cons ((types_iComment _).cons ?_)
    refine hmodify.cons ((types_iComment _).cons ?_)
    refine htypesSet.cons ((types_iComment _).cons ?_)
    exact types_iPushUnit.singleton
  · rw [translateExpression', hcodeE]
    change (CompilerEnvironment.get ctx (tmp e.typeValue env) x >>= _) = _
    rw [hcodeGet]
    change (CompilerEnvironment.set ctx env x >>= _) = _
    rw [hcodeSet]
    exact trace_eq_ok.2 hr

/-! ### Quotes -/

/-- The body of a quote drops the parameter at the end. -/
theorem translateQuoteBody_ok {b : String} {i : TypeValue} {e : Expression}
    (hb : b ≠ Environment.tmpName) (he : Preserves ctx [(b, i)] e) (hknown : Known e.typeValue)
    {t u : Michelson.Ty} (ht : CompilerType.Ty.type_ i = .ok t)
    (hu : CompilerType.Ty.type_ e.typeValue = .ok u) :
    ∃ code, translateQuoteBody ctx
        (.mk b i e.typeValue (.mk (.eEnvironmentReturn e) e.typeValue)) = .ok code ∧
      Types ctx code [t] [u] := by
  have hs : CompilerType.Ty.environment [(b, i)] = .ok [t] :=
    CompilerType.Ty.environment_eq_cons ht rfl
  obtain ⟨codeE, ue, hcodeE, hue, htypesE⟩ := he _ _ (fun x _ => rfl) hs
  obtain rfl : u = ue := Except.ok.inj (hu.symm.trans hue)
  -- of the two bindings only the value is named as the selector says
  have hflags : Scope.flags [Environment.tmpName] [Environment.tmpName, b] = [true, false] := by
    have hcount : [b].count Environment.tmpName = 0 := List.count_eq_zero.2 (by simp [hb.symm])
    have hcount' : [Environment.tmpName].count b = 0 := List.count_eq_zero.2 (by simp [hb])
    rw [Scope.flags, Scope.flags, hcount, hcount']
    rfl
  obtain ⟨codeClear, hcodeClear, htypesClear⟩ : ∃ code,
      CompilerEnvironment.select ctx (tmp e.typeValue [(b, i)]) [Environment.tmpName] = .ok code ∧
        Types ctx code [u, t] (Scope.keep (Scope.flags [Environment.tmpName]
          [Environment.tmpName, b]) [u, t]) :=
    CompilerEnvironment.select_ok ctx (environment_tmp hs hu) _
  have hselect : Environment.select [Environment.tmpName] (tmp e.typeValue [(b, i)]) =
      tmp e.typeValue [] := by
    rw [Environment.select_eq]
    change Scope.keep (Scope.flags [Environment.tmpName] [Environment.tmpName, b]) _ = _
    rw [hflags]
    rfl
  rw [hflags] at htypesClear
  have hcode : Types ctx (seq [codeE, codeClear]) [t] [u] :=
    htypesE.cons htypesClear.singleton
  have hret : translateExpression ctx (.mk (.eEnvironmentReturn e) e.typeValue) [(b, i)] =
      .ok (seq [codeE, codeClear], tmp e.typeValue []) := by
    have hfinish : finish ctx [(b, i)] e.typeValue (tmp e.typeValue []) _ = _ :=
      finish_ok hs hknown (environment_tmp rfl hu) hcode
    rw [translateExpression_mk_eq_ok, translateExpression', hcodeE]
    change (CompilerEnvironment.clear ctx (tmp e.typeValue [(b, i)]) >>= _) = _
    rw [CompilerEnvironment.clear]
    change ((CompilerEnvironment.select ctx (tmp e.typeValue [(b, i)]) [Environment.tmpName]
      >>= _) >>= _) = _
    rw [hcodeClear, hselect]
    exact hfinish
  refine ⟨seq [iComment "function result", seq [codeE, codeClear]], ?_,
    (types_iComment _).cons hcode.singleton⟩
  rw [translateQuoteBody]
  change (translateExpression ctx (.mk (.eEnvironmentReturn e) e.typeValue) [(b, i)] >>= _) = _
  rw [hret, ht, hu]
  change (CompilerEnvironment.check ctx _ _ [t] [u] >>= _) = _
  rw [CompilerEnvironment.check_eq_ok ((types_iComment _).cons hcode.singleton)]
  rfl

/-! ### Reading literals -/

section Reading

open Michelson

/-- A key is read as the atom that it denotes. -/
theorem readable_key {v : MiniC.Value} {k : TypeValue} {c : ComparableTy}
    (hk : CompilerType.Ty.comparableType k = .ok c) (hv : WellFormed ctx v k) :
    ∃ n a, translateValue ctx v = .ok n ∧ readData ctx (.comparable c) (strip n) =
      some (.atom a) ∧ keyAtom ctx c v = some a := by
  cases hv with
  | int n =>
    cases hk
    exact ⟨_, _, rfl, rfl, rfl⟩
  | nat n hn =>
    cases hk
    have hread : readData ctx (.comparable .nat) (.int n.val) =
        some (.nat n.val.toNat) := by rw [readData, if_pos hn]
    refine ⟨_, _, rfl, hread, ?_⟩
    rw [keyAtom, denote, denoteInt, if_pos hn]
  | tez n hn =>
    cases hk
    -- an integer of the host is below the bound of a mutez
    have hlt : n.val.toNat < 2 ^ 63 := by
      have := n.property.2
      omega
    have hread : readData ctx (.comparable .mutez) (.int n.val) =
        some (.mutez ⟨n.val.toNat, hlt⟩) := by rw [readData, dif_pos ⟨hn, hlt⟩]
    refine ⟨_, _, rfl, hread, ?_⟩
    rw [keyAtom, denote, denoteInt, dif_pos ⟨hn, hlt⟩]
  | string s hs =>
    cases hk
    have hread : readData ctx (.comparable .string) (.string s) = some (.string s) := by
      rw [readData, if_pos hs]
    refine ⟨_, _, rfl, hread, ?_⟩
    rw [keyAtom, denote, if_pos hs]
  | bytes b =>
    cases hk
    exact ⟨_, _, rfl, rfl, rfl⟩
  | address hs =>
    cases hk
    rename_i s a
    have hread : readData ctx (.comparable .address) (.string s) = some (.address a) := by
      rw [readData, hs]
      rfl
    refine ⟨_, _, rfl, hread, ?_⟩
    rw [keyAtom, denote, hs]
    rfl
  | _ => cases hk

/-- Keys are comparable, so what is pushed is read back as one atom. -/
theorem readable_of_key {v : MiniC.Value} {k : TypeValue} {c : ComparableTy}
    (hk : CompilerType.Ty.comparableType k = .ok c) (hv : WellFormed ctx v k) :
    Readable ctx v k := by
  intro u hu
  rw [CompilerType.type_of_comparableType hk] at hu
  cases hu
  obtain ⟨n, a, hn, hread, -⟩ := readable_key hk hv
  exact ⟨n, .atom a, hn, hread, typeBodies_comparable c _⟩

/-- Elements that can be read back make a list that can. -/
theorem readable_list {lst : List MiniC.Value} {a : TypeValue} {t : Michelson.Ty}
    (ht : CompilerType.Ty.type_ a = .ok t) (h : ∀ v ∈ lst, Readable ctx v a) :
    ∃ ns vs, translateValues ctx lst = .ok ns ∧ readItems ctx t (ns.map strip) = some vs ∧
      typeBodiesAll ctx t (ns.map strip) = true := by
  induction lst with
  | nil => exact ⟨[], [], rfl, rfl, rfl⟩
  | cons v lst ih =>
    obtain ⟨n, w, hn, hread, hbodies⟩ := h v List.mem_cons_self t ht
    obtain ⟨ns, ws, hns, hreads, hall⟩ := ih fun v hv => h v (List.mem_cons_of_mem _ hv)
    refine ⟨n :: ns, w :: ws, ?_, ?_, ?_⟩
    · rw [translateValues, hn, hns]
      rfl
    · rw [List.map_cons, readItems, hread, hreads]
      rfl
    · rw [List.map_cons, typeBodiesAll, hbodies, hall]
      rfl

/-- The entries of a map are read back in the order of their keys. -/
theorem readable_entries {lst : List (MiniC.Value × MiniC.Value)} {k a : TypeValue}
    {c : ComparableTy} {t : Michelson.Ty} (hk : CompilerType.Ty.comparableType k = .ok c)
    (ht : CompilerType.Ty.type_ a = .ok t) (hkeys : ∀ x ∈ lst, WellFormed ctx x.1 k)
    (hvals : ∀ x ∈ lst, Readable ctx x.2 a) :
    ∃ ns m, translateEntries ctx lst = .ok ns ∧
      readEntries ctx c t (ns.map strip) = some m ∧
      m.map Prod.fst = lst.filterMap (fun x => keyAtom ctx c x.1) ∧
      typeBodiesEntries ctx t (ns.map strip) = true := by
  induction lst with
  | nil => exact ⟨[], [], rfl, rfl, rfl, rfl⟩
  | cons x lst ih =>
    obtain ⟨nk, atom, hnk, hkey, hatom⟩ := readable_key hk (hkeys x List.mem_cons_self)
    obtain ⟨n, w, hn, hread, hbodies⟩ := hvals x List.mem_cons_self t ht
    obtain ⟨ns, m, hns, hreads, hfst, hall⟩ := ih
      (fun x hx => hkeys x (List.mem_cons_of_mem _ hx))
      (fun x hx => hvals x (List.mem_cons_of_mem _ hx))
    have hstrip : strip (prim .dElt [nk, n]) = .prim .dElt [strip nk, strip n] [] := rfl
    refine ⟨prim .dElt [nk, n] :: ns, (atom, w) :: m, ?_, ?_, ?_, ?_⟩
    -- an `Elt` whose key and value read back
    · rw [translateEntries, hnk, hn, hns]
      rfl
    · rw [List.map_cons, hstrip, readEntries, hkey, hread, hreads]
      rfl
    · rw [List.map_cons, List.filterMap_cons, hatom, hfst]
    · rw [List.map_cons, hstrip, typeBodiesEntries, hbodies, hall]
      rfl

theorem readable_pair {v w : MiniC.Value} {a b : TypeValue} (hv : Readable ctx v a)
    (hw : Readable ctx w b) : Readable ctx (.dPair v w) (.tPair a b) := by
  intro u hu
  obtain ⟨s, t, hs, ht, rfl⟩ := map₂_eq_ok.1 hu
  obtain ⟨n, x, hn, hread, hbodies⟩ := hv s hs
  obtain ⟨m, y, hm, hread', hbodies'⟩ := hw t ht
  have hstrip : strip (prim .dPair [n, m]) = .prim .dPair [strip n, strip m] [] := rfl
  refine ⟨prim .dPair [n, m], .pair x y, ?_, ?_, ?_⟩
  · rw [translateValue, hn, hm]
    rfl
  · rw [hstrip, readData, hread, hread']
    rfl
  · rw [hstrip, typeBodies, hbodies, hbodies']
    rfl

theorem readable_left {v : MiniC.Value} {a b : TypeValue} (hv : Readable ctx v a) :
    Readable ctx (.dLeft v) (.tOr a b) := by
  intro u hu
  obtain ⟨s, t, hs, ht, rfl⟩ := map₂_eq_ok.1 hu
  obtain ⟨n, x, hn, hread, hbodies⟩ := hv s hs
  have hstrip : strip (prim .dLeft [n]) = .prim .dLeft [strip n] [] := rfl
  refine ⟨prim .dLeft [n], .left x, ?_, ?_, ?_⟩
  · rw [translateValue, hn]
    rfl
  · rw [hstrip, readData, hread]
    rfl
  · rw [hstrip, typeBodies, hbodies]

theorem readable_right {v : MiniC.Value} {a b : TypeValue} (hv : Readable ctx v b) :
    Readable ctx (.dRight v) (.tOr a b) := by
  intro u hu
  obtain ⟨s, t, hs, ht, rfl⟩ := map₂_eq_ok.1 hu
  obtain ⟨n, x, hn, hread, hbodies⟩ := hv t ht
  have hstrip : strip (prim .dRight [n]) = .prim .dRight [strip n] [] := rfl
  refine ⟨prim .dRight [n], .right x, ?_, ?_, ?_⟩
  · rw [translateValue, hn]
    rfl
  · rw [hstrip, readData, hread]
    rfl
  · rw [hstrip, typeBodies, hbodies]

theorem readable_some {v : MiniC.Value} {a : TypeValue} (hv : Readable ctx v a) :
    Readable ctx (.dSome v) (.tOption a) := by
  intro u hu
  obtain ⟨t, ht, rfl⟩ := map_eq_ok.1 hu
  obtain ⟨n, x, hn, hread, hbodies⟩ := hv t ht
  have hstrip : strip (prim .dSome [n]) = .prim .dSome [strip n] [] := rfl
  refine ⟨prim .dSome [n], .some x, ?_, ?_, ?_⟩
  · rw [translateValue, hn]
    rfl
  · rw [hstrip, readData, hread]
    rfl
  · rw [hstrip, typeBodies, hbodies]

theorem readable_none {a : TypeValue} : Readable ctx .dNone (.tOption a) := by
  intro u hu
  obtain ⟨t, ht, rfl⟩ := map_eq_ok.1 hu
  exact ⟨prim .dNone [], .none, rfl, rfl, rfl⟩

/-- An address is a contract where its code takes the parameter. -/
theorem readable_contract {s : String} {a : Address} {t : TypeValue} {u : Michelson.Ty}
    (hs : ctx.ofB58check s = some a) (hu : CompilerType.Ty.type_ t = .ok u)
    (ha : ctx.contractTy a = some u) : Readable ctx (.dString s) (.tContract t) := by
  intro u' hu'
  obtain ⟨t', ht', hu'⟩ := bind_eq_ok.1 hu'
  obtain rfl : u = t' := Except.ok.inj (hu.symm.trans ht')
  cases hu'
  refine ⟨.string s, .contract u a, rfl, ?_, rfl⟩
  change readData ctx (.contract u) (.string s) = _
  rw [readData, hs, Option.bind_some, readContract, if_pos ha]

/-- The code of a function is checked when it is pushed. -/
theorem readable_quote {b : String} {i : TypeValue} {e : Expression}
    (hb : b ≠ Environment.tmpName) (hknown : Known e.typeValue)
    (he : Preserves ctx [(b, i)] e) :
    Readable ctx (.dFunction (.mk b i e.typeValue (.mk (.eEnvironmentReturn e) e.typeValue)))
      (.tFunction i e.typeValue) := by
  intro u hu
  obtain ⟨s, t, hs, ht, rfl⟩ := map₂_eq_ok.1 hu
  obtain ⟨code, hcode, htypes⟩ := translateQuoteBody_ok hb he hknown hs ht
  have hstrip : strip (seq [code]) = .seq [strip code] := strip_seq [code]
  refine ⟨seq [code], .lambda (.seq [strip code]), ?_, ?_, ?_⟩
  · rw [translateValue, hcode]
    rfl
  · rw [hstrip, readData]
  · rw [hstrip, typeBodies, typeSeq_singleton, htypes]
    simp [returns]

end Reading

/-! ### Every derivation -/

/-- What a derivation says about the generated code. -/
def Holds (ctx : Michelson.Context) : Judgement → Prop
  | .expression Γ e => Known e.typeValue ∧ Preserves ctx Γ e
  | .value v τ => Readable ctx v τ

/-- Every rule of the derivations preserves typing; by induction on the derivation. -/
theorem holds_of_derivable {j : Judgement} (h : Derivable ctx j) : Holds ctx j := by
  -- one induction for both judgements: a literal can be a quote, whose body is an expression
  induction h with
  | literal hτ hu hpush hwithin _ ih =>
    exact ⟨hτ, preserves_literal hτ hu hpush hwithin ih⟩
  | skip => exact ⟨known_base .unit, preserves_skip⟩
  | variable' hx hlookup hτ => exact ⟨hτ, preserves_variable hx hlookup hτ⟩
  | constant hlst hbef hτ hu hfits ih =>
    exact ⟨hτ, preserves_constant (fun e he => (ih e he).2) hbef hτ hu hfits⟩
  | quoteApplication _ _ hτ htype ihf iharg =>
    exact ⟨hτ, preserves_quoteApplication ihf.2 iharg.2 hτ htype⟩
  | closureApplication _ _ hτ htype hwithin ihf iharg =>
    exact ⟨hτ, preserves_closureApplication ihf.2 ihf.1 iharg.2 hτ htype hwithin⟩
  | makeEmptyMap hτ hw hallowed hwithin =>
    exact ⟨hτ, preserves_makeEmptyMap hτ hw hallowed hwithin⟩
  | makeEmptyList hτ hw hallowed hwithin =>
    exact ⟨hτ, preserves_makeEmptyList hτ hw hallowed hwithin⟩
  | makeNone hτ hw hallowed hwithin => exact ⟨hτ, preserves_makeNone hτ hw hallowed hwithin⟩
  | ifBool _ hbool _ _ htype ihc iha ihb =>
    exact ⟨iha.1, preserves_ifBool ihc.2 hbool iha.2 ihb.2 htype iha.1⟩
  | ifNone _ hoption _ _ _ htype ihc ihn ihs =>
    exact ⟨ihn.1, preserves_ifNone ihc.2 hoption ihn.2 ihs.2 htype ihn.1⟩
  | ifLeft _ hor _ _ _ _ htype ihc ihl ihr =>
    exact ⟨ihl.1, preserves_ifLeft ihc.2 hor ihl.2 ihr.2 htype ihl.1⟩
  | letIn _ _ _ ihe ihb => exact ⟨ihb.1, preserves_letIn ihe.2 ihb.2 ihb.1⟩
  | sequence _ _ iha ihb => exact ⟨ihb.1, preserves_sequence iha.2 ihb.2 ihb.1⟩
  | assignment hx hlookup _ hpath hwithin ihe =>
    exact ⟨known_base .unit, preserves_assignment hx hlookup ihe.2 hpath hwithin⟩
  | while' _ hbool _ _ ihc ihb =>
    exact ⟨known_base .unit, preserves_while ihc.2 hbool ihb.2⟩
  | unit =>
    intro u hu
    cases hu
    exact ⟨_, _, rfl, rfl, rfl⟩
  | bool b =>
    intro u hu
    cases hu
    cases b <;> exact ⟨_, _, rfl, rfl, rfl⟩
  | int n => exact readable_of_key rfl (.int n)
  | nat n hn => exact readable_of_key rfl (.nat n hn)
  | tez n hn => exact readable_of_key rfl (.tez n hn)
  | string s hs => exact readable_of_key rfl (.string s hs)
  | bytes b => exact readable_of_key rfl (.bytes b)
  | address hs => exact readable_of_key rfl (.address hs)
  | contract hs hu ha => exact readable_contract hs hu ha
  | pair _ _ ihv ihw => exact readable_pair ihv ihw
  | left _ ih => exact readable_left ih
  | right _ ih => exact readable_right ih
  | some _ ih => exact readable_some ih
  | none => exact readable_none
  | list _ ih =>
    intro u hu
    obtain ⟨t, ht, rfl⟩ := map_eq_ok.1 hu
    obtain ⟨ns, vs, hns, hread, hbodies⟩ := readable_list ht ih
    refine ⟨seq ns, .list vs, ?_, ?_, ?_⟩
    · rw [translateValue, hns]
      rfl
    · rw [strip_seq, seq, readData, hread]
      rfl
    · rw [strip_seq, seq, typeBodies, hbodies]
  | map hk hkeys _ hsorted _ ihvals =>
    intro u hu
    obtain ⟨c, t, hc, ht, rfl⟩ := map₂_eq_ok.1 hu
    obtain rfl := Except.ok.inj (hk.symm.trans hc)
    obtain ⟨ns, m, hns, hread, hfst, hbodies⟩ := readable_entries hk ht hkeys ihvals
    -- the protocol refuses a map whose keys are out of order
    have hm : SortedMap.Sorted m := by
      rw [SortedMap.Sorted, ← List.pairwise_map, hfst]
      exact hsorted
    refine ⟨seq ns, .map m, ?_, ?_, ?_⟩
    · rw [translateValue, hns]
      rfl
    · rw [strip_seq, seq, readData, hread]
      exact if_pos hm
    · rw [strip_seq, seq, typeBodies, hbodies]
  | quote hb _ ih => exact readable_quote hb ih.1 ih.2

/-- Type preservation: no check of the generator fails on a well-typed expression, and
its code leaves a value of the type of the expression on the stack of the environment. -/
theorem translateExpression_typed {env : Environment} {e : Expression} {s : StackTy}
    (h : WellTyped ctx env e) (hs : CompilerType.Ty.environment env = .ok s) :
    ∃ code u, translateExpression ctx e env = .ok (code, (Environment.tmpName, e.typeValue) :: env) ∧
      CompilerType.Ty.environment ((Environment.tmpName, e.typeValue) :: env) = .ok (u :: s) ∧
      CompilerType.Ty.type_ e.typeValue = .ok u ∧ Types ctx code s (u :: s) := by
  obtain ⟨-, hpreserves⟩ := holds_of_derivable h
  obtain ⟨code, u, hcode, hu, htypes⟩ := hpreserves env s (fun _ _ => rfl) hs
  exact ⟨code, u, hcode, environment_tmp hs hu, hu, htypes⟩

/-- `let y = 1 in x + y` where `x` is an integer. -/
theorem sum_typed :
    ∃ code, translateExpression Context.empty
        (.mk (.eLetIn ("y", .tBase .int) (.mk (.eLiteral (.dInt ⟨1, by decide⟩)) (.tBase .int))
          (.mk (.eConstant "ADD" [.mk (.eVariable "x") (.tBase .int),
            .mk (.eVariable "y") (.tBase .int)]) (.tBase .int))) (.tBase .int))
        [("x", .tBase .int)] =
          .ok (code, [(Environment.tmpName, .tBase .int), ("x", .tBase .int)]) ∧
      Types Context.empty code [.comparable .int] [.comparable .int, .comparable .int] := by
  have hint : Known (.tBase .int) := known_base .int
  have hone : WellTyped Context.empty [("x", .tBase .int)]
      (.mk (.eLiteral (.dInt ⟨1, by decide⟩)) (.tBase .int)) :=
    .literal hint rfl rfl rfl (.int _)
  have hadd : WellTyped Context.empty [("y", .tBase .int), ("x", .tBase .int)]
      (.mk (.eConstant "ADD" [.mk (.eVariable "x") (.tBase .int),
        .mk (.eVariable "y") (.tBase .int)]) (.tBase .int)) := by
    refine .constant ?_ rfl hint rfl
      (fits_of_predicates rfl rfl fun _ => rfl)
    simp only [List.mem_cons, List.not_mem_nil, or_false]
    rintro e (rfl | rfl)
    · exact .variable' (by decide) rfl hint
    · exact .variable' (by decide) rfl hint
  obtain ⟨code, u, hcode, -, hu, htypes⟩ :=
    translateExpression_typed (.letIn (by decide) hone hadd) rfl
  cases hu
  exact ⟨code, hcode, htypes⟩

/-- A closure that captures nothing has a type on the stack but no Micheline type, so a
variable of this type does not compile. Neither do `NONE` of a contract whose parameter is
an operation, and the empty list of operations as a literal. -/
theorem variable_of_empty_closure :
    CompilerType.Ty.environment [("f", .tDeepClosure [] (.tBase .int) (.tBase .int))] =
        .ok [.pair (.lambda (.pair (.comparable .int) .unit) (.comparable .int)) .unit] ∧
      (∀ r, translateExpression Context.empty
        (.mk (.eVariable "f") (.tDeepClosure [] (.tBase .int) (.tBase .int)))
        [("f", .tDeepClosure [] (.tBase .int) (.tBase .int))] ≠ .ok r) ∧
      CompilerType.Ty.type_ (.tOption (.tContract (.tBase .operation))) =
        .ok (.option (.contract .operation)) ∧
      (∀ r, translateExpression Context.empty
        (.mk (.eMakeNone (.tContract (.tBase .operation)))
          (.tOption (.tContract (.tBase .operation)))) [] ≠ .ok r) ∧
      CompilerType.Ty.type_ (.tList (.tBase .operation)) = .ok (.list .operation) ∧
      ∀ r, translateExpression Context.empty
        (.mk (.eLiteral (.dList [])) (.tList (.tBase .operation))) [] ≠ .ok r := by
  refine ⟨rfl, fun r h => ?_, rfl, fun r h => ?_, rfl, fun r h => ?_⟩
  all_goals cases h

end Ligo.CompilerProgram
