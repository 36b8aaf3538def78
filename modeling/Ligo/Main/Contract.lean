import Ligo.Compiler.Contract
import Ligo.Simplify.Pascaligo
import Ligo.Transpiler.Programs

/-!
# Contracts

`compileContractFile` takes a parsed file and the name of its entry point to a contract, as it
is printed: without annotations. The type of the entry point is checked by `getEntryPoint`,
which only the functions that compile parameters and storages call.

A file whose declarations are vetted and supported, with an entry point of a proper type, has
a contract that the protocol accepts, and no sequence of calls of it gets stuck
(`compileContractFile_safe`).
-/

namespace Ligo.Main.Contract

open AstTyped
open CompilerProgram (WellTyped)
open Michelson (Call CallSafe Checked Grow HasTy Node execute parseScript strip)
open Transpiler (FirstDeclaration SupportedEntry emptyContext translateType)
open Typer (TypedProgram VettedProgram)
open Fuel (bind_eq_ok map₂_eq_ok)
open Outcome (ok_bind)

/-! ### Entry points -/

def assertEntryPointDefined (program : AstSimplified.Program) (entryPoint : String) :
    Result Unit :=
  let aux : AstSimplified.Declaration → Bool
    | .declarationType .. => false
    | .declarationConstant name _ _ => name == entryPoint
  traceStrong "no entry-point with given name" (assertTrue (program.any aux))

/-- The types of the parameter and of the storage. -/
def getEntryPointType (t : TypeValue) : Result (TypeValue × TypeValue) := do
  let (arg, result) ← traceStrong "entry-point doesn't have a function type" (getTFunction t)
  let (arg', storageParam) ←
    traceStrong "entry-point doesn't have 2 parameters" (getTPair arg)
  let (ops, storageResult) ← traceStrong "entry-point doesn't have 2 results" (getTPair result)
  traceStrong "entry-point doesn't have a list of operation as first result"
    (assertTListOperation ops)
  traceStrong
    "entry-point doesn't identitcal type (storage) for second parameter and second result"
    (assertTypeValueEq storageParam storageResult)
  return (arg', storageParam)

def getEntryPoint (p : Program) (e : String) : Result (TypeValue × TypeValue) := do
  let declaration ← getDeclarationByName p e
  getEntryPointType declaration.annotatedExpression.typeAnnot

/-! ### Compiling -/

/-- `compile_contract_file`, from the simplified program on. -/
def compileSimplified (ctx : Michelson.Context) (simplified : AstSimplified.Program)
    (entryPoint : String) : Result Node := do
  assertEntryPointDefined simplified entryPoint
  let typed ← trace "typing" (Typer.typeProgram simplified)
  let miniC ← trace "transpiling" (Transpiler.translateEntry typed entryPoint)
  let michelson ← trace "compiling" (CompilerProgram.translateContract ctx miniC)
  return strip michelson

/-- `compile_contract_file`, from the parsed file on. -/
def compileContractFile (ctx : Michelson.Context) (raw : Pascaligo.Raw.Ast)
    (entryPoint : String) : Raising Node := do
  let simplified ← Raising.trace "simplifying" (Simplify.Pascaligo.simplProgram raw)
  Raising.lift (compileSimplified ctx simplified entryPoint)

/-! ### The type of an entry point -/

/-- A pair is a tuple of two components. -/
theorem getTPair_eq_ok {t a b : TypeValue} : getTPair t = .ok (a, b) ↔ t = .tTuple [a, b] := by
  constructor
  · intro h
    unfold getTPair at h
    split at h <;> cases h
    rfl
  · rintro rfl
    rfl

theorem getTFunction_eq_ok {t a b : TypeValue} :
    getTFunction t = .ok (a, b) ↔ t = .tFunction a b := by
  constructor
  · intro h
    unfold getTFunction at h
    split at h <;> cases h
    rfl
  · rintro rfl
    rfl

theorem assertTListOperation_eq_ok {t : TypeValue} :
    assertTListOperation t = .ok () ↔ t = tList tOperation := by
  constructor
  · intro h
    obtain ⟨o, ho, h⟩ := bind_eq_ok.1 h
    unfold getTList at ho
    split at ho <;> cases ho
    change assertTOperation o = .ok () at h
    unfold assertTOperation at h
    split at h <;> cases h
    rfl
  · rintro rfl
    rfl

/-- An entry point takes its parameter with the storage and returns operations with the
storage. -/
theorem getEntryPointType_eq_ok {t param storage : TypeValue} :
    getEntryPointType t = .ok (param, storage) ↔
      t = .tFunction (.tTuple [param, storage]) (.tTuple [tList tOperation, storage]) := by
  constructor
  · intro h
    obtain ⟨⟨arg, result⟩, hfun, h⟩ := bind_eq_ok.1 h
    obtain ⟨⟨arg', storageParam⟩, harg, h⟩ := bind_eq_ok.1 h
    obtain ⟨⟨ops, storageResult⟩, hresult, h⟩ := bind_eq_ok.1 h
    obtain ⟨⟨⟩, ⟨⟩, hops, hstorage, h⟩ := map₂_eq_ok.1 h
    cases h
    obtain rfl := getTFunction_eq_ok.1 (traceStrong_eq_ok.1 hfun)
    obtain rfl := getTPair_eq_ok.1 (traceStrong_eq_ok.1 harg)
    obtain rfl := getTPair_eq_ok.1 (traceStrong_eq_ok.1 hresult)
    obtain rfl := assertTListOperation_eq_ok.1 (traceStrong_eq_ok.1 hops)
    obtain rfl := assertTypeValueEq_iff.1 (traceStrong_eq_ok.1 hstorage)
    rfl
  · rintro rfl
    have hstorage : assertTypeValueEq storage storage = .ok () := assertTypeValueEq_iff.2 rfl
    have hops : assertTListOperation (tList tOperation) = .ok () := rfl
    -- the function and the two pairs are taken apart by computation
    refine bind_eq_ok.2 ⟨_, rfl, bind_eq_ok.2 ⟨_, rfl, bind_eq_ok.2 ⟨_, rfl, ?_⟩⟩⟩
    exact map₂_eq_ok.2
      ⟨(), (), traceStrong_eq_ok.2 hops, traceStrong_eq_ok.2 hstorage, rfl⟩

/-- The type checker returns declarations of the program only. -/
theorem mem_of_typeDeclarations {e : Typer.Environment} {p : AstSimplified.Program}
    {p' : Program} (h : Typer.typeDeclarations e p = .ok p') :
    ∀ d ∈ p', ∃ te expr, AstSimplified.Declaration.declarationConstant d.name te expr ∈ p := by
  induction p generalizing e p' with
  | nil =>
    cases h
    exact fun d hd => absurd hd List.not_mem_nil
  | cons d p ih =>
    obtain ⟨⟨e', d'⟩, hd, h⟩ := bind_eq_ok.1 h
    obtain ⟨rest, hrest, hret⟩ := bind_eq_ok.1 h
    have hmem := fun d' hd' => (ih hrest d' hd').imp fun te h =>
      h.imp fun expr h => List.mem_cons_of_mem d h
    cases d with
    | declarationType name te =>
      obtain ⟨tv, -, hd⟩ := bind_eq_ok.1 hd
      cases hd
      cases hret
      exact hmem
    | declarationConstant name te expr =>
      obtain ⟨tvOpt, -, hd⟩ := bind_eq_ok.1 hd
      obtain ⟨ae, -, hd⟩ := bind_eq_ok.1 hd
      cases hd
      cases hret
      exact List.forall_mem_cons.2 ⟨⟨te, expr, List.mem_cons_self⟩, hmem⟩

/-! ### The contract of a file -/

section Safe

variable {ctx : Michelson.Context} {simplified : AstSimplified.Program} {typed before : Program}
  {name b : String} {i o param storage : TypeValue} {r : AnnotatedExpression}
  {p s : MiniC.TypeValue} {up us : Michelson.Ty}

/-- The entry point of a typed program, in the program. -/
theorem typed_entryPoint (htyped : TypedProgram emptyContext typed)
    (hl : FirstDeclaration typed name before (.mk b i o r))
    (hentry : getEntryPoint typed name = .ok (param, storage)) :
    TypedProgram emptyContext before ∧
      Typer.Typed ((emptyContext.declare before).bind b i) r ∧ r.typeAnnot = o ∧
      i = .tTuple [param, storage] ∧ o = .tTuple [tList tOperation, storage] := by
  obtain ⟨d, after, rfl, hname, hfirst, hlam⟩ := hl
  obtain ⟨hbefore, hd, -⟩ := Typer.TypedProgram.append_iff.1 htyped
  -- the declaration of the entry point is the first one of its name
  have hfind : (before ++ d :: after).find? (fun d => d.name == name) = some d := by
    rw [List.find?_append, List.find?_eq_none.2 fun d' hd' => by simpa using hfirst d' hd',
      Option.none_or, List.find?_cons_of_pos (by simpa using hname)]
  rw [getEntryPoint, getDeclarationByName, hfind] at hentry
  have htype := getEntryPointType_eq_ok.1 hentry
  refine ⟨hbefore, ?_⟩
  generalize d.annotatedExpression = ae at hd hlam htype
  cases hd with
  | lambda hr ho =>
    cases hlam
    cases htype
    exact ⟨hr, ho, rfl, rfl⟩
  | _ => cases hlam

/-- A pair of types. -/
theorem translateType_pair {a b : TypeValue} {α β : MiniC.TypeValue}
    (ha : translateType a = .ok α) (hb : translateType b = .ok β) :
    translateType (.tTuple [a, b]) = .ok (.tPair α β) :=
  map₂_eq_ok.2 ⟨α, β, ha, hb, rfl⟩

/-- The program is compiled to a contract that the protocol accepts. -/
theorem parseScript_compileSimplified (htyped : Typer.typeProgram simplified = .ok typed)
    (hvetted : VettedProgram Typer.Environment.fullEmpty simplified)
    (hl : FirstDeclaration typed name before (.mk b i o r))
    (hs : SupportedEntry ctx before (.mk b i o r))
    (hentry : getEntryPoint typed name = .ok (param, storage))
    (hparam : translateType param = .ok p) (hstorage : translateType storage = .ok s)
    (hp : CompilerProgram.Storable p up) (hus : CompilerProgram.Storable s us) :
    ∃ e contract script, compileSimplified ctx simplified name = .ok contract ∧
      WellTyped ctx [(b, .tPair p s)] e ∧ parseScript ctx contract = some script ∧
      script.argType = up ∧ script.storageType = us := by
  have hdecls := trace_eq_ok.1 htyped
  obtain ⟨hbefore, hbody, hr, rfl, rfl⟩ :=
    typed_entryPoint ((Typer.typedProgram_iff hdecls).2 hvetted) hl hentry
  obtain ⟨e, hminiC, houtput, hwt⟩ := Transpiler.translateEntry_typed hl hbefore hbody hr hs
    (translateType_pair hparam hstorage)
  -- the code of a contract has to end with the operations and the storage
  have hret : e.typeValue = .tPair (.tList (.tBase .operation)) s := by
    have hops : translateType (tList tOperation) = .ok (.tList (.tBase .operation)) := rfl
    exact Except.ok.inj (houtput.symm.trans (translateType_pair hops hstorage))
  obtain ⟨toplevel, script, hcode, hparse, hargType, hstorageType⟩ :=
    CompilerProgram.parseScript_translateContract hs.binder hwt hret hp hus
  -- the passes of the compiler succeed one after the other
  refine ⟨e, strip toplevel, script, ?_, hwt, hparse, hargType, hstorageType⟩
  have hdefined : assertEntryPointDefined simplified name = .ok () := by
    obtain ⟨d, after, rfl, rfl, -⟩ := id hl
    obtain ⟨te, expr, hmem⟩ := mem_of_typeDeclarations hdecls d (by simp)
    refine traceStrong_eq_ok.2 (if_pos (List.any_eq_true.2 ⟨_, hmem, ?_⟩))
    exact beq_self_eq_true d.name
  have hcompiled : trace "compiling" (CompilerProgram.translateContract ctx
      (.mk b (.tPair p s) e.typeValue (Transpiler.ezEReturn e))) = .ok toplevel :=
    trace_eq_ok.2 hcode
  rw [compileSimplified, hdefined, ok_bind, trace_eq_ok.2 htyped, ok_bind, trace_eq_ok.2 hminiC,
    ok_bind, hcompiled]
  rfl

/-- **What the type checker accepts never gets stuck on the chain.** -/
theorem compileContractFile_safe {raw : Pascaligo.Raw.Ast}
    (hsimplified : Simplify.Pascaligo.simplProgram raw = pure simplified)
    (htyped : Typer.typeProgram simplified = .ok typed)
    (hvetted : VettedProgram Typer.Environment.fullEmpty simplified)
    (hl : FirstDeclaration typed name before (.mk b i o r))
    (hs : SupportedEntry ctx before (.mk b i o r))
    (hentry : getEntryPoint typed name = .ok (param, storage))
    (hparam : translateType param = .ok p) (hstorage : translateType storage = .ok s)
    (hp : CompilerProgram.Storable p up) (hus : CompilerProgram.Storable s us) :
    ∃ contract script, compileContractFile ctx raw name = pure contract ∧
      parseScript ctx contract = some script ∧ script.argType = up ∧ script.storageType = us ∧
      ∀ v, HasTy ctx (Checked ctx) us v → ∀ (calls : List Call) (call : Call),
        Grow ctx (calls ++ [call]) →
        CallSafe call.ctx script
          (execute call.ctx call.depth script (calls.foldl (Call.apply script) v) call.arg) := by
  obtain ⟨e, contract, script, hcode, -, hparse, hargType, rfl⟩ :=
    parseScript_compileSimplified htyped hvetted hl hs hentry hparam hstorage hp hus
  refine ⟨contract, script, ?_, hparse, hargType, rfl, fun v hv calls call hgrow => ?_⟩
  · rw [compileContractFile, hsimplified]
    change Raising.lift (compileSimplified ctx simplified name) = _
    rw [hcode]
    rfl
  · exact Michelson.Script.calls_safe (Michelson.typechecks_of_parseScript hparse) hv hgrow

end Safe

/-! ### A contract -/

/-- A function that adds its parameter to the storage. -/
def counterFile : Pascaligo.Raw.Ast :=
  let operations : Pascaligo.Raw.TypeExpr := .tApp "list" ⟨.tAlias "operation", []⟩
  ⟨⟨.lambdaDecl (.funDecl (.mk "main"
    ⟨.paramConst ⟨"p", .tAlias "int"⟩, [.paramConst ⟨"s", .tAlias "int"⟩]⟩
    (.tProd ⟨operations, [.tAlias "int"]⟩) [] ⟨.instr (.single .skip), []⟩
    (.eTuple ⟨.eAnnot .eNil operations, [.eArith .add (.eVar "p") (.eVar "s")]⟩))), []⟩⟩

/-- The contract of a counter: it is compiled and parsed, and calling it is safe. -/
theorem counterFile_safe :
    ∃ contract script, compileContractFile .empty counterFile "main" = pure contract ∧
      parseScript .empty contract = some script ∧ script.argType = .comparable .int ∧
      script.storageType = .comparable .int ∧
      ∀ v, HasTy .empty (Checked .empty) (.comparable .int) v →
        ∀ (calls : List Call) (call : Call), Grow .empty (calls ++ [call]) →
        CallSafe call.ctx script
          (execute call.ctx call.depth script (calls.foldl (Call.apply script) v) call.arg) := by
  refine @compileContractFile_safe .empty _ _ [] "main" "arguments" _
    (.tTuple [tList tOperation, tInt]) tInt tInt _ (.tBase .int) (.tBase .int) _ _ counterFile
    rfl rfl ?vetted ⟨_, [], rfl, rfl, by simp, rfl⟩ ?supported rfl rfl rfl
    ⟨rfl, ⟨_, rfl⟩, rfl⟩ ⟨rfl, ⟨_, rfl⟩, rfl⟩
  case vetted =>
    have hparam : ∀ {e Γ i}, Typer.Vetted e Γ (some tInt)
        (.eAccessor (.eVariable "arguments") [.tuple i]) :=
      .accessor .variable' (by simp)
    refine ⟨.lambda rfl rfl (.letIn hparam rfl (.letIn hparam rfl (.sequence .skip (.tuple ?_)))) rfl,
      fun _ _ => trivial⟩
    refine List.forall_mem_cons.2 ⟨.annotated (.list (by simp)), List.forall_mem_singleton.2 ?_⟩
    refine .constant ?_ fun h => absurd h (by decide)
    exact List.forall_mem_cons.2 ⟨.variable', List.forall_mem_singleton.2 .variable'⟩
  case supported =>
    have hint : Transpiler.Expressible .empty tInt := .intro rfl rfl rfl rfl rfl
    have hpair : Transpiler.Expressible .empty (.tTuple [tInt, tInt]) :=
      .intro rfl rfl rfl rfl rfl
    have hresult : Transpiler.Expressible .empty (.tTuple [tList tOperation, tInt]) :=
      .intro rfl rfl rfl rfl rfl
    refine ⟨by simp, ?_, by decide, by simp⟩
    refine .letIn hresult (by decide)
      (.tupleAccessor hint (.variable' hpair (by decide) rfl rfl)) ?_
    refine .letIn hresult (by decide)
      (.tupleAccessor hint (.variable' hpair (by decide) rfl rfl)) ?_
    refine .sequence hresult (.literal (.intro rfl rfl rfl rfl rfl) trivial)
      (.tuple hresult ?_)
    refine List.forall_mem_cons.2
      ⟨.list (.intro rfl rfl rfl rfl rfl) (by simp), List.forall_mem_singleton.2 ?_⟩
    refine .constant hint ?_ fun h => absurd h (by decide)
    refine List.forall_mem_cons.2 ⟨.variable' hint (by decide) rfl rfl, ?_⟩
    exact List.forall_mem_singleton.2 (.variable' hint (by decide) rfl rfl)

end Ligo.Main.Contract
