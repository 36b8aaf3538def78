import Ligo.Compiler.Preservation
import Ligo.Michelson.Script

/-!
# Compiled contracts

`translateContract` puts the code of an entry point between the types of its parameter and of
its storage. When the entry point is well typed and returns operations and a storage, the
protocol accepts the contract as it is printed, without annotations and comments
(`parseScript_translateContract`), so no call of it ever gets stuck (`contract_safe`).
-/

namespace Ligo.CompilerProgram

open MiniC Michelson
open Fuel (bind_eq_ok)

variable {ctx : Michelson.Context}

/-- A type of data that can be sent to a contract or kept in its storage: without
operations. -/
def Storable (τ : TypeValue) (u : Michelson.Ty) : Prop :=
  CompilerType.Ty.type_ τ = .ok u ∧ (∃ n, CompilerType.type_ τ = .ok n) ∧ u.allowed false = true

/-- The function of an entry point with the parameter `b`. -/
def entryPoint (b : String) (p s : TypeValue) (e : Expression) : AnonFunction :=
  .mk b (.tPair p s) e.typeValue (.mk (.eEnvironmentReturn e) e.typeValue)

section

variable {b : String} {p s : TypeValue} {up us : Michelson.Ty} {e : Expression}

theorem strip_contract (p s c : Node) :
    strip (contract p s c) = contract (strip p) (strip s) (strip c) := rfl

theorem parseToplevel_contract (p s c : Node) :
    parseToplevel (contract p s c) = some (p, s, c) := rfl

/-- The contract of a well-typed entry point is generated, and the protocol accepts it. -/
theorem parseScript_translateContract (hb : b ≠ Environment.tmpName)
    (he : WellTyped ctx [(b, .tPair p s)] e)
    (hret : e.typeValue = .tPair (.tList (.tBase .operation)) s) (hp : Storable p up)
    (hs : Storable s us) :
    ∃ toplevel script, translateContract ctx (entryPoint b p s e) = .ok toplevel ∧
      parseScript ctx (strip toplevel) = some script ∧ script.argType = up ∧
      script.storageType = us := by
  obtain ⟨hup, ⟨np, hnp⟩, hallowedp⟩ := hp
  obtain ⟨hus, ⟨ns, hns⟩, halloweds⟩ := hs
  obtain ⟨hknown, hpreserves⟩ := holds_of_derivable he
  -- the stacks at both ends of the code, as the script declares them
  have ht : CompilerType.Ty.type_ (.tPair p s) = .ok (.pair up us) := by
    rw [CompilerType.Ty.type_, hup, hus]
    rfl
  have hu : CompilerType.Ty.type_ e.typeValue = .ok (.pair (.list .operation) us) := by
    rw [hret, CompilerType.Ty.type_, hus]
    rfl
  obtain ⟨code, hcode, htypes⟩ := translateQuoteBody_ok hb hpreserves hknown ht hu
  have hentry : translateEntry ctx (entryPoint b p s e) =
      .ok ⟨.pair up us, .pair (.list .operation) us, code⟩ := by
    rw [translateEntry, entryPoint, hcode]
    change (CompilerType.Ty.type_ (.tPair p s) >>= _) = _
    rw [ht]
    change (CompilerType.Ty.type_ e.typeValue >>= _) = _
    rw [hu]
    rfl
  refine ⟨contract np ns code, ⟨up, us, strip code⟩, ?_, ?_, rfl, rfl⟩
  · rw [translateContract, hentry]
    change (CompilerType.type_ p >>= _) = _
    rw [hnp]
    change (CompilerType.type_ s >>= _) = _
    rw [hns]
    rfl
  · have hchecks : Script.Typechecks ctx ⟨up, us, strip code⟩ := by
      change returns _ (typeInstr ctx (strip code) [.pair up us]) = true
      rw [htypes]
      exact beq_self_eq_true _
    -- the types are read back as they were, without the annotations of the closures
    rw [strip_contract, strip_type_ hnp, strip_type_ hns, parseScript, parseToplevel_contract]
    change ((parseTy false np).bind fun argType => (parseTy false ns).bind _) = _
    rw [parseTy_type_ hup hnp hallowedp, parseTy_type_ hus hns halloweds]
    exact if_pos hchecks

/-- **Compiled contracts never get stuck.** Over every sequence of calls from a storage of the
right type, the storage keeps its type, and the next call ends with operations and a storage,
or fails for a reason that no type rules out. -/
theorem contract_safe (hb : b ≠ Environment.tmpName) (he : WellTyped ctx [(b, .tPair p s)] e)
    (hret : e.typeValue = .tPair (.tList (.tBase .operation)) s) (hp : Storable p up)
    (hs : Storable s us) :
    ∃ toplevel script, translateContract ctx (entryPoint b p s e) = .ok toplevel ∧
      parseScript ctx (strip toplevel) = some script ∧ script.argType = up ∧
      script.storageType = us ∧
      ∀ storage, HasTy ctx (Checked ctx) us storage → ∀ (calls : List Call) (call : Call),
        Grow ctx (calls ++ [call]) →
        CallSafe call.ctx script (execute call.ctx call.depth script
          (calls.foldl (Call.apply script) storage) call.arg) := by
  obtain ⟨toplevel, script, hcode, hparse, hargType, rfl⟩ :=
    parseScript_translateContract hb he hret hp hs
  exact ⟨toplevel, script, hcode, hparse, hargType, rfl, fun storage hstorage calls call hgrow =>
    Script.calls_safe (typechecks_of_parseScript hparse) hstorage hgrow⟩

end

/-- The contract that adds its parameter to its storage, whatever calls it has had. -/
theorem adder_safe :
    ∃ toplevel script, translateContract Context.empty (entryPoint "x" (.tBase .int)
        (.tBase .int) (.mk (.eConstant "PAIR" [
          .mk (.eMakeEmptyList (.tBase .operation)) (.tList (.tBase .operation)),
          .mk (.eConstant "ADD" [
            .mk (.eConstant "CAR" [.mk (.eVariable "x") (.tPair (.tBase .int) (.tBase .int))])
              (.tBase .int),
            .mk (.eConstant "CDR" [.mk (.eVariable "x") (.tPair (.tBase .int) (.tBase .int))])
              (.tBase .int)]) (.tBase .int)])
          (.tPair (.tList (.tBase .operation)) (.tBase .int)))) = .ok toplevel ∧
      parseScript Context.empty (strip toplevel) = some script ∧
      script.argType = .comparable .int ∧ script.storageType = .comparable .int ∧
      ∀ storage, HasTy Context.empty (Checked Context.empty) (.comparable .int) storage →
        ∀ (calls : List Call) (call : Call), Grow Context.empty (calls ++ [call]) →
        CallSafe call.ctx script (execute call.ctx call.depth script
          (calls.foldl (Call.apply script) storage) call.arg) := by
  have hint : Known (.tBase .int) := known_base .int
  have hpair : Known (.tPair (.tBase .int) (.tBase .int)) := ⟨⟨_, rfl⟩, _, rfl⟩
  have hops : Known (.tList (.tBase .operation)) := ⟨⟨_, rfl⟩, _, rfl⟩
  -- the parameter and the storage are read from the argument of the entry point
  have hx : WellTyped Context.empty [("x", .tPair (.tBase .int) (.tBase .int))]
      (.mk (.eVariable "x") (.tPair (.tBase .int) (.tBase .int))) :=
    .variable' (by decide) rfl hpair
  have hcar : WellTyped Context.empty [("x", .tPair (.tBase .int) (.tBase .int))]
      (.mk (.eConstant "CAR" [.mk (.eVariable "x") (.tPair (.tBase .int) (.tBase .int))])
        (.tBase .int)) :=
    .constant (List.forall_mem_singleton.2 hx) rfl hint rfl (fits_of_predicates rfl rfl fun _ => rfl)
  have hcdr : WellTyped Context.empty [("x", .tPair (.tBase .int) (.tBase .int))]
      (.mk (.eConstant "CDR" [.mk (.eVariable "x") (.tPair (.tBase .int) (.tBase .int))])
        (.tBase .int)) :=
    .constant (List.forall_mem_singleton.2 hx) rfl hint rfl (fits_of_predicates rfl rfl fun _ => rfl)
  have hadd : WellTyped Context.empty [("x", .tPair (.tBase .int) (.tBase .int))]
      (.mk (.eConstant "ADD" [
        .mk (.eConstant "CAR" [.mk (.eVariable "x") (.tPair (.tBase .int) (.tBase .int))])
          (.tBase .int),
        .mk (.eConstant "CDR" [.mk (.eVariable "x") (.tPair (.tBase .int) (.tBase .int))])
          (.tBase .int)]) (.tBase .int)) :=
    .constant (List.forall_mem_cons.2 ⟨hcar, List.forall_mem_singleton.2 hcdr⟩) rfl hint rfl
      (fits_of_predicates rfl rfl fun _ => rfl)
  -- no operations are returned
  have hnil : WellTyped Context.empty [("x", .tPair (.tBase .int) (.tBase .int))]
      (.mk (.eMakeEmptyList (.tBase .operation)) (.tList (.tBase .operation))) :=
    .makeEmptyList hops rfl rfl fun u hu => by cases hu; rfl
  exact contract_safe (by decide)
    (.constant (List.forall_mem_cons.2 ⟨hnil, List.forall_mem_singleton.2 hadd⟩) rfl
      ⟨⟨_, rfl⟩, _, rfl⟩ rfl (fits_of_predicates rfl rfl fun _ => rfl))
    rfl ⟨rfl, ⟨_, rfl⟩, rfl⟩ ⟨rfl, ⟨_, rfl⟩, rfl⟩

end Ligo.CompilerProgram
