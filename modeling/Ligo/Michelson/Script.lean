import Ligo.Michelson.Safety

/-!
# Scripts on the chain

A script is a parameter type, a storage type and the code of a function from a parameter and
the storage to the operations to emit and the new storage. `parseScript` checks it, and a call
reads its argument and runs the code (`execute`); a call that fails leaves the storage as it
was (`Call.apply`).

The chain changes between two calls: contracts are originated, and each call has its own
sender and amount. What the checker has accepted it accepts in every later context
(`typeInstr_mono`), and values keep their types (`hasTy_mono`). So over every sequence of calls
the storage keeps its type and no call gets stuck (`Script.run_safe`).

The storage is a value here; writing it as a datum and reading it back is left out.
-/

namespace Michelson

/-! ### Scripts -/

/-- `find_fields`: each section at most once, and nothing else. -/
def findFields : Option Node → Option Node → Option Node → List Node →
    Option (Option Node × Option Node × Option Node)
  | p, s, c, [] => some (p, s, c)
  | none, s, c, .prim .kParameter [arg] _ :: rest => findFields (some arg) s c rest
  | p, none, c, .prim .kStorage [arg] _ :: rest => findFields p (some arg) c rest
  | p, s, none, .prim .kCode [arg] _ :: rest => findFields p s (some arg) rest
  | _, _, _, _ => none

/-- `parse_toplevel`. -/
def parseToplevel : Node → Option (Node × Node × Node)
  | .seq fields =>
    match findFields none none none fields with
    | some (some p, some s, some c) => some (p, s, c)
    | _ => none
  | _ => none

/-- A script that has been checked. -/
structure Script where
  argType : Ty
  storageType : Ty
  code : Node

/-- What the code takes. -/
def Script.argTypeFull (script : Script) : Ty := .pair script.argType script.storageType

/-- What the code returns. -/
def Script.retTypeFull (script : Script) : Ty := .pair (.list .operation) script.storageType

/-- The code is that of a function of the types of the script. -/
def Script.Typechecks (ctx : Context) (script : Script) : Prop :=
  returns script.retTypeFull (typeInstr ctx script.code [script.argTypeFull]) = true

instance (ctx : Context) (script : Script) : Decidable (script.Typechecks ctx) :=
  inferInstanceAs (Decidable (_ = true))

variable (ctx : Context)

/-- `parse_script`, without the storage. -/
def parseScript (toplevel : Node) : Option Script := do
  let (argType, storageType, code) ← parseToplevel toplevel
  let argType ← parseTy false argType
  let storageType ← parseTy false storageType
  let script : Script := { argType, storageType, code }
  if script.Typechecks ctx then some script else none

/-! ### Calls -/

/-- `parse_data` on an argument, with the functions in it. -/
def parseData (t : Ty) (d : Node) : Option (Value Node) :=
  if typeBodies ctx t d then readData ctx t d else none

/-- Why a call has no effect. -/
inductive CallError where
  | badParameter
  | runtime (stop : Stop Node)
  | badResult

/-- `execute`: the operations and the new storage. -/
def execute (d : ℕ) (script : Script) (storage : Value Node) (arg : Node) :
    Except CallError (Value Node × Value Node) :=
  match parseData ctx script.argType arg with
  | none => .error .badParameter
  | some arg =>
    match run ctx d script.code [.pair arg storage] with
    | .ok [.pair ops storage'] => .ok (ops, storage')
    | .ok _ => .error .badResult
    | .error stop => .error (.runtime stop)

/-- A call: what it sees of the chain, the depth that its gas allows, and its argument. -/
structure Call where
  ctx : Context
  depth : ℕ
  arg : Node

/-- The storage after a call; a call that fails has no effect. -/
def Call.apply (script : Script) (storage : Value Node) (call : Call) : Value Node :=
  match execute call.ctx call.depth script storage call.arg with
  | .ok (_, storage') => storage'
  | .error _ => storage

/-! ### A growing chain -/

/-- What `ctx` knows of the contracts, `ctx'` knows as well, and the limit on the size of
types does not shrink. -/
structure Context.Grows (ctx ctx' : Context) : Prop where
  contractTy : ∀ {a t}, ctx.contractTy a = some t → ctx'.contractTy a = some t
  ofB58check : ctx'.ofB58check = ctx.ofB58check
  ofBytes : ctx'.ofBytes = ctx.ofBytes
  admits : ∀ {t}, ctx.admits t = true → ctx'.admits t = true

/-- A chain grows into itself. -/
theorem Context.Grows.refl (ctx : Context) : ctx.Grows ctx := ⟨id, rfl, rfl, id⟩

variable {ctx} {ctx' : Context} (hctx : ctx.Grows ctx')

include hctx

/-- Contracts stay where they are as the chain grows, so what is read or checked on one chain is
read and checked on a grown one. -/
theorem readContract_mono {t : Ty} {a : Address} {v : Value Node}
    (h : readContract ctx t a = some v) : readContract ctx' t a = some v := by
  unfold readContract at h ⊢
  split at h
  · next ha => rw [if_pos (hctx.contractTy ha)]; exact h
  · cases h

set_option linter.unusedSectionVars false in
mutual

theorem readData_mono {t : Ty} {d : Node} {v : Value Node} (h : readData ctx t d = some v) :
    readData ctx' t d = some v := by
  unfold readData at h
  split at h
  -- only handles are looked up, and parts are read
  case h_9 => rw [readData, hctx.ofB58check]; exact h
  case h_10 => rw [readData, hctx.ofBytes]; exact h
  case h_11 =>
    obtain ⟨a, ha, h⟩ := Option.bind_eq_some_iff.1 h
    rw [readData, hctx.ofB58check, ha]
    exact readContract_mono hctx h
  case h_12 =>
    obtain ⟨a, ha, h⟩ := Option.bind_eq_some_iff.1 h
    rw [readData, hctx.ofBytes, ha]
    exact readContract_mono hctx h
  case h_13 =>
    obtain ⟨v, hv, h⟩ := Option.bind_eq_some_iff.1 h
    obtain ⟨w, hw, h⟩ := Option.bind_eq_some_iff.1 h
    rw [readData, readData_mono hv, readData_mono hw]
    exact h
  case h_14 | h_15 | h_17 =>
    obtain ⟨v, hv, h⟩ := Option.bind_eq_some_iff.1 h
    rw [readData, readData_mono hv]
    exact h
  case h_19 =>
    obtain ⟨vs, hvs, h⟩ := Option.bind_eq_some_iff.1 h
    rw [readData, readItems_mono hvs]
    exact h
  case h_20 =>
    obtain ⟨entries, hentries, h⟩ := Option.bind_eq_some_iff.1 h
    rw [readData, readEntries_mono hentries]
    exact h
  case h_21 => cases h
  all_goals exact h
termination_by sizeOf d

theorem readItems_mono {t : Ty} {items : List Node} {vs : List (Value Node)}
    (h : readItems ctx t items = some vs) : readItems ctx' t items = some vs := by
  cases items with
  | nil => exact h
  | cons d items =>
    obtain ⟨v, hv, h⟩ := Option.bind_eq_some_iff.1 h
    obtain ⟨vs', hvs, h⟩ := Option.bind_eq_some_iff.1 h
    rw [readItems, readData_mono hv, readItems_mono hvs]
    exact h
termination_by sizeOf items

theorem readEntries_mono {k : ComparableTy} {t : Ty} {items : List Node}
    {entries : List (Atom × Value Node)} (h : readEntries ctx k t items = some entries) :
    readEntries ctx' k t items = some entries := by
  unfold readEntries at h
  split at h
  · exact h
  · split at h
    · next hkey =>
      obtain ⟨v, hv, h⟩ := Option.bind_eq_some_iff.1 h
      obtain ⟨rest, hrest, h⟩ := Option.bind_eq_some_iff.1 h
      rw [readEntries, readData_mono hkey]
      simp only [readData_mono hv, readEntries_mono hrest]
      exact h
    · cases h
  · cases h
termination_by sizeOf items

end

omit hctx in
/-- A check that succeeds, whatever it finds, succeeds later. -/
theorem returns_mono {t : Ty} {o o' : Option Judgement} (ho : ∀ j, o = some j → o' = some j)
    (h : returns t o = true) : returns t o' = true := by
  obtain ⟨j, rfl, -⟩ := exists_of_returns h
  rw [ho j rfl]
  exact h

/-- The limit on the size of types is a constant of the protocol. -/
theorem grow_mono {t : Ty} {s : StackTy} {j : Judgement} (h : grow ctx t s = some j) :
    grow ctx' t s = some j := by
  obtain ⟨hadmits, hret⟩ := grow_eq_some.1 h
  rw [grow_of_admits (hctx.admits hadmits), hret]

/-- The instructions without arguments only look at the limit. -/
theorem typeSimple_mono {p : Prim} {s : StackTy} {j : Judgement}
    (h : typeSimple ctx p s = some j) : typeSimple ctx' p s = some j := by
  unfold typeSimple at h
  split at h
  case h_4 | h_5 | h_6 => exact grow_mono hctx h
  case h_9 | h_27 | h_34 =>
    split at h
    · next heq =>
      rw [typeSimple, if_pos heq]
      exact grow_mono hctx h
    · cases h
  all_goals first | exact h | cases h

set_option linter.unusedSectionVars false in
mutual

/-- What the checker accepts it accepts later, with the same result. -/
theorem typeInstr_mono {i : Node} {s : StackTy} {j : Judgement}
    (h : typeInstr ctx i s = some j) : typeInstr ctx' i s = some j := by
  unfold typeInstr at h
  -- the instructions with code or data in them ask for their parts, the others for the limit
  split at h
  case h_1 => exact typeSeq_mono h
  case h_2 =>
    obtain ⟨t, ht, h⟩ := Option.bind_eq_some_iff.1 h
    split at h
    · next hdata =>
      obtain ⟨hsome, hbodies⟩ := Bool.and_eq_true_iff.1 hdata
      obtain ⟨v, hv⟩ := Option.isSome_iff_exists.1 hsome
      rw [typeInstr, ht, Option.bind_eq_bind, Option.bind_some, readData_mono hctx hv,
        typeBodies_mono hbodies]
      exact grow_mono hctx h
    · cases h
  case h_3 | h_4 =>
    obtain ⟨t, ht, h⟩ := Option.bind_eq_some_iff.1 h
    rw [typeInstr, ht]
    exact grow_mono hctx h
  case h_5 =>
    obtain ⟨k, hk, h⟩ := Option.bind_eq_some_iff.1 h
    obtain ⟨t, ht, h⟩ := Option.bind_eq_some_iff.1 h
    rw [typeInstr, hk, ht]
    exact grow_mono hctx h
  case h_8 =>
    obtain ⟨t, ht, h⟩ := Option.bind_eq_some_iff.1 h
    rw [typeInstr, ht]
    exact grow_mono hctx h
  case h_9 =>
    split at h
    · next hbody =>
      rw [typeInstr, typeSeq_mono hbody]
      exact h
    · cases h
  case h_10 | h_11 | h_12 =>
    obtain ⟨j₁, h₁, h⟩ := Option.bind_eq_some_iff.1 h
    obtain ⟨j₂, h₂, h⟩ := Option.bind_eq_some_iff.1 h
    rw [typeInstr, typeSeq_mono h₁, typeSeq_mono h₂]
    exact h
  case h_13 =>
    split at h
    · next hbody =>
      rw [typeInstr, typeSeq_mono hbody]
      exact h
    · next hbody =>
      rw [typeInstr, typeSeq_mono hbody]
      exact h
    · cases h
  case h_14 =>
    rw [typeInstr]
    exact typeSimple_mono hctx h
  case h_15 => cases h
  all_goals exact h
termination_by sizeOf i

/-- Code that is accepted stays accepted. -/
theorem typeSeq_mono {code : List Node} {s : StackTy} {j : Judgement}
    (h : typeSeq ctx code s = some j) : typeSeq ctx' code s = some j := by
  unfold typeSeq at h
  split at h
  · exact h
  · exact typeInstr_mono h
  · split at h
    · next heq =>
      rw [typeSeq, typeInstr_mono heq]
      · exact typeSeq_mono h
      · assumption
    · cases h
termination_by sizeOf code

theorem typeBodies_mono {t : Ty} {d : Node} (h : typeBodies ctx t d = true) :
    typeBodies ctx' t d = true := by
  unfold typeBodies at h
  split at h
  case h_1 =>
    obtain ⟨ha, hb⟩ := Bool.and_eq_true_iff.1 h
    exact Bool.and_eq_true_iff.2 ⟨typeBodies_mono ha, typeBodies_mono hb⟩
  case h_2 | h_3 | h_4 =>
    have hpart := typeBodies_mono h
    exact hpart
  case h_5 => exact returns_mono (fun j hj => typeSeq_mono hj) h
  case h_6 => exact typeBodiesAll_mono h
  case h_7 => exact typeBodiesEntries_mono h
  case h_8 =>
    rw [typeBodies]
    all_goals assumption
termination_by sizeOf d

theorem typeBodiesAll_mono {t : Ty} {items : List Node} (h : typeBodiesAll ctx t items = true) :
    typeBodiesAll ctx' t items = true := by
  cases items with
  | nil => exact h
  | cons d items =>
    obtain ⟨hd, hs⟩ := Bool.and_eq_true_iff.1 h
    exact Bool.and_eq_true_iff.2 ⟨typeBodies_mono hd, typeBodiesAll_mono hs⟩
termination_by sizeOf items

theorem typeBodiesEntries_mono {t : Ty} {items : List Node}
    (h : typeBodiesEntries ctx t items = true) : typeBodiesEntries ctx' t items = true := by
  unfold typeBodiesEntries at h
  split at h
  · exact h
  · obtain ⟨hb, hs⟩ := Bool.and_eq_true_iff.1 h
    exact Bool.and_eq_true_iff.2 ⟨typeBodies_mono hb, typeBodiesEntries_mono hs⟩
  · rw [typeBodiesEntries]
    · exact typeBodiesEntries_mono h
    · assumption
termination_by sizeOf items

end

/-- A checked function stays checked. -/
theorem checked_mono {f : Node} {a b : Ty} (h : Checked ctx f a b) : Checked ctx' f a b := by
  obtain ⟨code, rfl, hcode⟩ := h
  exact ⟨code, rfl, returns_mono (fun j hj => typeSeq_mono hctx hj) hcode⟩

/-- A value keeps its type. -/
theorem hasTy_mono {t : Ty} {v : Value Node} (h : HasTy ctx (Checked ctx) t v) :
    HasTy ctx' (Checked ctx') t v := by
  induction t generalizing v with
  | unit | comparable | operation => exact h
  | contract t =>
    obtain ⟨a, rfl, ha⟩ := h
    exact ⟨a, rfl, hctx.contractTy ha⟩
  | pair s t ihs iht =>
    obtain ⟨x, y, rfl, hx, hy⟩ := h
    exact hasTy_pair.2 ⟨ihs hx, iht hy⟩
  | or s t ihs iht =>
    rcases h with ⟨x, rfl, hx⟩ | ⟨y, rfl, hy⟩
    · exact Or.inl ⟨x, rfl, ihs hx⟩
    · exact Or.inr ⟨y, rfl, iht hy⟩
  | lambda a b =>
    obtain ⟨f, rfl, hf⟩ := h
    exact ⟨f, rfl, checked_mono hctx hf⟩
  | option t ih =>
    rcases h with rfl | ⟨x, rfl, hx⟩
    · exact Or.inl rfl
    · exact Or.inr ⟨x, rfl, ih hx⟩
  | list t ih =>
    obtain ⟨vs, rfl, hvs⟩ := h
    exact ⟨vs, rfl, fun x hx => ih (hvs x hx)⟩
  | map k t ih =>
    obtain ⟨m, rfl, hsorted, hm⟩ := h
    exact ⟨m, rfl, hsorted, fun x hx => ⟨(hm x hx).1, ih (hm x hx).2⟩⟩

/-- A script that is accepted stays accepted. -/
theorem Script.Typechecks.mono {script : Script} (h : script.Typechecks ctx) :
    script.Typechecks ctx' :=
  returns_mono (fun _ hj => typeInstr_mono hctx hj) h

omit hctx

/-! ### Calls are safe -/

/-- Data that is parsed at a type is a value of it. -/
theorem hasTy_parseData {t : Ty} {d : Node} {v : Value Node} (h : parseData ctx t d = some v) :
    HasTy ctx (Checked ctx) t v := by
  unfold parseData at h
  split at h
  · next hbodies => exact hasTy_readData (fun h => ⟨_, rfl, h⟩) h hbodies
  · cases h

/-- A call returns operations and a storage of the right type, or it fails: because of its
argument, or for one of the reasons that no type rules out. -/
def CallSafe (ctx : Context) (script : Script) :
    Except CallError (Value Node × Value Node) → Prop
  | .ok (ops, storage) => HasTy ctx (Checked ctx) (.list .operation) ops ∧
      HasTy ctx (Checked ctx) script.storageType storage
  | .error .badParameter => True
  | .error (.runtime stop) => stop ≠ .fault .stuck
  | .error .badResult => False

/-- One call of an accepted script. -/
theorem execute_safe (d : ℕ) {script : Script} (hscript : script.Typechecks ctx)
    {storage : Value Node} (hstorage : HasTy ctx (Checked ctx) script.storageType storage)
    (arg : Node) : CallSafe ctx script (execute ctx d script storage arg) := by
  unfold execute
  split
  · exact trivial
  · next v hv =>
    have hst : StackHasTy ctx (Checked ctx) [script.argTypeFull] [.pair v storage] :=
      .cons (hasTy_pair.2 ⟨hasTy_parseData hv, hstorage⟩) .nil
    obtain ⟨j, hj, hret⟩ := exists_of_returns hscript
    have hrun : Safe (StackHasTy ctx (Checked ctx) [script.retTypeFull])
        (run ctx d script.code [.pair v storage]) := by
      refine (step_safe (fun h => ⟨_, rfl, h⟩) (call_safe d) hj hst).mono ?_
      rintro st ⟨ts, rfl, hst⟩
      rw [← hret ts rfl]
      exact hst
    split
    · next heq =>
      obtain _ | ⟨hv, -⟩ := hrun.of_eq_ok heq
      exact hasTy_pair.1 hv
    · next hne heq =>
      obtain _ | ⟨⟨ops, storage', rfl, -⟩, _ | _⟩ := hrun.of_eq_ok heq
      exact hne ops storage' rfl
    · next heq =>
      rw [heq] at hrun
      exact hrun

/-- A call keeps the type of the storage. -/
theorem Call.apply_hasTy {script : Script} {call : Call} (hscript : script.Typechecks call.ctx)
    {storage : Value Node}
    (hstorage : HasTy call.ctx (Checked call.ctx) script.storageType storage) :
    HasTy call.ctx (Checked call.ctx) script.storageType (call.apply script storage) := by
  have hsafe := execute_safe call.depth hscript hstorage call.arg
  unfold Call.apply
  split
  · next heq =>
    rw [heq] at hsafe
    exact hsafe.2
  · exact hstorage

/-- Each context of the list knows what the ones before it know. -/
abbrev Grow (ctx : Context) (calls : List Call) : Prop :=
  List.IsChain Context.Grows (ctx :: calls.map Call.ctx)

/-- **The life of a contract.** A script that is checked when it is originated keeps the type
of its storage over every sequence of calls, and the next call is safe. -/
theorem Script.calls_safe {script : Script} (hscript : script.Typechecks ctx)
    {storage : Value Node} (hstorage : HasTy ctx (Checked ctx) script.storageType storage)
    {calls : List Call} {call : Call} (hgrow : Grow ctx (calls ++ [call])) :
    CallSafe call.ctx script
      (execute call.ctx call.depth script (calls.foldl (Call.apply script) storage) call.arg) := by
  induction calls generalizing ctx storage with
  | nil =>
    have hctx : ctx.Grows call.ctx := (List.isChain_cons_cons.1 hgrow).1
    exact execute_safe call.depth (hscript.mono hctx) (hasTy_mono hctx hstorage) call.arg
  | cons c calls ih =>
    obtain ⟨hctx, hgrow⟩ := List.isChain_cons_cons.1 hgrow
    have hscript' := hscript.mono hctx
    exact ih hscript' (Call.apply_hasTy hscript' (hasTy_mono hctx hstorage)) hgrow

/-- What `parse_script` returns is typed. -/
theorem typechecks_of_parseScript {toplevel : Node} {script : Script}
    (h : parseScript ctx toplevel = some script) : script.Typechecks ctx := by
  obtain ⟨x, -, h⟩ := Option.bind_eq_some_iff.1 h
  obtain ⟨t, -, h⟩ := Option.bind_eq_some_iff.1 h
  obtain ⟨u, -, h⟩ := Option.bind_eq_some_iff.1 h
  dsimp only at h
  split at h <;> cases h
  assumption

/-- What `parse_script` accepts is safe to originate. -/
theorem parseScript_safe {toplevel : Node} {script : Script}
    (h : parseScript ctx toplevel = some script) {storage : Node} {v : Value Node}
    (hv : parseData ctx script.storageType storage = some v) {calls : List Call} {call : Call}
    (hgrow : Grow ctx (calls ++ [call])) :
    CallSafe call.ctx script
      (execute call.ctx call.depth script (calls.foldl (Call.apply script) v) call.arg) :=
  Script.calls_safe (typechecks_of_parseScript h) (hasTy_parseData hv) hgrow

/-- Add the parameter to the storage. -/
def counter : Node :=
  .seq [.prim .kStorage [.prim .tInt [] []] [], .prim .kParameter [.prim .tInt [] []] [],
    .prim .kCode [.seq [.prim .iDup [] [], .prim .iCar [] [],
      .prim .iDip [.seq [.prim .iCdr [] []]] [], .prim .iAdd [] [],
      .prim .iNil [.prim .tOperation [] []] [], .prim .iPair [] []]] []]

/-- Two calls of a counter, one of them with a parameter of another type. -/
theorem counter_safe :
    ∃ script, parseScript Context.empty counter = some script ∧
      CallSafe Context.empty script (execute Context.empty 2 script
        ([⟨Context.empty, 2, .int 3⟩, ⟨Context.empty, 2, .string "three"⟩].foldl
          (Call.apply script) (.int 1)) (.int 4)) := by
  obtain ⟨script, hscript⟩ : ∃ script, parseScript Context.empty counter = some script := ⟨_, rfl⟩
  have hstorage : parseData Context.empty script.storageType (.int 1) = some (.int 1) := by
    cases hscript
    rfl
  have hgrow : Grow Context.empty ([⟨Context.empty, 2, .int 3⟩,
      ⟨Context.empty, 2, .string "three"⟩] ++ [⟨Context.empty, 2, .int 4⟩]) := by
    simp [Grow, Context.Grows.refl]
  exact ⟨script, hscript, parseScript_safe hscript hstorage hgrow⟩

end Michelson
