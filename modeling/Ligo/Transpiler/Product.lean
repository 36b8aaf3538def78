import Ligo.Compiler.Correctness
import Ligo.Transpiler.Expression
import Ligo.Transpiler.Untranspile

/-!
# The layout of products

Four functions build the pair tree of a tuple or of a record, each for itself: the
translation of the type, the construction of the value, the accessors and the extraction
of the components. `Layout` says what it means that they use the tree `t`, and
`product_layout` that they do, with `t` the append tree of the positions.
-/

namespace Ligo.Transpiler

open AstTyped
open MiniC (Step Env eval evalArguments)
open Michelson (Context Outcome)
open Fuel (bind_eq_ok)
open Outcome (ok_bind)

variable {ι : Type}

/-! ### The pair tree -/

/-- The pair of two expressions. -/
def pairExpression (a b : MiniC.Expression) : MiniC.Expression :=
  .mk (.eConstant "PAIR" [a, b]) (.tPair a.typeValue b.typeValue)

/-- The path leads to the leaf `i`, and the type recorded after each step is the type of
the part that is reached. -/
def LeadsTo (tys : ι → MiniC.TypeValue) :
    AppendTree ι → List (MiniC.TypeValue × Step) → ι → Prop
  | .leaf j, [], i => j = i
  | .node a _ _ _, (ty, .left) :: path, i => ty = a.fold tys .tPair ∧ LeadsTo tys a path i
  | .node _ b _ _, (ty, .right) :: path, i => ty = b.fold tys .tPair ∧ LeadsTo tys b path i
  | _, _, _ => False

/-- Folding a tree of results that succeed. -/
theorem foldNe_map {β : Type} {node : β → β → Result β} {rs : ι → Result β} {g : ι → β}
    {h : β → β → β} (hrs : ∀ i, rs i = .ok (g i)) (hnode : ∀ a b, node a b = .ok (h a b))
    (t : AppendTree ι) : foldNe id node (some (t.map rs)) = .ok (t.fold g h) := by
  rw [foldNe]
  induction t with
  | leaf i => exact hrs i
  | node a b size full iha ihb =>
    rw [AppendTree.map, AppendTree.fold, iha, ihb]
    exact hnode _ _

/-- Walking down the pair of the types records the types of the parts. -/
theorem foldlM_accessStep
    (getPair : MiniC.TypeValue → Result (MiniC.TypeValue × MiniC.TypeValue))
    (hpair : ∀ a b, getPair (.tPair a b) = .ok (a, b)) (tys : ι → MiniC.TypeValue)
    {t : AppendTree ι} {path : List Bool} {i : ι} (h : t.Leads path i)
    (acc : List (MiniC.TypeValue × Step)) :
    ∃ steps, (lrPath path).foldlM (accessStep getPair) (t.fold tys .tPair, acc) =
        .ok (tys i, acc ++ steps) ∧ LeadsTo tys t steps i := by
  induction t generalizing path acc with
  | leaf j =>
    match path, h with
    | [], h =>
      obtain rfl : j = i := h
      refine ⟨[], ?_, rfl⟩
      rw [List.append_nil]
      rfl
    | _ :: _, h => exact h.elim
  | node a b size full iha ihb =>
    -- the path takes one half of the pair, whose type is recorded
    match path, h with
    | false :: path, h =>
      obtain ⟨steps, hsteps, hleads⟩ := iha h (acc ++ [(a.fold tys .tPair, .left)])
      refine ⟨(a.fold tys .tPair, .left) :: steps, ?_, rfl, hleads⟩
      rw [List.append_cons, ← hsteps, lrPath, List.map_cons, List.foldlM_cons, AppendTree.fold,
        accessStep, hpair]
      rfl
    | true :: path, h =>
      obtain ⟨steps, hsteps, hleads⟩ := ihb h (acc ++ [(b.fold tys .tPair, .right)])
      refine ⟨(b.fold tys .tPair, .right) :: steps, ?_, rfl, hleads⟩
      rw [List.append_cons, ← hsteps, lrPath, List.map_cons, List.foldlM_cons, AppendTree.fold,
        accessStep, hpair]
      rfl

/-! ### Evaluation -/

section Eval

variable {ctx : Context} {F : Type} {quote : MiniC.AnonFunction → Option F}
  {apply : F → Michelson.Value F → Outcome F (Michelson.Value F)} {rounds : ℕ}

/-- The arguments of the second part are evaluated first. -/
theorem evalArguments_append {es₁ es₂ : List MiniC.Expression} {ρ ρ' : Env F}
    {vs : List (Michelson.Value F)}
    (h : evalArguments ctx quote apply rounds (es₁ ++ es₂) ρ = .ok (vs, ρ')) :
    ∃ vs₁ vs₂ ρ₁, vs = vs₁ ++ vs₂ ∧
      evalArguments ctx quote apply rounds es₂ ρ = .ok (vs₂, ρ₁) ∧
      evalArguments ctx quote apply rounds es₁ ρ₁ = .ok (vs₁, ρ') := by
  induction es₁ generalizing vs ρ' with
  | nil => exact ⟨[], vs, ρ', rfl, h, rfl⟩
  | cons e es₁ ih =>
    obtain ⟨⟨ws, ρ₂⟩, hws, h⟩ := bind_eq_ok.1 h
    obtain ⟨⟨w, ρ₃⟩, hw, h⟩ := bind_eq_ok.1 h
    cases h
    obtain ⟨vs₁, vs₂, ρ₁, rfl, h₂, h₁⟩ := ih hws
    exact ⟨w :: vs₁, vs₂, ρ₁, rfl, h₂, MiniC.evalArguments_cons h₁ hw⟩

/-- The constructed value has the values of the components at the leaves. -/
theorem eval_fold_pair {es : ι → MiniC.Expression} {vs : ι → Michelson.Value F}
    (t : AppendTree ι) {ρ ρ' : Env F}
    (h : evalArguments ctx quote apply rounds (t.toList.map es) ρ = .ok (t.toList.map vs, ρ')) :
    eval ctx quote apply rounds (t.fold es pairExpression) ρ = .ok (t.fold vs .pair, ρ') := by
  induction t generalizing ρ ρ' with
  | leaf i =>
    obtain ⟨⟨_, _⟩, hnil, h⟩ := bind_eq_ok.1 h
    cases hnil
    obtain ⟨⟨v, ρ₁⟩, hv, h⟩ := bind_eq_ok.1 h
    cases h
    exact hv
  | node a b size full iha ihb =>
    rw [AppendTree.toList, List.map_append, List.map_append] at h
    obtain ⟨vs₁, vs₂, ρ₁, happ, hb, ha⟩ := evalArguments_append h
    have hlen : (a.toList.map vs).length = vs₁.length := by
      rw [CompilerProgram.evalArguments_length ha, List.length_map, List.length_map]
    obtain ⟨hvs₁, hvs₂⟩ := List.append_inj happ hlen
    subst hvs₁ hvs₂
    -- the second half is evaluated first, as the arguments of `PAIR` are
    have hargs : evalArguments ctx quote apply rounds
        [a.fold es pairExpression, b.fold es pairExpression] ρ =
          .ok ([a.fold vs .pair, b.fold vs .pair], ρ') :=
      MiniC.evalArguments_cons (MiniC.evalArguments_singleton (ihb hb)) (iha ha)
    exact MiniC.eval_eConstant hargs rfl

/-- The accessor along a path that leads to a component reads it. -/
theorem eval_accessNode {tys : ι → MiniC.TypeValue} {vs : ι → Michelson.Value F}
    {t : AppendTree ι} {path : List (MiniC.TypeValue × Step)} {i : ι}
    (h : LeadsTo tys t path i) {e : MiniC.Expression} {ρ ρ' : Env F}
    (he : eval ctx quote apply rounds e ρ = .ok (t.fold vs .pair, ρ')) :
    eval ctx quote apply rounds (path.foldl accessNode e) ρ = .ok (vs i, ρ') := by
  induction t generalizing path e with
  | leaf j =>
    match path, h with
    | [], h =>
      obtain rfl : j = i := h
      exact he
    | (_, .left) :: _, h => exact h.elim
    | (_, .right) :: _, h => exact h.elim
  | node a b size full iha ihb =>
    have hargs : evalArguments ctx quote apply rounds [e] ρ =
        .ok ([.pair (a.fold vs .pair) (b.fold vs .pair)], ρ') := MiniC.evalArguments_singleton he
    -- the first step of the path takes one of the two components
    match path, h with
    | (ty, .left) :: path, ⟨_, h⟩ => exact iha h (MiniC.eval_eConstant hargs rfl)
    | (ty, .right) :: path, ⟨_, h⟩ => exact ihb h (MiniC.eval_eConstant hargs rfl)

end Eval

/-! ### Extraction -/

/-- The components of a tuple are read off the tree of pairs from the left to the right. -/
theorem extractTuple_fold {τ : Type} (ts : ι → τ) (ws : ι → MiniC.Value) (t : AppendTree ι) :
    extractTuple (t.map ts) (t.fold ws .dPair) = .ok (t.toList.map fun i => (ws i, ts i)) := by
  induction t with
  | leaf i => rfl
  | node a b size full iha ihb =>
    rw [AppendTree.map, AppendTree.fold, extractTuple, iha, ihb, AppendTree.toList, List.map_append]
    rfl

/-- The fields of a record are read off likewise, with their keys. -/
theorem extractRecord_fold {τ : Type} (keys : ι → String) (ts : ι → τ) (ws : ι → MiniC.Value)
    (t : AppendTree ι) :
    extractRecord (t.map fun i => (keys i, ts i)) (t.fold ws .dPair) =
      .ok (t.toList.map fun i => (keys i, ws i, ts i)) := by
  induction t with
  | leaf i => rfl
  | node a b size full iha ihb =>
    rw [AppendTree.map, AppendTree.fold, extractRecord, iha, ihb, AppendTree.toList,
      List.map_append]
    rfl

/-! ### Agreement -/

/-- All that is done with a product type uses the pair tree `t`. -/
structure Layout (ctx : Context) {n : ℕ} (t : AppendTree (Fin (n + 1)))
    (tys : Fin (n + 1) → MiniC.TypeValue) (type : TypeValue)
    (build : (Fin (n + 1) → AnnotatedExpression) → Expression)
    (access : AnnotatedExpression → Fin (n + 1) → Expression)
    (toLr : Fin (n + 1) → Result (List (MiniC.TypeValue × Step))) {γ : Type}
    (extract : MiniC.Value → Result (List γ)) (entry : Fin (n + 1) → MiniC.Value → γ) : Prop where
  /-- The type is the tree of the types of the components. -/
  type_eq : translateType type = .ok (t.fold tys .tPair)
  /-- The construction is the tree of the components. -/
  build_eq : ∀ es es' ann aenv tv, translateType ann = .ok tv →
    (∀ i, translateAnnotatedExpression (es i) = .ok (es' i)) →
    translateAnnotatedExpression (.mk (build es) ann aenv) = .ok (t.fold es' pairExpression)
  /-- Its value is the tree of the values, which are computed from the last to the first. -/
  eval_build : ∀ {F : Type} (quote : MiniC.AnonFunction → Option F) apply rounds
    (es' : Fin (n + 1) → MiniC.Expression) (vs : Fin (n + 1) → Michelson.Value F) ρ ρ',
    evalArguments ctx quote apply rounds (List.ofFn es') ρ = .ok (List.ofFn vs, ρ') →
    eval ctx quote apply rounds (t.fold es' pairExpression) ρ = .ok (t.fold vs .pair, ρ')
  /-- The path of a component leads to it, through the types of the parts. -/
  toLr_eq : ∀ i, ∃ path, toLr i = .ok path ∧ LeadsTo tys t path i
  /-- The accessor follows that path. -/
  access_eq : ∀ e e' i path ann aenv tv, e.typeAnnot = type → translateType ann = .ok tv →
    translateAnnotatedExpression e = .ok e' → toLr i = .ok path →
    translateAnnotatedExpression (.mk (access e i) ann aenv) = .ok (path.foldl accessNode e')
  /-- Its value is the value of the component. -/
  eval_access : ∀ {F : Type} (quote : MiniC.AnonFunction → Option F) apply rounds
    (vs : Fin (n + 1) → Michelson.Value F) e' i path ρ ρ', toLr i = .ok path →
    eval ctx quote apply rounds e' ρ = .ok (t.fold vs .pair, ρ') →
    eval ctx quote apply rounds (path.foldl accessNode e') ρ = .ok (vs i, ρ')
  /-- The extraction returns the components, each once and in their order. -/
  extract_eq : ∀ ws, extract (t.fold ws .dPair) = .ok (List.ofFn fun i => entry i (ws i))

section Agreement

open AppendTree (overFin)

variable {ctx : Context} {n : ℕ} {ts : Fin (n + 1) → TypeValue}
  {ts' : Fin (n + 1) → MiniC.TypeValue}

/-- The values of the components, whatever the path of an accessor is called. -/
theorem eval_access_of_toLr {toLr : Fin (n + 1) → Result (List (MiniC.TypeValue × Step))}
    (h : ∀ i, ∃ path, toLr i = .ok path ∧ LeadsTo ts' (overFin n) path i) {F : Type}
    (quote : MiniC.AnonFunction → Option F)
    (apply : F → Michelson.Value F → Outcome F (Michelson.Value F)) (rounds : ℕ)
    (vs : Fin (n + 1) → Michelson.Value F) (e' : MiniC.Expression) (i : Fin (n + 1))
    (path : List (MiniC.TypeValue × Step)) (ρ ρ' : Env F) (hpath : toLr i = .ok path)
    (he : eval ctx quote apply rounds e' ρ = .ok ((overFin n).fold vs .pair, ρ')) :
    eval ctx quote apply rounds (path.foldl accessNode e') ρ = .ok (vs i, ρ') := by
  obtain ⟨path', hpath', hleads⟩ := h i
  rw [hpath] at hpath'
  cases hpath'
  exact eval_accessNode hleads he

/-- The tree of pairs that is built evaluates to the tree of pairs of the values. -/
theorem eval_build_overFin {F : Type} (quote : MiniC.AnonFunction → Option F)
    (apply : F → Michelson.Value F → Outcome F (Michelson.Value F)) (rounds : ℕ)
    (es' : Fin (n + 1) → MiniC.Expression) (vs : Fin (n + 1) → Michelson.Value F) (ρ ρ' : Env F)
    (h : evalArguments ctx quote apply rounds (List.ofFn es') ρ = .ok (List.ofFn vs, ρ')) :
    eval ctx quote apply rounds ((overFin n).fold es' pairExpression) ρ =
      .ok ((overFin n).fold vs .pair, ρ') := by
  refine eval_fold_pair (overFin n) ?_
  rw [AppendTree.toList_overFin, ← List.ofFn_eq_map, ← List.ofFn_eq_map]
  exact h

variable (hts : ∀ i, translateType (ts i) = .ok (ts' i))

include hts

/-- A tuple and a record are translated to the tree of pairs over their components. -/
theorem translateType_tTuple :
    translateType (.tTuple (List.ofFn ts)) = .ok ((overFin n).fold ts' .tPair) := by
  rw [translateType, translateTypes_eq, List.map_ofFn, AppendTree.ofList_ofFn]
  exact foldNe_map hts (fun _ _ => rfl) _

theorem translateType_tRecord (keys : Fin (n + 1) → String) :
    translateType (.tRecord (List.ofFn fun i => (keys i, ts i))) =
      .ok ((overFin n).fold ts' .tPair) := by
  rw [translateType, translateFieldTypes_eq, List.map_ofFn, AppendTree.ofList_ofFn]
  exact foldNe_map hts (fun _ _ => rfl) _

/-- The components are translated one by one. -/
theorem bindList_translateTypes :
    bindList (translateTypes (List.ofFn ts)) = .ok (List.ofFn ts') := by
  rw [bindList_eq_ok, translateTypes_eq, List.map_ofFn, List.ofFn_eq_map, List.ofFn_eq_map,
    List.forall₂_map_left_iff, List.forall₂_map_right_iff, List.forall₂_same]
  exact fun i _ => hts i

theorem translateTypeMap_ofFn (keys : Fin (n + 1) → String) :
    translateTypeMap (List.ofFn fun i => (keys i, ts i)) =
      .ok (List.ofFn fun i => (keys i, ts' i)) := by
  rw [translateTypeMap, bindList_eq_ok, List.map_ofFn, List.ofFn_eq_map, List.ofFn_eq_map,
    List.forall₂_map_left_iff, List.forall₂_map_right_iff, List.forall₂_same]
  intro i _
  rw [Function.comp_apply, hts]
  rfl

omit hts in
/-- The path that is found for a component leads to it. -/
theorem exists_path {α : Type} {f : Fin (n + 1) → α} {p : α → Bool} {i : Fin (n + 1)}
    (hp : ∀ j, p (f j) = true ↔ j = i) :
    ∃ path, ((AppendTree.ofList (List.ofFn f)).bind fun t => t.existsPath p) = some path ∧
      (overFin n).Leads path i := by
  rw [AppendTree.ofList_ofFn, Option.bind_some, AppendTree.existsPath_map]
  have hmem : i ∈ (overFin n).toList := by
    rw [AppendTree.toList_overFin]
    exact List.mem_finRange i
  obtain ⟨path, hpath⟩ := AppendTree.existsPath_isSome (f := p ∘ f) hmem ((hp i).2 rfl)
  obtain ⟨j, hleads, hj⟩ := AppendTree.existsPath_leads hpath
  rw [(hp j).1 hj] at hleads
  exact ⟨path, hpath, hleads⟩

omit hts in
/-- The path to a component of a tuple leads to its leaf in the tree. -/
theorem tupleAccessToLr_eq (i : Fin (n + 1)) :
    ∃ path, tupleAccessToLr ((overFin n).fold ts' .tPair) (List.ofFn ts') i = .ok path ∧
      LeadsTo ts' (overFin n) path i := by
  -- the positions are numbered as the components are
  have hidx : (List.ofFn ts').mapIdx (fun i a => (i, a)) =
      List.ofFn fun i : Fin (n + 1) => (i.val, ts' i) := by
    refine List.ext_getElem (by rw [List.length_mapIdx, List.length_ofFn, List.length_ofFn])
      fun k _ _ => ?_
    rw [List.getElem_mapIdx, List.getElem_ofFn, List.getElem_ofFn]
  -- the positions are distinct, so the path to `i` leads to `i`
  obtain ⟨path, hpath, hleads⟩ := exists_path (f := fun i : Fin (n + 1) => (i.val, ts' i))
    (p := fun x => x.1 == i.val) (i := i) fun j => by simp [Fin.ext_iff]
  obtain ⟨steps, hsteps, hleads'⟩ :=
    foldlM_accessStep (fun ty => traceStrong "expected a pair" (MiniC.getTPair ty))
      (fun _ _ => rfl) ts' hleads []
  refine ⟨steps, ?_, hleads'⟩
  have hsome : traceOption "no leaf with given index" (some path) = .ok path := rfl
  rw [tupleAccessToLr, hidx, hpath, hsome, ok_bind, hsteps]
  rfl

omit hts in
/-- The path to a field leads to its leaf, since no two fields have one key. -/
theorem recordAccessToLr_eq {keys : Fin (n + 1) → String} (hkeys : Function.Injective keys)
    (i : Fin (n + 1)) :
    ∃ path, recordAccessToLr ((overFin n).fold ts' .tPair)
        (List.ofFn fun i => (keys i, ts' i)) (keys i) = .ok path ∧
      LeadsTo ts' (overFin n) path i := by
  obtain ⟨path, hpath, hleads⟩ := exists_path (f := fun i : Fin (n + 1) => (keys i, ts' i))
    (p := fun x => x.1 == keys i) (i := i) fun j => by simp [hkeys.eq_iff]
  obtain ⟨steps, hsteps, hleads'⟩ :=
    foldlM_accessStep MiniC.getTPair (fun _ _ => rfl) ts' hleads []
  refine ⟨steps, ?_, hleads'⟩
  have hsome : traceOption "no leaf with given index" (some path) = .ok path := rfl
  rw [recordAccessToLr, hpath, hsome, ok_bind, hsteps]
  rfl

/-- Everything that is done with tuples follows one tree. -/
theorem tuple_layout :
    Layout ctx (overFin n) ts' (.tTuple (List.ofFn ts)) (fun es => .eTuple (List.ofFn es))
      (fun e i => .eTupleAccessor e i)
      (fun i => tupleAccessToLr ((overFin n).fold ts' .tPair) (List.ofFn ts') i)
      (fun v => do
        let node ← traceOption "empty tuple" (AppendTree.ofList (List.ofFn ts))
        extractTuple node v)
      (fun i w => (w, ts i)) where
  type_eq := translateType_tTuple hts
  build_eq es es' ann aenv tv hann hes := by
    rw [translateAnnotatedExpression, hann]
    change translateExpression (.eTuple (List.ofFn es)) ann aenv tv = _
    rw [translateExpression, translateAll_eq, List.map_ofFn, AppendTree.ofList_ofFn]
    exact foldNe_map hes (fun _ _ => rfl) _
  eval_build := eval_build_overFin
  toLr_eq := tupleAccessToLr_eq
  access_eq e e' i path ann aenv tv htype hann he hpath := by
    rw [translateAnnotatedExpression, hann]
    change translateExpression (.eTupleAccessor e i) ann aenv tv = _
    exact translate_eTupleAccessor htype (translateType_tTuple hts) (bindList_translateTypes hts)
      hpath he
  eval_access := eval_access_of_toLr tupleAccessToLr_eq
  extract_eq ws := by
    rw [AppendTree.ofList_ofFn, List.ofFn_eq_map, ← AppendTree.toList_overFin]
    exact extractTuple_fold ts ws (overFin n)

/-- Everything that is done with records follows the same tree. -/
theorem record_layout {keys : Fin (n + 1) → String} (hkeys : Function.Injective keys) :
    Layout ctx (overFin n) ts' (.tRecord (List.ofFn fun i => (keys i, ts i)))
      (fun es => .eRecord (List.ofFn fun i => (keys i, es i)))
      (fun e i => .eRecordAccessor e (keys i))
      (fun i => recordAccessToLr ((overFin n).fold ts' .tPair)
        (List.ofFn fun i => (keys i, ts' i)) (keys i))
      (fun v => do
        let node ← traceOption "empty record"
          (AppendTree.ofList (List.ofFn fun i => (keys i, ts i)))
        extractRecord node v)
      (fun i w => (keys i, w, ts i)) where
  type_eq := translateType_tRecord hts keys
  build_eq es es' ann aenv tv hann hes := by
    rw [translateAnnotatedExpression, hann]
    change translateExpression (.eRecord (List.ofFn fun i => (keys i, es i))) ann aenv tv = _
    rw [translateExpression, translateFields_eq, List.map_ofFn, AppendTree.ofList_ofFn]
    exact foldNe_map hes (fun _ _ => rfl) _
  eval_build := eval_build_overFin
  toLr_eq := recordAccessToLr_eq hkeys
  access_eq e e' i path ann aenv tv htype hann he hpath := by
    rw [translateAnnotatedExpression, hann]
    change translateExpression (.eRecordAccessor e (keys i)) ann aenv tv = _
    exact translate_eRecordAccessor htype (translateType_tRecord hts keys)
      (translateTypeMap_ofFn hts keys) hpath he
  eval_access := eval_access_of_toLr (recordAccessToLr_eq hkeys)
  extract_eq ws := by
    rw [AppendTree.ofList_ofFn, List.ofFn_eq_map, ← AppendTree.toList_overFin]
    exact extractRecord_fold keys ts ws (overFin n)

end Agreement

/-- Tuples and records of `n + 1` components are laid out on the append tree of their
positions, by the type, the construction, the accessors and the extraction alike. -/
theorem product_layout (ctx : Context) {n : ℕ} {ts : Fin (n + 1) → TypeValue}
    {ts' : Fin (n + 1) → MiniC.TypeValue} (hts : ∀ i, translateType (ts i) = .ok (ts' i))
    {keys : Fin (n + 1) → String} (hkeys : Function.Injective keys) :
    Layout ctx (AppendTree.overFin n) ts' (.tTuple (List.ofFn ts))
        (fun es => .eTuple (List.ofFn es)) (fun e i => .eTupleAccessor e i)
        (fun i => tupleAccessToLr ((AppendTree.overFin n).fold ts' .tPair) (List.ofFn ts') i)
        (fun v => do
          let node ← traceOption "empty tuple" (AppendTree.ofList (List.ofFn ts))
          extractTuple node v)
        (fun i w => (w, ts i)) ∧
      Layout ctx (AppendTree.overFin n) ts' (.tRecord (List.ofFn fun i => (keys i, ts i)))
        (fun es => .eRecord (List.ofFn fun i => (keys i, es i)))
        (fun e i => .eRecordAccessor e (keys i))
        (fun i => recordAccessToLr ((AppendTree.overFin n).fold ts' .tPair)
          (List.ofFn fun i => (keys i, ts' i)) (keys i))
        (fun v => do
          let node ← traceOption "empty record"
            (AppendTree.ofList (List.ofFn fun i => (keys i, ts i)))
          extractRecord node v)
        (fun i w => (keys i, w, ts i)) :=
  ⟨tuple_layout hts, record_layout hts hkeys⟩

/-- The names of three base types. -/
def threeNames : Fin 3 → String
  | 0 => "int"
  | 1 => "nat"
  | 2 => "string"

/-- Their translations. -/
def threeTypes : Fin 3 → MiniC.TypeValue
  | 0 => .tBase .int
  | 1 => .tBase .nat
  | 2 => .tBase .string

/-- Of three components, the first two are paired before the third, and the second one is
read by a `CAR` and a `CDR`. -/
theorem product_layout_three :
    AppendTree.overFin 2 = .node (.node (.leaf 0) (.leaf 1) 1 true) (.leaf 2) 2 false ∧
      ∃ path, tupleAccessToLr ((AppendTree.overFin 2).fold threeTypes .tPair)
          (List.ofFn threeTypes) 1 = .ok path ∧
        LeadsTo threeTypes (AppendTree.overFin 2) path 1 ∧
        path.map Prod.snd = [.left, .right] := by
  have hts : ∀ i : Fin 3, translateType (.tConstant (threeNames i) []) = .ok (threeTypes i)
    | 0 | 1 | 2 => rfl
  have hkeys : Function.Injective threeNames := by
    intro i j h
    revert i j
    decide
  obtain ⟨path, hpath, hleads⟩ := (product_layout Context.empty hts hkeys).1.toLr_eq 1
  refine ⟨by decide, path, hpath, hleads, ?_⟩
  cases hpath
  rfl

end Ligo.Transpiler
