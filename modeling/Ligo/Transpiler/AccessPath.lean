import Ligo.Compiler.Assignment
import Ligo.Transpiler.Expression
import Ligo.Typer.Expression

/-!
# Access paths

What an access path means (`resolve`): the type of the component that it leads to, and the
steps that lead to this component in the pairs that tuples and records become. The type
checker resolves a path so (`typer_assignPath_iff`), and so do the accessors it builds
(`translate_accesses`). The transpiler resolves the path of an assignment so as well, but it
folds the path from the right, so that it follows it in the opposite order
(`transpiler_assignPath_iff`).

Paths that part in the source part in the pairs (`apart_resolve`).
-/

namespace Ligo.Transpiler

open AstTyped
open CompilerProgram (typeAt)
open MiniC (Step Apart)
open Fuel (bind_eq_ok map₂_eq_ok)
open Outcome (ok_bind)

/-! ### Fields -/

/-- A step of an access path other than a look-up in a map. -/
inductive Field where
  | tuple (index : ℕ)
  | record (property : String)
  deriving DecidableEq

def Field.simplified : Field → AstSimplified.Access
  | tuple index => .tuple index
  | record property => .record property

def Field.typed : Field → Access
  | tuple index => .tuple index
  | record property => .record property

/-- Components of the source are told apart in the typed language. -/
theorem Field.typed_injective : Function.Injective Field.typed := by
  intro f g h
  cases f <;> cases g <;> cases h <;> rfl

/-- The component with the key `k` of a product: its type and the steps to it. -/
def leafOf {κ : Type} [BEq κ] (k : κ) (l : List (κ × TypeValue)) :
    Option (TypeValue × List Step) := do
  let x ← l.find? fun x => x.1 == k
  let path ← (AppendTree.ofList l).bind fun t => t.existsPath fun x => x.1 == k
  return (x.2, lrPath path)

/-- The component of a type that a field names. -/
def componentOf : TypeValue → Field → Option (TypeValue × List Step)
  | .tTuple tys, .tuple index => leafOf index (tys.mapIdx fun i t => (i, t))
  | .tRecord m, .record property => leafOf property m
  | _, _ => none

/-- The component of a type that a path leads to. -/
def resolve (t : TypeValue) : List Field → Option (TypeValue × List Step)
  | [] => some (t, [])
  | f :: path => do
    let (t', steps) ← componentOf t f
    let (u, steps') ← resolve t' path
    return (u, steps ++ steps')

/-! ### Leaves -/

/-- The path that is found leads to the first leaf that is looked for. -/
theorem existsPath_find {α : Type} {p : α → Bool} {t : AppendTree α} {path : List Bool}
    (h : t.existsPath p = some path) : ∃ x, t.Leads path x ∧ t.toList.find? p = some x := by
  induction t generalizing path with
  | leaf y =>
    rw [AppendTree.existsPath] at h
    -- a leaf is looked at once, and found exactly at the empty path
    split at h
    · rename_i hp
      cases h
      exact ⟨y, rfl, by rw [AppendTree.toList, List.find?_singleton, if_pos hp]⟩
    · cases h
  | node a b size full iha ihb =>
    rw [AppendTree.existsPath] at h
    rw [AppendTree.toList, List.find?_append]
    -- `exists_path` tries the left half first, as `find?` tries the front of the list
    cases ha : a.existsPath p with
    | some path' =>
      rw [ha] at h
      cases h
      obtain ⟨x, hleads, hfind⟩ := iha ha
      exact ⟨x, hleads, by rw [hfind, Option.some_or]⟩
    | none =>
      -- it goes on to the right half only when nothing on the left satisfies `p`
      have hnone : a.toList.find? p = none := by
        rw [List.find?_eq_none]
        intro x hx hp
        obtain ⟨path', hpath'⟩ := AppendTree.existsPath_isSome hx hp
        rw [ha] at hpath'
        cases hpath'
      rw [ha] at h
      cases hb : b.existsPath p with
      | some path' =>
        rw [hb] at h
        cases h
        obtain ⟨x, hleads, hfind⟩ := ihb hb
        exact ⟨x, hleads, by rw [hnone, hfind, Option.none_or]⟩
      | none =>
        rw [hb] at h
        cases h

/-- Different leaves of a tree have paths that part. -/
theorem leads_apart {α : Type} {t : AppendTree α} {path path' : List Bool} {x x' : α}
    (h : t.Leads path x) (h' : t.Leads path' x') (hne : x ≠ x') : Apart path path' := by
  induction t generalizing path path' with
  | leaf y =>
    match path, path', h, h' with
    | [], [], h, h' => exact (hne (h.symm.trans h')).elim
    | _ :: _, _, h, _ => exact h.elim
    | _, _ :: _, _, h' => exact h'.elim
  | node a b size full iha ihb =>
    match path, path', h, h' with
    | [], _, h, _ => exact h.elim
    | _, [], _, h' => exact h'.elim
    | false :: _, false :: _, h, h' => exact MiniC.apart_cons.2 (.inr (iha h h'))
    | true :: _, true :: _, h, h' => exact MiniC.apart_cons.2 (.inr (ihb h h'))
    | false :: _, true :: _, _, _ => exact MiniC.apart_cons.2 (.inl Bool.false_ne_true)
    | true :: _, false :: _, _, _ => exact MiniC.apart_cons.2 (.inl Bool.true_eq_false.mp)

/-- The two directions of a path are two steps. -/
theorem lrPath_injective : Function.Injective fun b : Bool => if b then Step.right else .left := by
  intro b c h
  cases b <;> cases c <;> first | rfl | cases h

section Leaf

variable {κ : Type} [BEq κ] {k k' : κ} {l : List (κ × TypeValue)}

/-- A component that is there is found. -/
theorem leafOf_isSome {x : κ × TypeValue} (h : l.find? (fun x => x.1 == k) = some x) :
    ∃ steps, leafOf k l = some (x.2, steps) := by
  have hne : l ≠ [] := by
    rintro rfl
    cases h
  obtain ⟨t, ht⟩ := AppendTree.ofList_isSome hne
  have hx : x ∈ t.toList := by
    rw [AppendTree.toList_ofList ht]
    exact List.mem_of_find?_eq_some h
  obtain ⟨path, hpath⟩ := AppendTree.existsPath_isSome hx (List.find?_some h)
  refine ⟨lrPath path, ?_⟩
  rw [leafOf, h, ht]
  change (t.existsPath _).bind _ = _
  rw [hpath]
  rfl

/-- What a component is, in the tree of the product. -/
theorem leafOf_spec {ty : TypeValue} {steps : List Step} (h : leafOf k l = some (ty, steps)) :
    ∃ t path x, AppendTree.ofList l = some t ∧ t.existsPath (fun x => x.1 == k) = some path ∧
      t.Leads path x ∧ l.find? (fun x => x.1 == k) = some x ∧ x.2 = ty ∧
      steps = lrPath path := by
  obtain ⟨x, hx, h⟩ := Option.bind_eq_some_iff.1 h
  obtain ⟨path, hpath, h⟩ := Option.bind_eq_some_iff.1 h
  obtain ⟨t, ht, hpath⟩ := Option.bind_eq_some_iff.1 hpath
  obtain ⟨x', hleads, hfind⟩ := existsPath_find hpath
  rw [AppendTree.toList_ofList ht, hx] at hfind
  cases hfind
  cases h
  exact ⟨t, path, x, ht, hpath, hleads, hx, rfl, rfl⟩

/-- Components with different keys lie apart. -/
theorem leafOf_apart [LawfulBEq κ] {ty ty' : TypeValue} {steps steps' : List Step}
    (h : leafOf k l = some (ty, steps)) (h' : leafOf k' l = some (ty', steps')) (hne : k ≠ k') :
    Apart steps steps' := by
  obtain ⟨t, path, x, ht, -, hleads, hx, -, rfl⟩ := leafOf_spec h
  obtain ⟨_, path', x', ht', -, hleads', hx', -, rfl⟩ := leafOf_spec h'
  cases ht.symm.trans ht'
  have hk : x.1 = k := by simpa using List.find?_some hx
  have hk' : x'.1 = k' := by simpa using List.find?_some hx'
  have hapart : Apart path path' := by
    refine leads_apart hleads hleads' ?_
    rintro rfl
    exact hne (hk.symm.trans hk')
  exact (MiniC.apart_map lrPath_injective).2 hapart

end Leaf

/-! ### The type checker -/

/-- Looking up is finding the first entry with the key. -/
theorem lookup_eq_find {k : String} {m : List (String × TypeValue)} :
    m.lookup k = (m.find? fun x => x.1 == k).map Prod.snd := by
  induction m with
  | nil => rfl
  | cons x m ih =>
    obtain ⟨k', t⟩ := x
    by_cases h : k = k'
    · subst h
      simp
    · have hb : (k == k') = false := by simpa using h
      have hb' : (k' == k) = false := by simpa using Ne.symm h
      rw [List.lookup_cons, hb, List.find?_cons, hb']
      exact ih

/-- Components of a tuple are found by their rank. -/
theorem find_mapIdx (tys : List TypeValue) (i : ℕ) :
    ((tys.mapIdx fun i t => (i, t)).find? fun x => x.1 == i) =
      tys[i]?.map fun t => (i, t) := by
  cases h : tys[i]? with
  | none =>
    -- the first components are the positions, so `i` is one of them only in a long enough list
    rw [Option.map_none, List.find?_eq_none]
    rintro ⟨j, t⟩ hx hj
    rw [beq_iff_eq] at hj
    subst hj
    obtain ⟨j', hj', hx⟩ := List.mem_mapIdx.1 hx
    cases hx
    rw [List.getElem?_eq_getElem hj'] at h
    cases h
  | some t =>
    obtain ⟨hi, ht⟩ := List.getElem?_eq_some_iff.1 h
    -- the entry at `i` is the first one with the position `i`
    rw [Option.map_some, List.find?_eq_some_iff_getElem]
    refine ⟨by simp, i, by simpa using hi, by simpa using ht, fun j hj => ?_⟩
    have hne : j ≠ i := hj.ne
    simpa using hne

/-- The type of a component is the one that the type checker looks up. -/
theorem componentOf_fst (T : TypeValue) (f : Field) :
    (componentOf T f).map Prod.fst =
      match T, f with
      | .tTuple tys, .tuple index => tys[index]?
      | .tRecord m, .record property => m.lookup property
      | _, _ => none := by
  -- both lookups find the first entry with the key, and the path to its leaf exists
  have hleaf : ∀ {κ : Type} [BEq κ] (k : κ) (l : List (κ × TypeValue)),
      (leafOf k l).map Prod.fst = (l.find? fun x => x.1 == k).map Prod.snd := by
    intro κ _ k l
    cases h : l.find? fun x => x.1 == k with
    | none =>
      rw [leafOf, h]
      rfl
    | some x =>
      obtain ⟨steps, hsteps⟩ := leafOf_isSome h
      rw [hsteps]
      rfl
  -- components exist only where the type and the field are of one kind
  cases T <;> cases f
  case tTuple.tuple tys index =>
    change (leafOf index _).map Prod.fst = tys[index]?
    rw [hleaf, find_mapIdx, Option.map_map]
    cases tys[index]? <;> rfl
  case tRecord.record m property =>
    change (leafOf property m).map Prod.fst = m.lookup property
    rw [hleaf, lookup_eq_find]
  all_goals rfl

/-- A component has a type and steps that lead to it. -/
theorem componentOf_iff {T t : TypeValue} {f : Field} :
    (∃ steps, componentOf T f = some (t, steps)) ↔
      (componentOf T f).map Prod.fst = some t := by
  cases h : componentOf T f with
  | none => simp
  | some x =>
    obtain ⟨t', steps⟩ := x
    simp

/-- One step of the type checker. -/
theorem typer_assignStep_iff {T t : TypeValue} {acc acc' : List Access} {f : Field} :
    Typer.assignStep (T, acc) f.simplified = .ok (t, acc') ↔
      (∃ steps, componentOf T f = some (t, steps)) ∧ acc' = acc ++ [f.typed] := by
  rw [componentOf_iff, componentOf_fst]
  -- the type that is stepped into decides: other types than products are errors
  cases f with
  | tuple index =>
    cases T with
    | tTuple tys =>
      change (traceOption "tuple too small" tys[index]? >>= fun tv' =>
        Except.ok (tv', acc ++ [Access.tuple index])) = _ ↔ tys[index]? = some t ∧ _
      cases tys[index]? with
      | none => simp [traceOption, bind, Except.bind]
      | some t' => simp [traceOption, bind, Except.bind, Field.typed, eq_comm]
    | _ => simp [Typer.assignStep, Field.simplified, getTTuple, simpleFail, bind, Except.bind]
  | record property =>
    cases T with
    | tRecord m =>
      change (traceOption "tuple too small" (m.lookup property) >>= fun tv' =>
        Except.ok (tv', acc ++ [Access.record property])) = _ ↔ m.lookup property = some t ∧ _
      cases m.lookup property with
      | none => simp [traceOption, bind, Except.bind]
      | some t' => simp [traceOption, bind, Except.bind, Field.typed, eq_comm]
    | _ => simp [Typer.assignStep, Field.simplified, getTRecord, simpleFail, bind, Except.bind]

/-- The type checker resolves the path of an assignment from the left. -/
theorem typer_assignPath_iff {T t : TypeValue} {fs : List Field} {path : List Access} :
    Typer.assignPath T (fs.map Field.simplified) = .ok (t, path) ↔
      (∃ steps, resolve T fs = some (t, steps)) ∧ path = fs.map Field.typed := by
  -- the fold collects the path in an accumulator, which varies
  have hgen : ∀ acc, (fs.map Field.simplified).foldlM Typer.assignStep (T, acc) =
      .ok (t, path) ↔ (∃ steps, resolve T fs = some (t, steps)) ∧
        path = acc ++ fs.map Field.typed := by
    induction fs generalizing T with
    | nil =>
      intro acc
      simp [resolve, pure, Except.pure, eq_comm]
    | cons f fs ih =>
      intro acc
      rw [List.map_cons, List.foldlM_cons]
      constructor
      · intro h
        -- one step of the fold is one component
        obtain ⟨⟨T₁, acc₁⟩, hstep, h⟩ := bind_eq_ok.1 h
        obtain ⟨⟨steps₁, hsteps₁⟩, rfl⟩ := typer_assignStep_iff.1 hstep
        obtain ⟨⟨steps₂, hsteps₂⟩, rfl⟩ := (ih _).1 h
        refine ⟨⟨steps₁ ++ steps₂, ?_⟩, by simp⟩
        rw [resolve, hsteps₁]
        change (resolve T₁ fs).bind _ = _
        rw [hsteps₂]
        rfl
      · rintro ⟨⟨steps, h⟩, rfl⟩
        obtain ⟨⟨T₁, steps₁⟩, hf, h⟩ := Option.bind_eq_some_iff.1 h
        obtain ⟨⟨_, steps₂⟩, hfs, h⟩ := Option.bind_eq_some_iff.1 h
        cases h
        -- the other way round, the components are the steps of the fold
        refine bind_eq_ok.2 ⟨_, typer_assignStep_iff.2 ⟨⟨steps₁, hf⟩, rfl⟩, ?_⟩
        exact (ih _).2 ⟨⟨steps₂, hfs⟩, by simp⟩
  rw [Typer.assignPath, hgen, List.nil_append]

/-! ### Types along a path -/

/-- The type at the end of two paths, one after the other. -/
theorem typeAt_append (p q : List Step) (τ : MiniC.TypeValue) :
    typeAt (p ++ q) τ = (typeAt p τ).bind (typeAt q) := by
  induction p generalizing τ with
  | nil => rfl
  | cons step p ih =>
    cases step <;> cases τ
    case left.tPair a b => exact ih a
    case right.tPair a b => exact ih b
    all_goals rfl

/-- The Michelson type at a path. -/
theorem tyAt_of_typeAt {p : List Step} {σ τ : MiniC.TypeValue} {t : Michelson.Ty}
    (h : typeAt p σ = some τ) (ht : CompilerType.Ty.type_ σ = .ok t) :
    ∃ u, CompilerType.Ty.type_ τ = .ok u ∧ MiniC.tyAt p t = some u := by
  induction p generalizing σ t with
  | nil =>
    cases h
    exact ⟨t, ht, rfl⟩
  | cons step p ih =>
    cases step <;> cases σ
    case left.tPair a b =>
      obtain ⟨ta, tb, hta, htb, rfl⟩ := map₂_eq_ok.1 ht
      exact ih h hta
    case right.tPair a b =>
      obtain ⟨ta, tb, hta, htb, rfl⟩ := map₂_eq_ok.1 ht
      exact ih h htb
    all_goals cases h

/-- The leaves of a tree of pairs. -/
theorem typeAt_leads {α : Type} {g : α → Result MiniC.TypeValue} {t : AppendTree α}
    {τ : MiniC.TypeValue} {path : List Bool} {x : α}
    (h : foldNe id (fun a b => .ok (.tPair a b)) (some (t.map g)) = .ok τ)
    (hleads : t.Leads path x) : ∃ τ', g x = .ok τ' ∧ typeAt (lrPath path) τ = some τ' := by
  rw [foldNe] at h
  induction t generalizing τ path with
  | leaf y =>
    match path, hleads with
    | [], hleads =>
      cases hleads
      exact ⟨τ, h, rfl⟩
  | node a b size full iha ihb =>
    obtain ⟨τa, τb, ha, hb, rfl⟩ := map₂_eq_ok.1 h
    -- the tree and the path decide together which component is read
    match path, hleads with
    | false :: path, hleads =>
      have hpart : ∃ τ', g x = .ok τ' ∧ typeAt (lrPath path) τa = some τ' := iha ha hleads
      exact hpart
    | true :: path, hleads =>
      have hpart : ∃ τ', g x = .ok τ' ∧ typeAt (lrPath path) τb = some τ' := ihb hb hleads
      exact hpart

/-- The steps to a leaf of the balanced tree lead to its type in the type that is translated. -/
theorem leafOf_translateType {κ : Type} [BEq κ] {k : κ}
    {l : List (κ × TypeValue)} {ty : TypeValue} {steps : List Step} {τ : MiniC.TypeValue}
    (h : leafOf k l = some (ty, steps))
    (hτ : foldNe id (fun a b => .ok (.tPair a b))
      (AppendTree.ofList (l.map fun x => translateType x.2)) = .ok τ) :
    ∃ τ', translateType ty = .ok τ' ∧ typeAt steps τ = some τ' := by
  obtain ⟨t, path, x, ht, -, hleads, -, rfl, rfl⟩ := leafOf_spec h
  rw [AppendTree.ofList_map, ht] at hτ
  exact @typeAt_leads (κ × TypeValue) (fun x => translateType x.2) t _ _ _ hτ hleads

/-- The components of a tuple are translated with their ranks. -/
theorem translateTypes_mapIdx (tys : List TypeValue) :
    translateTypes tys = (tys.mapIdx fun i t => (i, t)).map fun x => translateType x.2 := by
  rw [translateTypes_eq]
  refine List.ext_getElem (by simp) fun i _ _ => ?_
  simp

/-- The component of a type is a part of the pairs that the type becomes. -/
theorem componentOf_translateType {T t : TypeValue} {f : Field} {steps : List Step}
    {τ : MiniC.TypeValue} (h : componentOf T f = some (t, steps)) (hτ : translateType T = .ok τ) :
    ∃ τ', translateType t = .ok τ' ∧ typeAt steps τ = some τ' := by
  cases T <;> cases f
  case tTuple.tuple tys index =>
    rw [translateType, translateTypes_mapIdx] at hτ
    exact leafOf_translateType h hτ
  case tRecord.record m property =>
    rw [translateType, translateFieldTypes_eq] at hτ
    exact leafOf_translateType h hτ
  all_goals cases h

/-- What a path of fields resolves to is found at its steps in the translated type. -/
theorem resolve_translateType {T t : TypeValue} {fs : List Field} {steps : List Step}
    {τ : MiniC.TypeValue} (h : resolve T fs = some (t, steps)) (hτ : translateType T = .ok τ) :
    ∃ τ', translateType t = .ok τ' ∧ typeAt steps τ = some τ' := by
  induction fs generalizing T steps τ with
  | nil =>
    cases h
    exact ⟨τ, hτ, rfl⟩
  | cons f fs ih =>
    obtain ⟨⟨T₁, steps₁⟩, hf, h⟩ := Option.bind_eq_some_iff.1 h
    obtain ⟨⟨_, steps₂⟩, hfs, h⟩ := Option.bind_eq_some_iff.1 h
    cases h
    obtain ⟨τ₁, hτ₁, hat₁⟩ := componentOf_translateType hf hτ
    obtain ⟨τ', hτ', hat⟩ := ih hfs hτ₁
    exact ⟨τ', hτ', by rw [typeAt_append, hat₁, Option.bind_some, hat]⟩

/-- Paths that part lead to parts that lie apart. -/
theorem componentOf_apart {T t t' : TypeValue} {f g : Field} {steps steps' : List Step}
    (h : componentOf T f = some (t, steps)) (h' : componentOf T g = some (t', steps'))
    (hne : f ≠ g) : Apart steps steps' := by
  cases T <;> cases f <;> cases g
  case tTuple.tuple.tuple tys i j =>
    refine leafOf_apart h h' ?_
    rintro rfl
    exact hne rfl
  case tRecord.record.record m i j =>
    refine leafOf_apart h h' ?_
    rintro rfl
    exact hne rfl
  all_goals first | cases h | cases h'

/-- Fields that lead apart have steps that lead apart. -/
theorem apart_resolve {T t t' : TypeValue} {fs gs : List Field} {steps steps' : List Step}
    (h : resolve T fs = some (t, steps)) (h' : resolve T gs = some (t', steps'))
    (hapart : Apart fs gs) : Apart steps steps' := by
  induction fs generalizing T gs steps steps' with
  | nil => exact (MiniC.not_apart_nil hapart).elim
  | cons f fs ih =>
    cases gs with
    | nil => exact (MiniC.not_apart_nil hapart.symm).elim
    | cons g gs =>
      obtain ⟨⟨T₁, steps₁⟩, hf, h⟩ := Option.bind_eq_some_iff.1 h
      obtain ⟨⟨_, steps₂⟩, hfs, h⟩ := Option.bind_eq_some_iff.1 h
      cases h
      obtain ⟨⟨T₁', steps₁'⟩, hg, h'⟩ := Option.bind_eq_some_iff.1 h'
      obtain ⟨⟨_, steps₂'⟩, hgs, h'⟩ := Option.bind_eq_some_iff.1 h'
      cases h'
      -- the paths differ at the first field or after a common one
      by_cases hfg : f = g
      · subst hfg
        cases hf.symm.trans hg
        have hrest : Apart fs gs := (MiniC.apart_cons.1 hapart).resolve_left fun hne => hne rfl
        exact (MiniC.apart_append_left _).2 (ih hfs hgs hrest)
      · exact (componentOf_apart hf hg hfg).append _ _

/-! ### The transpiler -/

/-- The type recorded after each step is the type of the part that is reached. -/
def Recorded : List (MiniC.TypeValue × Step) → MiniC.TypeValue → MiniC.TypeValue → Prop
  | [], τ, τ' => τ = τ'
  | (σ, .left) :: path, .tPair a _, τ' => σ = a ∧ Recorded path a τ'
  | (σ, .right) :: path, .tPair _ b, τ' => σ = b ∧ Recorded path b τ'
  | _, _, _ => False

/-- Walking down the pairs records the types. -/
theorem foldlM_accessStep_of_typeAt
    {getPair : MiniC.TypeValue → Result (MiniC.TypeValue × MiniC.TypeValue)}
    (hpair : ∀ a b, getPair (.tPair a b) = .ok (a, b)) {steps : List Step}
    {τ τ' : MiniC.TypeValue} (h : typeAt steps τ = some τ')
    (acc : List (MiniC.TypeValue × Step)) :
    ∃ path, steps.foldlM (accessStep getPair) (τ, acc) = .ok (τ', acc ++ path) ∧
      path.map Prod.snd = steps ∧ Recorded path τ τ' := by
  induction steps generalizing τ acc with
  | nil =>
    cases h
    refine ⟨[], ?_, rfl, rfl⟩
    rw [List.append_nil]
    rfl
  | cons step steps ih =>
    -- a step needs a pair, and records the type of the half it takes
    cases step <;> cases τ
    case left.tPair a b =>
      obtain ⟨path, hpath, rfl, hrecorded⟩ := ih h (acc ++ [(a, .left)])
      refine ⟨(a, .left) :: path, ?_, rfl, rfl, hrecorded⟩
      rw [List.append_cons, ← hpath, List.foldlM_cons, accessStep, hpair]
      rfl
    case right.tPair a b =>
      obtain ⟨path, hpath, rfl, hrecorded⟩ := ih h (acc ++ [(b, .right)])
      refine ⟨(b, .right) :: path, ?_, rfl, rfl, hrecorded⟩
      rw [List.append_cons, ← hpath, List.foldlM_cons, accessStep, hpair]
      rfl
    all_goals cases h

/-- Every part of a product that is translated is translated. -/
theorem bindList_of_foldNe {α : Type} {rs : List (Result α)} {node : α → α → Result α} {a : α}
    (h : foldNe id node (AppendTree.ofList rs) = .ok a) : ∃ as, bindList rs = .ok as := by
  -- every leaf is run before a node is built
  have hleaves : ∀ {t : AppendTree (Result α)} {a : α}, foldNe id node (some t) = .ok a →
      ∀ r ∈ t.toList, ∃ b, r = .ok b := by
    intro t
    induction t with
    | leaf r =>
      intro a h r' hr'
      cases List.mem_singleton.1 hr'
      exact ⟨a, h⟩
    | node x y size full ihx ihy =>
      intro a h r hr
      obtain ⟨b, hb, h⟩ := bind_eq_ok.1 h
      obtain ⟨c, hc, -⟩ := bind_eq_ok.1 h
      rcases List.mem_append.1 hr with hr | hr
      · exact ihx hb r hr
      · exact ihy hc r hr
  -- so in the list of leaves no result is an error
  cases ht : AppendTree.ofList rs with
  | none =>
    rw [ht] at h
    cases h
  | some t =>
    rw [ht] at h
    have hall := hleaves h
    rw [AppendTree.toList_ofList ht] at hall
    clear h ht hleaves
    induction rs with
    | nil => exact ⟨[], rfl⟩
    | cons r rs ih =>
      obtain ⟨b, rfl⟩ := hall r List.mem_cons_self
      obtain ⟨bs, hbs⟩ := ih fun r' hr' => hall r' (List.mem_cons_of_mem _ hr')
      exact ⟨b :: bs, bindList_eq_ok.2 (.cons rfl (bindList_eq_ok.1 hbs))⟩

/-- The path to a key only depends on the keys. -/
theorem existsPath_keys {κ α : Type} [BEq κ] (k : κ) (l : List (κ × α)) :
    ((AppendTree.ofList l).bind fun t => t.existsPath fun x => x.1 == k) =
      (AppendTree.ofList (l.map Prod.fst)).bind fun t => t.existsPath fun x => x == k := by
  rw [AppendTree.ofList_map]
  cases AppendTree.ofList l with
  | none => rfl
  | some t =>
    exact (AppendTree.existsPath_map (fun x => x == k) Prod.fst t).symm

/-- The ranks are the first numbers. -/
theorem mapIdx_keys {α : Type} (l : List α) :
    (l.mapIdx fun i a => (i, a)).map Prod.fst = List.range l.length := by
  refine List.ext_getElem (by simp) fun i _ _ => ?_
  simp

/-- The path of a tuple accessor. -/
theorem tupleAccess_ok {tys : List TypeValue} {t : TypeValue} {index : ℕ} {steps : List Step}
    {τ : MiniC.TypeValue} (h : componentOf (.tTuple tys) (.tuple index) = some (t, steps))
    (hτ : translateType (.tTuple tys) = .ok τ) :
    ∃ tys' path τ', bindList (translateTypes tys) = .ok tys' ∧
      tupleAccessToLr τ tys' index = .ok path ∧ path.map Prod.snd = steps ∧
      Recorded path τ τ' ∧ translateType t = .ok τ' := by
  obtain ⟨τ', hτ', hat⟩ := componentOf_translateType h hτ
  rw [translateType] at hτ
  obtain ⟨tys', htys'⟩ := bindList_of_foldNe hτ
  obtain ⟨tree, path, x, htree, hpath, -, -, -, rfl⟩ := leafOf_spec h
  -- translating the types keeps their number, so the positions stay the same
  have hlen : tys'.length = tys.length := by
    have hforall := bindList_eq_ok.1 htys'
    rw [← hforall.length_eq, translateTypes_eq, List.length_map]
  have hfound : ((AppendTree.ofList (tys'.mapIdx fun i a => (i, a))).bind fun t =>
      t.existsPath fun x => x.1 == index) = some path := by
    rw [existsPath_keys, mapIdx_keys, hlen, ← mapIdx_keys, ← existsPath_keys, htree]
    exact hpath
  -- the recorded types are those along the path
  obtain ⟨lst, hlst, hsteps, hrecorded⟩ := @foldlM_accessStep_of_typeAt
    (fun ty => traceStrong "expected a pair" (MiniC.getTPair ty)) (fun _ _ => rfl) _ _ _ hat []
  refine ⟨tys', lst, τ', htys', ?_, hsteps, hrecorded, hτ'⟩
  have hsome : traceOption "no leaf with given index" (some path) = .ok path := rfl
  rw [tupleAccessToLr, hfound, hsome, ok_bind, hlst]
  rfl

/-- The path of a record accessor. -/
theorem recordAccess_ok {m : List (String × TypeValue)} {t : TypeValue} {property : String}
    {steps : List Step} {τ : MiniC.TypeValue}
    (h : componentOf (.tRecord m) (.record property) = some (t, steps))
    (hτ : translateType (.tRecord m) = .ok τ) :
    ∃ m' path τ', translateTypeMap m = .ok m' ∧
      recordAccessToLr τ m' property = .ok path ∧ path.map Prod.snd = steps ∧
      Recorded path τ τ' ∧ translateType t = .ok τ' := by
  obtain ⟨τ', hτ', hat⟩ := componentOf_translateType h hτ
  rw [translateType, translateFieldTypes_eq] at hτ
  obtain ⟨tys', htys'⟩ := bindList_of_foldNe hτ
  -- the keys are kept by the translation of a map
  have hm : ∃ m', translateTypeMap m = .ok m' ∧ m'.map Prod.fst = m.map Prod.fst := by
    clear h hτ
    rw [translateTypeMap]
    induction m generalizing tys' with
    | nil => exact ⟨[], rfl, rfl⟩
    | cons x m ih =>
      cases bindList_eq_ok.1 htys' with
      | @cons _ ty' _ _ hx hrest =>
        obtain ⟨m', hm', hkeys⟩ := ih _ (bindList_eq_ok.2 hrest)
        refine ⟨(x.1, ty') :: m', bindList_eq_ok.2 (.cons ?_ (bindList_eq_ok.1 hm')), ?_⟩
        · exact bind_eq_ok.2 ⟨ty', hx, rfl⟩
        · rw [List.map_cons, List.map_cons, hkeys]
  obtain ⟨m', hm', hkeys⟩ := hm
  obtain ⟨tree, path, x, htree, hpath, -, -, -, rfl⟩ := leafOf_spec h
  -- and the path to a field depends on the keys alone
  have hfound : ((AppendTree.ofList m').bind fun t => t.existsPath fun x => x.1 == property) =
      some path := by
    rw [existsPath_keys, hkeys, ← existsPath_keys, htree]
    exact hpath
  obtain ⟨lst, hlst, hsteps, hrecorded⟩ :=
    @foldlM_accessStep_of_typeAt MiniC.getTPair (fun _ _ => rfl) _ _ _ hat []
  refine ⟨m', lst, τ', hm', ?_, hsteps, hrecorded, hτ'⟩
  have hsome : traceOption "no leaf with given index" (some path) = .ok path := rfl
  rw [recordAccessToLr, hfound, hsome, ok_bind, hlst]
  rfl

/-- One step of the transpiler, at a type that is translated. -/
theorem transpiler_assignStep_iff {T t : TypeValue} {acc acc' : List Step} {f : Field}
    {τ : MiniC.TypeValue} (hτ : translateType T = .ok τ) :
    assignStep (T, acc) f.typed = .ok (t, acc') ↔
      ∃ steps, componentOf T f = some (t, steps) ∧ acc' = acc ++ steps := by
  have hok : ∀ {t steps}, componentOf T f = some (t, steps) →
      assignStep (T, acc) f.typed = .ok (t, acc ++ steps) := by
    intro t steps h
    have htype := (componentOf_fst T f).symm.trans (componentOf_iff.1 ⟨steps, h⟩)
    cases T <;> cases f
    case tTuple.tuple tys index =>
      obtain ⟨tys', path, _, htys', hpath, rfl, -, -⟩ := tupleAccess_ok h hτ
      have hget : getTTuple (.tTuple tys) = .ok tys := rfl
      have ht : traceOption "nth" tys[index]? = .ok t := traceOption_eq_ok.2 htype
      simp only [assignStep, Field.typed, hτ, hget, htys', hpath, ht, ok_bind]
      rfl
    case tRecord.record m property =>
      obtain ⟨m', path, _, hm', hpath, rfl, -, -⟩ := recordAccess_ok h hτ
      have hget : trace "accessing property on not a record" (getTRecord (.tRecord m)) = .ok m :=
        rfl
      have ht : traceOption "Not_found" (m.lookup property) = .ok t := traceOption_eq_ok.2 htype
      simp only [assignStep, Field.typed, hτ, hget, hm', hpath, ht, ok_bind]
      rfl
    all_goals cases h
  constructor
  · intro h
    -- what is returned is the type that is looked up last
    have htype : (componentOf T f).map Prod.fst = some t := by
      rw [componentOf_fst]
      cases f with
      | tuple index =>
        obtain ⟨_, -, h⟩ := bind_eq_ok.1 h
        obtain ⟨tys, htys, h⟩ := bind_eq_ok.1 h
        obtain ⟨_, -, h⟩ := bind_eq_ok.1 h
        obtain ⟨_, t', -, ht', h⟩ := map₂_eq_ok.1 h
        cases h
        cases T <;> cases htys
        exact traceOption_eq_ok.1 ht'
      | record property =>
        obtain ⟨_, -, h⟩ := bind_eq_ok.1 h
        obtain ⟨m, hm, h⟩ := bind_eq_ok.1 h
        obtain ⟨_, -, h⟩ := bind_eq_ok.1 h
        obtain ⟨_, t', -, ht', h⟩ := map₂_eq_ok.1 h
        cases h
        cases T <;> cases hm
        exact traceOption_eq_ok.1 ht'
    obtain ⟨steps, hsteps⟩ := componentOf_iff.2 htype
    cases (hok hsteps).symm.trans h
    exact ⟨steps, hsteps, rfl⟩
  · rintro ⟨steps, h, rfl⟩
    exact hok h

/-- The transpiler resolves the path of an assignment from the right. -/
theorem transpiler_assignPath_iff {T t : TypeValue} {fs : List Field} {steps : List Step}
    {τ : MiniC.TypeValue} (hτ : translateType T = .ok τ) :
    assignPath T (fs.map Field.typed) = .ok (t, steps) ↔
      resolve T fs.reverse = some (t, steps) := by
  -- the fold from any accumulator, which grows at its end
  have hgen : ∀ (gs : List Field) {T : TypeValue} {τ : MiniC.TypeValue} (_ : translateType T = .ok τ)
      (acc steps : List Step), (gs.map Field.typed).foldlM assignStep (T, acc) = .ok (t, steps) ↔
        ∃ steps', resolve T gs = some (t, steps') ∧ steps = acc ++ steps' := by
    intro gs
    induction gs with
    | nil =>
      intro T τ _ acc steps
      constructor
      · intro h
        cases h
        exact ⟨[], rfl, (List.append_nil _).symm⟩
      · rintro ⟨_, h, rfl⟩
        cases h
        rw [List.append_nil]
        rfl
    | cons f gs ih =>
      intro T τ hτ acc steps
      rw [List.map_cons, List.foldlM_cons]
      constructor
      · intro h
        obtain ⟨⟨T₁, acc₁⟩, hstep, h⟩ := bind_eq_ok.1 h
        obtain ⟨steps₁, hf, rfl⟩ := (transpiler_assignStep_iff hτ).1 hstep
        obtain ⟨τ₁, hτ₁, -⟩ := componentOf_translateType hf hτ
        obtain ⟨steps₂, hgs, rfl⟩ := (ih hτ₁ _ _).1 h
        refine ⟨steps₁ ++ steps₂, ?_, List.append_assoc ..⟩
        rw [resolve, hf]
        change (resolve T₁ gs).bind _ = _
        rw [hgs]
        rfl
      · rintro ⟨_, h, rfl⟩
        obtain ⟨⟨T₁, steps₁⟩, hf, h⟩ := Option.bind_eq_some_iff.1 h
        obtain ⟨⟨_, steps₂⟩, hgs, h⟩ := Option.bind_eq_some_iff.1 h
        cases h
        obtain ⟨τ₁, hτ₁, -⟩ := componentOf_translateType hf hτ
        refine bind_eq_ok.2 ⟨_, (transpiler_assignStep_iff hτ).2 ⟨steps₁, hf, rfl⟩, ?_⟩
        exact (ih hτ₁ _ _).2 ⟨steps₂, hgs, (List.append_assoc ..).symm⟩
  rw [assignPath, ← List.map_reverse, hgen _ hτ]
  simp

/-- The types that are recorded along two paths. -/
theorem Recorded.append {p q : List (MiniC.TypeValue × Step)} {σ τ τ' : MiniC.TypeValue}
    (h : Recorded p σ τ) (h' : Recorded q τ τ') : Recorded (p ++ q) σ τ' := by
  induction p generalizing σ with
  | nil =>
    cases h
    exact h'
  | cons x p ih =>
    obtain ⟨ρ, step⟩ := x
    cases step <;> cases σ
    case left.tPair a b => exact ⟨h.1, ih h.2⟩
    case right.tPair a b => exact ⟨h.1, ih h.2⟩
    all_goals exact h.elim

/-- One step of an accessor. -/
theorem translate_access {env : Typer.Environment} {prev : AnnotatedExpression}
    {e : MiniC.Expression} {t : TypeValue} {f : Field} {steps : List Step} {τ : MiniC.TypeValue}
    (hprev : translateAnnotatedExpression prev = .ok e)
    (hτ : translateType prev.typeAnnot = .ok τ)
    (h : componentOf prev.typeAnnot f = some (t, steps)) :
    ∃ ae path τ', Typer.typeAccess env none prev f.simplified = .ok ae ∧ ae.typeAnnot = t ∧
      translateAnnotatedExpression ae = .ok (path.foldl accessNode e) ∧
      path.map Prod.snd = steps ∧ Recorded path τ τ' ∧ translateType t = .ok τ' := by
  have htype := (componentOf_fst prev.typeAnnot f).symm.trans (componentOf_iff.1 ⟨steps, h⟩)
  -- only a tuple has numbered components, and only a record has fields
  cases hT : prev.typeAnnot <;> cases f <;> rw [hT] at h hτ htype
  case tTuple.tuple tys index =>
    obtain ⟨tys', path, τ', htys', hpath, hsteps, hrecorded, hτ'⟩ := tupleAccess_ok h hτ
    refine ⟨.mk (.eTupleAccessor prev index) t env.elements, path, τ', ?_, rfl, ?_, hsteps,
      hrecorded, hτ'⟩
    · have hget : getTTuple (.tTuple tys) = .ok tys := rfl
      have ht : traceOption "bad tuple index" (nth tys index) = .ok t :=
        traceOption_eq_ok.2 ((nth_natCast tys index).trans htype)
      change Typer.accessTuple env none prev index = _
      rw [Typer.accessTuple, hT, hget, ok_bind, ht]
      rfl
    -- the transpiler reads the component along the path that it records
    · rw [translate_mk hτ']
      exact translate_eTupleAccessor hT hτ htys' hpath hprev
  case tRecord.record m property =>
    obtain ⟨m', path, τ', hm', hpath, hsteps, hrecorded, hτ'⟩ := recordAccess_ok h hτ
    refine ⟨.mk (.eRecordAccessor prev property) t env.elements, path, τ', ?_, rfl, ?_, hsteps,
      hrecorded, hτ'⟩
    · have hget : getTRecord (.tRecord m) = .ok m := rfl
      have ht : traceOption "bad record index" (m.lookup property) = .ok t :=
        traceOption_eq_ok.2 htype
      change Typer.accessRecord env none prev property = _
      rw [Typer.accessRecord, hT, hget, ok_bind, ht]
      rfl
    · rw [translate_mk hτ']
      exact translate_eRecordAccessor hT hτ hm' hpath hprev
  all_goals cases h

/-- The accessor of a path reads along the steps that the path resolves to. -/
theorem translate_accesses {env : Typer.Environment} {prev : AnnotatedExpression}
    {e : MiniC.Expression} {t : TypeValue} {fs : List Field} {steps : List Step}
    {τ : MiniC.TypeValue} (hprev : translateAnnotatedExpression prev = .ok e)
    (hτ : translateType prev.typeAnnot = .ok τ)
    (h : resolve prev.typeAnnot fs = some (t, steps)) :
    ∃ ae path τ', Typer.typeAccesses env none prev (fs.map Field.simplified) = .ok ae ∧
      translateAnnotatedExpression ae = .ok (path.foldl accessNode e) ∧
      path.map Prod.snd = steps ∧ Recorded path τ τ' := by
  induction fs generalizing prev e steps τ with
  | nil =>
    cases h
    exact ⟨prev, [], τ, rfl, hprev, rfl, rfl⟩
  | cons f fs ih =>
    -- the first accessor makes a new `prev`, which the others start from
    obtain ⟨⟨T₁, steps₁⟩, hf, h⟩ := Option.bind_eq_some_iff.1 h
    obtain ⟨⟨_, steps₂⟩, hfs, h⟩ := Option.bind_eq_some_iff.1 h
    cases h
    obtain ⟨ae₁, path₁, τ₁, hae₁, rfl, htranslate₁, rfl, hrecorded₁, hτ₁⟩ :=
      @translate_access env _ _ _ _ _ _ hprev hτ hf
    obtain ⟨ae, path₂, τ', hae, htranslate, rfl, hrecorded₂⟩ := ih htranslate₁ hτ₁ hfs
    refine ⟨ae, path₁ ++ path₂, τ', ?_, ?_, List.map_append, hrecorded₁.append hrecorded₂⟩
    · rw [List.map_cons, Typer.typeAccesses]
      exact bind_eq_ok.2 ⟨ae₁, hae₁, hae⟩
    · rw [List.foldl_append]
      exact htranslate

end Ligo.Transpiler
