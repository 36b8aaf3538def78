import Ligo.AstSimplified.Semantics
import Ligo.Ligodity.Parser
import Ligo.Simplify.Ligodity
import Ligo.Simplify.Parameters

/-!
# Destructuring of tuples in Ligodity

A `let` of a tuple pattern binds a fresh name to the value and each variable of the pattern to
a projection of this name. Each variable should be bound to the component at its position in
the pattern (`Destructures`).

The parser numbers the components of a tuple from 1, and `Access_tuple` counts them from 0: at
every level, a variable is bound to the component after its own, which need not exist
(`split_run`, `lookup_of_enters`). So the pattern binds its variables to the right components
exactly when none of them lies in a tuple (`destructures_iff`).
-/

namespace Ligo.Simplify.Ligodity

open Ligo.Pascaligo (Nseq Reg Region)
open Ligo.Pascaligo.Raw (Projection)
open Ligo.Ligodity
open Ligo.Ligodity.Raw
open AstSimplified (Expression Access Value Env Interpretation Enters eval evalPath evalAccess
  readVariable)
open Raising (bind_eq_pure mapListRev_eq_pure)
open Scope (lookup names)

/-! ### Patterns -/

/-- The patterns built from variables, wildcards, parentheses and tuples. -/
inductive TuplePattern : Pattern → Prop
  | pVar (v) : TuplePattern (.pVar v)
  | pWild : TuplePattern .pWild
  | pPar {p} (h : TuplePattern p) : TuplePattern (.pPar p)
  | pTuple {t : Nseq Pattern} (h : ∀ p ∈ t.toList, TuplePattern p) : TuplePattern (.pTuple t)

mutual

/-- The variables of a pattern, with their positions. -/
def positions : Pattern → List (String × List ℕ)
  | .pVar v => [(v, [])]
  | .pPar inside => positions inside
  | .pTuple ⟨hd, tl⟩ => (positions hd).map (Prod.map id (0 :: ·)) ++ componentPositions 1 tl
  | _ => []

/-- The variables of the components of a tuple, from an index on. -/
def componentPositions : ℕ → List Pattern → List (String × List ℕ)
  | _, [] => []
  | i, p :: ps => (positions p).map (Prod.map id (i :: ·)) ++ componentPositions (i + 1) ps

end

mutual

/-- The value has the shape of the pattern. -/
def Matches : Pattern → Value → Prop
  | .pVar _, _ | .pWild, _ => True
  | .pPar inside, v => Matches inside v
  | .pTuple ⟨hd, tl⟩, .tuple (v :: vs) => Matches hd v ∧ MatchesAll tl vs
  | _, _ => False

def MatchesAll : List Pattern → List Value → Prop
  | [], [] => True
  | p :: ps, v :: vs => Matches p v ∧ MatchesAll ps vs
  | _, _ => False

end

/-- The component of a value at a position. -/
def componentAt : List ℕ → Value → Option Value
  | [], v => some v
  | i :: π, .tuple vs => vs[i]? >>= componentAt π
  | _, _ => none

/-- The positions in a tuple, one component after the other. -/
theorem positions_pTuple (t : Nseq Pattern) :
    positions (.pTuple t) = componentPositions 0 t.toList := rfl

/-- A variable in a tuple has its position in one of the components, behind the rank of the
component. -/
theorem mem_componentPositions {i : ℕ} {ps : List Pattern} {x : String × List ℕ}
    (h : x ∈ componentPositions i ps) :
    ∃ j p π, ps[j]? = some p ∧ (x.1, π) ∈ positions p ∧ x.2 = (i + j) :: π := by
  induction ps generalizing i with
  | nil => cases h
  | cons p ps ih =>
    rcases List.mem_append.1 h with hp | hps
    · obtain ⟨y, hy, rfl⟩ := List.mem_map.1 hp
      exact ⟨0, p, y.2, rfl, hy, rfl⟩
    · obtain ⟨j, q, π, hq, hmem, hx⟩ := ih hps
      refine ⟨j + 1, q, π, hq, hmem, ?_⟩
      rw [hx, Nat.add_right_comm, Nat.add_assoc]

/-! ### What the parser makes of a pattern -/

section Split

variable {fresh : String} {path : Nseq ℕ} {map map' : VMap} {p : Pattern} {ps : List Pattern}
  {i n n' : ℕ}

/-- The path, with the inmost step first, to a position in the component at a path. -/
def extend : List ℕ → Nseq ℕ → Nseq ℕ
  | [], path => path
  | i :: π, path => extend π (nseqCons (i + 1) path)

/-- What the parser records for a variable at a position in the component at a path. -/
def recorded (fresh : String) (path : Nseq ℕ) (π : List ℕ) : Option TypeAnnotation × Projection :=
  (none, mkProjection fresh (extend π path))

/-- What the parser records for a variable at a position in the whole pattern. -/
def recordedAt (fresh : String) : List ℕ → Option TypeAnnotation × Projection
  | [] => (none, mkProjection fresh ⟨1, []⟩)
  | i :: π => recorded fresh ⟨i + 1, []⟩ π

def insertAll (map : VMap) (l : VMap) : VMap :=
  l.foldl (fun m e => SortedMap.insert e.1 e.2 m) map

/-- The variables are recorded one after the other. -/
theorem insertAll_append (map l l' : VMap) :
    insertAll map (l ++ l') = insertAll (insertAll map l) l' := List.foldl_append

theorem mapVal_append (f : List ℕ → Option TypeAnnotation × Projection)
    (l l' : List (String × List ℕ)) :
    SortedMap.mapVal f (l ++ l') = SortedMap.mapVal f l ++ SortedMap.mapVal f l' :=
  List.map_append

/-- What is recorded of a component starts with its rank. -/
theorem mapVal_component (f : List ℕ → Option TypeAnnotation × Projection)
    (l : List (String × List ℕ)) (i : ℕ) :
    SortedMap.mapVal f (l.map (Prod.map id (i :: ·))) =
      SortedMap.mapVal (fun π => f (i :: π)) l := List.map_map

/-- The components of a tuple, when each of them is recorded under its own path. -/
theorem subRec_run
    (ih : ∀ p ∈ ps, ∀ {path map map' n n'}, split fresh path map p n = .ok (map', n') →
      n' = n ∧ map' = insertAll map (SortedMap.mapVal (recorded fresh path) (positions p)))
    (h : subRec fresh path map (i + 1) ps n = .ok (map', n')) :
    n' = n ∧
      map' = insertAll map (SortedMap.mapVal (recorded fresh path) (componentPositions i ps)) := by
  induction ps generalizing map i n with
  | nil =>
    cases h
    exact ⟨rfl, rfl⟩
  | cons p ps ihps =>
    rw [subRec, bind_run_eq_ok] at h
    obtain ⟨map₁, m, hp, h⟩ := h
    obtain ⟨rfl, rfl⟩ := ih p List.mem_cons_self hp
    obtain ⟨rfl, rfl⟩ := ihps (fun q hq => ih q (List.mem_cons_of_mem _ hq)) h
    refine ⟨rfl, ?_⟩
    rw [componentPositions, mapVal_append, insertAll_append, mapVal_component]
    rfl

/-- The parser inserts the variables of a pattern with their projections. -/
theorem split_run (hp : TuplePattern p) (h : split fresh path map p n = .ok (map', n')) :
    n' = n ∧ map' = insertAll map (SortedMap.mapVal (recorded fresh path) (positions p)) := by
  induction hp generalizing path map map' n n' with
  | pVar v =>
    rw [split] at h
    split at h
    · cases h
    · cases h
      exact ⟨rfl, rfl⟩
  | pWild =>
    cases h
    exact ⟨rfl, rfl⟩
  | pPar _ ih => exact ih h
  | @pTuple t _ ih =>
    obtain ⟨hd, tl⟩ := t
    have hsub : subRec fresh path map 1 (hd :: tl) n = .ok (map', n') := h
    exact subRec_run (fun q hq => ih q hq) hsub

/-- The components of the tuple of a whole pattern. -/
theorem splitComponents_run (hps : ∀ p ∈ ps, TuplePattern p)
    (h : splitComponents fresh map (i + 1) ps n = .ok (map', n')) :
    n' = n ∧
      map' = insertAll map (SortedMap.mapVal (recordedAt fresh) (componentPositions i ps)) := by
  induction ps generalizing map i n with
  | nil =>
    cases h
    exact ⟨rfl, rfl⟩
  | cons p ps ih =>
    rw [splitComponents, bind_run_eq_ok] at h
    obtain ⟨map₁, m, hp, h⟩ := h
    obtain ⟨rfl, rfl⟩ := split_run (hps p List.mem_cons_self) hp
    obtain ⟨rfl, rfl⟩ := ih (fun q hq => hps q (List.mem_cons_of_mem _ hq)) h
    refine ⟨rfl, ?_⟩
    rw [componentPositions, mapVal_append, insertAll_append, mapVal_component]
    rfl

/-- The pass on a tuple pattern makes one fresh name and records every variable of the pattern
with its path below that name. -/
theorem splitPattern_pTuple_run {t : Nseq Pattern} {r : String × Option TypeAnnotation × VMap}
    (ht : ∀ p ∈ t.toList, TuplePattern p) (h : splitPattern (.pTuple t) n = .ok (r, n')) :
    ∃ fresh, r = (fresh, none,
      SortedMap.mapVal (recordedAt fresh) (SortedMap.ofList (positions (.pTuple t)))) := by
  obtain ⟨fresh, m, -, h⟩ := bind_run_eq_ok.1 h
  obtain ⟨map, m', hmap, h⟩ := bind_run_eq_ok.1 h
  cases h
  obtain ⟨-, rfl⟩ := splitComponents_run (i := 0) ht hmap
  refine ⟨fresh, ?_⟩
  rw [← SortedMap.ofList_mapVal]
  rfl

/-- A tuple without variables has none in its components. -/
theorem positions_of_component (h : componentPositions i ps = []) : ∀ p ∈ ps, positions p = [] := by
  induction ps generalizing i with
  | nil => exact nofun
  | cons p ps ih =>
    obtain ⟨hp, hps⟩ := List.append_eq_nil_iff.1 h
    exact List.forall_mem_cons.2 ⟨List.map_eq_nil_iff.1 hp, ih hps⟩

/-- Components without variables leave the record as it is. -/
theorem subRec_of_noPositions (h : ∀ p ∈ ps, ∀ path, split fresh path map p n = .ok (map, n))
    (rank : ℕ) : subRec fresh path map rank ps n = .ok (map, n) := by
  induction ps generalizing rank with
  | nil => rfl
  | cons p ps ih =>
    rw [subRec, bind_run_eq_ok]
    refine ⟨map, n, h p List.mem_cons_self _, ?_⟩
    exact ih (fun q hq => h q (List.mem_cons_of_mem _ hq)) _

/-- A pattern without variables is split into nothing. -/
theorem split_of_noPositions (hp : TuplePattern p) (h : positions p = []) (path : Nseq ℕ) :
    split fresh path map p n = .ok (map, n) := by
  induction hp generalizing path with
  | pVar v => cases h
  | pWild => rfl
  | pPar _ ih => exact ih h path
  | @pTuple t _ ih =>
    obtain ⟨hd, tl⟩ := t
    have hpositions := positions_of_component (show componentPositions 0 (hd :: tl) = [] from h)
    have htl : ∀ q ∈ hd :: tl, ∀ path, split fresh path map q n = .ok (map, n) :=
      fun q hq => ih q hq (hpositions q hq)
    exact subRec_of_noPositions htl 1

/-- The same for the components of a pattern. -/
theorem splitComponents_of_noPositions (hps : ∀ p ∈ ps, TuplePattern p)
    (h : ∀ p ∈ ps, positions p = []) (rank : ℕ) :
    splitComponents fresh map rank ps n = .ok (map, n) := by
  induction ps generalizing rank with
  | nil => rfl
  | cons p ps ih =>
    rw [splitComponents, bind_run_eq_ok]
    refine ⟨map, n, split_of_noPositions (hps p List.mem_cons_self) (h p List.mem_cons_self) _, ?_⟩
    exact ih (fun q hq => hps q (List.mem_cons_of_mem _ hq))
      (fun q hq => h q (List.mem_cons_of_mem _ hq)) _

/-- A pattern without variables in tuples is the name that it binds. -/
theorem splitPattern_of_flat (hp : TuplePattern p) (h : ∀ x ∈ positions p, x.2 = []) (n : ℕ) :
    ∃ y m, splitPattern p n = .ok ((y, none, []), m) ∧ ∀ x ∈ positions p, x = (y, []) := by
  induction hp with
  | pVar v => exact ⟨v, n, rfl, fun x hx => List.mem_singleton.1 hx⟩
  | pWild => exact ⟨_, _, rfl, nofun⟩
  | pPar _ ih => exact ih h
  | @pTuple t ht _ =>
    have hnil : componentPositions 0 t.toList = [] := by
      refine List.eq_nil_iff_forall_not_mem.2 fun x hx => ?_
      obtain ⟨j, p, π, -, -, hx'⟩ := mem_componentPositions hx
      rw [h x hx] at hx'
      cases hx'
    refine ⟨_, _, bind_run_eq_ok.2 ⟨_, _, rfl, bind_run_eq_ok.2 ⟨[], n + 1, ?_, rfl⟩⟩, ?_⟩
    · exact splitComponents_of_noPositions ht (positions_of_component hnil) 1
    · rw [positions_pTuple, hnil]
      exact nofun

end Split

/-! ### What the simplifier makes of the projections -/

section Simpl

variable {fresh : String} {e body : Expression} {l : List (String × List ℕ)}

/-- The steps, from 1 on, to a position. -/
def stepsTo (π : List ℕ) : List Access := π.map fun i => .tuple ((i + 1 : ℕ) : ℤ)

/-- `let`s that read components of a variable, the last one of the list outermost. -/
def projectionChain (fresh : String) (l : List (String × List ℕ)) (body : Expression) :
    Expression :=
  l.foldl (fun acc x => .eLetIn x.1 none (.eAccessor (.eVariable fresh) (stepsTo x.2)) acc) body

/-- The last variable is bound outermost. -/
theorem projectionChain_concat (x : String × List ℕ) :
    projectionChain fresh (l ++ [x]) body = .eLetIn x.1 none
      (.eAccessor (.eVariable fresh) (stepsTo x.2)) (projectionChain fresh l body) :=
  List.foldl_append

/-- The ranks of a path become the components of a projection. -/
theorem mkFieldPath_toList (rank : ℕ) (tl : List ℕ) :
    (mkFieldPath rank tl).toList = (rank :: tl).map mkComponent := by
  induction tl generalizing rank with
  | nil => rfl
  | cons hd tl ih =>
    rw [List.map_cons, ← ih]
    rfl

theorem mkProjection_fieldPath (fresh : String) (path : Nseq ℕ) :
    (mkProjection fresh path).fieldPath.toList = path.toList.reverse.map mkComponent := by
  rw [mkProjection, nsepseqRev_toList, mkFieldPath_toList, List.map_reverse]
  rfl

/-- The path is collected in reverse, and with ranks from one. -/
theorem extend_toList (π : List ℕ) (path : Nseq ℕ) :
    (extend π path).toList.reverse = path.toList.reverse ++ π.map (· + 1) := by
  induction π generalizing path with
  | nil => exact (List.append_nil _).symm
  | cons i π ih =>
    rw [extend, ih, List.map_cons]
    show ((i + 1) :: path.toList).reverse ++ _ = _
    rw [List.reverse_cons, List.append_assoc]
    rfl

/-- The projection of a variable in a tuple reads one component further at every step. -/
theorem simplProjection_recordedAt {π : List ℕ} (hπ : π ≠ [])
    (h : simplProjection none (recordedAt fresh π).2 = pure e) :
    e = .eAccessor (.eVariable fresh) (stepsTo π) := by
  obtain ⟨i, π, rfl⟩ := List.exists_cons_of_ne_nil hπ
  obtain ⟨e', he', h⟩ := bind_eq_pure.1 h
  cases h
  obtain ⟨path', hpath', h⟩ := bind_eq_pure.1 he'
  cases h
  have hsteps := Simplify.Pascaligo.simplSelections_eq_pure (mapListRev_eq_pure.1 hpath')
  have htoList : (recordedAt fresh (i :: π)).2.fieldPath.toList =
      ((i :: π).map (· + 1)).map mkComponent := by
    show (mkProjection fresh (extend π ⟨i + 1, []⟩)).fieldPath.toList = _
    rw [mkProjection_fieldPath, extend_toList]
    rfl
  rw [hsteps, htoList, List.map_map, List.map_map]
  rfl

/-- The bindings of the pass are simplified to a chain of projections from the fresh name. -/
theorem simplExpression_chain {raw : Expr} (hl : ∀ x ∈ l, x.2 ≠ [])
    (hbody : simplExpression none raw = pure body)
    (h : simplExpression none (mkLetInBindings (SortedMap.mapVal (recordedAt fresh) l) raw) =
      pure e) : e = projectionChain fresh l body := by
  induction l using List.reverseRecOn generalizing e with
  | nil =>
    rw [show simplExpression none raw = pure e from h] at hbody
    exact Except.ok.inj (Except.ok.inj hbody)
  | append_singleton l x ih =>
    obtain ⟨hl, hx⟩ := List.forall_mem_append.1 hl
    have hx : x.2 ≠ [] := hx x List.mem_cons_self
    have htype : (recordedAt fresh x.2).1 = none := by
      cases x.2 <;> rfl
    rw [mapVal_append, mkLetInBindings, List.foldl_append, ← mkLetInBindings] at h
    obtain ⟨te, hte, h⟩ := bind_eq_pure.1 h
    obtain ⟨rhs, hrhs, h⟩ := bind_eq_pure.1 h
    obtain ⟨result, hresult, h⟩ := bind_eq_pure.1 h
    cases h
    rw [htype] at hte
    cases hte
    rw [projectionChain_concat, ← ih hl hresult, simplProjection_recordedAt hx hrhs]
    rfl

end Simpl

/-! ### What is read -/

section Eval

variable {I : Interpretation} {fresh : String} {l : List (String × List ℕ)} {π : List ℕ}
  {v w : Value} {lit : AstTyped.Literal} {ρ ρ' : Env}

/-- Following the steps reads the component at the position, counted from one. -/
theorem evalPath_stepsTo {r : Value × Env} (h : evalPath I (stepsTo π) v ρ = .ok r) :
    r.2 = ρ ∧ componentAt (π.map (· + 1)) v = some r.1 := by
  induction π generalizing v with
  | nil =>
    cases h
    exact ⟨rfl, rfl⟩
  | cons i π ih =>
    obtain ⟨⟨v', ρ₁⟩, hv', h⟩ := Fuel.bind_eq_ok.1 h
    cases v with
    | tuple vs =>
      rw [evalAccess, nth_natCast] at hv'
      split at hv'
      · rename_i u hu
        cases hv'
        obtain ⟨hρ, hcomponent⟩ := ih h
        refine ⟨hρ, ?_⟩
        show vs[i + 1]? >>= componentAt (π.map (· + 1)) = some r.1
        rw [hu]
        exact hcomponent
      · cases hv'
    | _ => cases hv'

/-- A projection from the fresh name reads a component of its value. -/
theorem eval_projection {r : Value × Env}
    (h : eval I (.eAccessor (.eVariable fresh) (stepsTo π)) ρ = .ok r) :
    r.2 = ρ ∧ ∃ v, lookup fresh ρ = some v ∧ componentAt (π.map (· + 1)) v = some r.1 := by
  obtain ⟨⟨v, ρ₁⟩, hv, h⟩ := Fuel.bind_eq_ok.1 h
  rw [eval, readVariable] at hv
  split at hv
  · rename_i u hu
    cases hv
    obtain ⟨hρ, hcomponent⟩ := evalPath_stepsTo h
    exact ⟨hρ, v, hu, hcomponent⟩
  · cases hv

/-- The chain binds its variables, the first one of the list innermost. -/
theorem enters_chain
    (h : Enters I (projectionChain fresh l (.eLiteral lit)) ρ (.eLiteral lit) ρ') :
    ∃ T, ρ' = T ++ ρ ∧ names T = l.map Prod.fst := by
  induction l using List.reverseRecOn generalizing ρ with
  | nil =>
    cases h
    exact ⟨[], rfl, rfl⟩
  | append_singleton l x ih =>
    rw [projectionChain_concat] at h
    cases h with
    | @letIn _ _ _ _ _ w ρ₁ _ _ hrhs h =>
      obtain ⟨rfl, -⟩ := eval_projection hrhs
      obtain ⟨T, rfl, hT⟩ := ih h
      refine ⟨T ++ [(x.1, w)], ?_, ?_⟩
      · rw [List.append_assoc]
        rfl
      · rw [Scope.names_append, hT, List.map_append]
        rfl

/-- The last variable of the list is bound to a component that starts from 1. -/
theorem lookup_of_enters {x : String × List ℕ} (hx : x.1 ∉ l.map Prod.fst)
    (hlookup : lookup fresh ρ = some v)
    (h : Enters I (projectionChain fresh (l ++ [x]) (.eLiteral lit)) ρ (.eLiteral lit) ρ') :
    ∃ w, componentAt (x.2.map (· + 1)) v = some w ∧ lookup x.1 ρ' = some w := by
  rw [projectionChain_concat] at h
  cases h with
  | @letIn _ _ _ _ _ w ρ₁ _ _ hrhs h =>
    obtain ⟨rfl, v', hv', hw⟩ := eval_projection hrhs
    rw [hlookup] at hv'
    cases hv'
    obtain ⟨T, rfl, hT⟩ := enters_chain h
    refine ⟨w, hw, ?_⟩
    rw [Scope.lookup_append_of_notMem (hT ▸ hx), lookup, if_pos rfl]

end Eval

/-! ### Values that tell the components apart -/

section Fill

mutual

/-- The value of the shape of a pattern that has one value at all of its leaves. -/
def fill (w : Value) : Pattern → Value
  | .pPar inside => fill w inside
  | .pTuple ⟨hd, tl⟩ => .tuple (fill w hd :: fillAll w tl)
  | _ => w

def fillAll (w : Value) : List Pattern → List Value
  | [] => []
  | p :: ps => fill w p :: fillAll w ps

end

variable {p : Pattern} {t : Nseq Pattern} {w u : Value} {π : List ℕ}

theorem fillAll_eq_map (w : Value) (ps : List Pattern) : fillAll w ps = ps.map (fill w) := by
  induction ps with
  | nil => rfl
  | cons p ps ih => rw [fillAll, ih, List.map_cons]

theorem fill_pTuple (w : Value) (t : Nseq Pattern) :
    fill w (.pTuple t) = .tuple (t.toList.map (fill w)) := by
  rw [← fillAll_eq_map]
  rfl

/-- A value matches a tuple of patterns component by component. -/
theorem matches_pTuple {vs : List Value} :
    Matches (.pTuple t) (.tuple vs) ↔ List.Forall₂ Matches t.toList vs := by
  have hall : ∀ ps vs, MatchesAll ps vs ↔ List.Forall₂ Matches ps vs := by
    intro ps
    induction ps with
    | nil =>
      intro vs
      cases vs with
      | nil => exact iff_of_true trivial .nil
      | cons v vs => exact iff_of_false id nofun
    | cons p ps ih =>
      intro vs
      cases vs with
      | nil => exact iff_of_false id nofun
      | cons v vs => rw [MatchesAll, ih, List.forall₂_cons]
  obtain ⟨hd, tl⟩ := t
  cases vs with
  | nil => exact iff_of_false id nofun
  | cons v vs => exact hall (hd :: tl) (v :: vs)

/-- The filled pattern is a value that matches it. -/
theorem matches_fill (hp : TuplePattern p) (w : Value) : Matches p (fill w p) := by
  induction hp with
  | pVar v => trivial
  | pWild => trivial
  | pPar _ ih => exact ih
  | @pTuple t _ ih =>
    rw [fill_pTuple, matches_pTuple, List.forall₂_map_right_iff, List.forall₂_same]
    exact ih

/-- A variable stands at a leaf. -/
theorem componentAt_of_mem {x : String} (hp : TuplePattern p) (h : (x, π) ∈ positions p) :
    componentAt π (fill w p) = some w := by
  induction hp generalizing π with
  | pVar v =>
    cases List.mem_singleton.1 h
    rfl
  | pWild => cases h
  | pPar _ ih => exact ih h
  | @pTuple t _ ih =>
    rw [positions_pTuple] at h
    obtain ⟨j, q, π', hq, hmem, hπ⟩ := mem_componentPositions h
    obtain rfl : π = (0 + j) :: π' := hπ
    rw [fill_pTuple, Nat.zero_add, componentAt, List.getElem?_map, hq]
    exact ih q (List.mem_of_getElem? hq) hmem

/-- What stands anywhere is a leaf or a tuple. -/
theorem componentAt_fill (hp : TuplePattern p) (hw : ∀ vs, w ≠ .tuple vs)
    (h : componentAt π (fill w p) = some u) : u = w ∨ ∃ vs, u = .tuple vs := by
  have hleaf : ∀ π, componentAt π w = some u → u = w := by
    intro π h
    cases π with
    | nil => exact (Option.some.inj h).symm
    | cons i π =>
      cases w with
      | tuple vs => exact (hw vs rfl).elim
      | _ => cases h
  induction hp generalizing π with
  | pVar v => exact .inl (hleaf π h)
  | pWild => exact .inl (hleaf π h)
  | pPar _ ih => exact ih h
  | @pTuple t _ ih =>
    rw [fill_pTuple] at h
    cases π with
    | nil => exact .inr ⟨_, (Option.some.inj h).symm⟩
    | cons i π =>
      rw [componentAt, List.getElem?_map] at h
      cases hq : t.toList[i]? with
      | none =>
        rw [hq] at h
        cases h
      | some q =>
        rw [hq] at h
        exact ih q (List.mem_of_getElem? hq) h

end Fill

/-! ### The result -/

/-- The declarations, evaluated one after the other. -/
def evalDeclarations (I : Interpretation) : List AstSimplified.Declaration → Env →
    AstSimplified.Answer Env
  | [], ρ => .ok ρ
  | .declarationType _ _ :: ds, ρ => evalDeclarations I ds ρ
  | .declarationConstant name _ expr :: ds, ρ => do
    let (v, ρ) ← eval I expr ρ
    evalDeclarations I ds ((name, v) :: ρ)

/-- In `ρ`, each variable of the pattern is bound to the component of `v` at its position. -/
def BindsComponents (p : Pattern) (v : Value) (ρ : Env) : Prop :=
  ∀ x ∈ positions p, lookup x.1 ρ = componentAt x.2 v

/-- A `let` of the pattern, in an expression or as the declaration of a program, binds its
variables to the components of the value of the right-hand side. -/
structure Destructures (p : Pattern) : Prop where
  letIn : ∀ n rhs body rhs' body', simplExpression none rhs = pure rhs' →
    simplExpression none body = pure body' →
    ∃ e n' r, letExpr (.pattern p none (pure rhs)) (pure body) n = .ok (e, n') ∧
      simplExpression none e = pure r ∧ ∀ I ρ v ρ₁, eval I rhs' ρ = .ok (v, ρ₁) → Matches p v →
        ∃ ρ', Enters I r ρ body' ρ' ∧ BindsComponents p v ρ'
  declaration : ∀ n region rhs rhs', simplExpression none rhs = pure rhs' →
    ∃ ast n' prog,
      program ⟨⟨region, .let' (.pattern p none (pure rhs))⟩, []⟩ n = .ok (ast, n') ∧
      simplProgram ast = pure prog ∧ ∀ I ρ v ρ₁, eval I rhs' ρ = .ok (v, ρ₁) → Matches p v →
        ∃ ρ', evalDeclarations I (prog.map Reg.value) ρ = .ok ρ' ∧ BindsComponents p v ρ'

variable {p : Pattern} {t : Nseq Pattern}

/-- A variable alone is bound to the whole value. -/
theorem bindsComponents_of_flat {y : String} (hy : ∀ x ∈ positions p, x = (y, [])) (v : Value)
    (ρ : Env) : BindsComponents p v ((y, v) :: ρ) := by
  intro x hx
  rw [hy x hx]
  exact if_pos rfl

/-- A pattern without variables in tuples binds at most one name, to the whole value. -/
theorem destructures_of_flat (hp : TuplePattern p) (h : ∀ x ∈ positions p, x.2 = []) :
    Destructures p where
  letIn n rhs body rhs' body' hrhs hbody := by
    obtain ⟨y, m, hsplit, hy⟩ := splitPattern_of_flat hp h n
    have hbinding : letBinding (.pattern p none (pure rhs)) n = .ok ((⟨y, none, rhs⟩, []), m) :=
      bind_run_eq_ok.2 ⟨rhs, n, rfl, bind_run_eq_ok.2 ⟨(y, none, []), m, hsplit, rfl⟩⟩
    refine ⟨.eLetIn y none rhs body, m, .eLetIn y none rhs' body', ?_, ?_, ?_⟩
    · exact bind_run_eq_ok.2 ⟨_, m, hbinding, rfl⟩
    · refine bind_eq_pure.2 ⟨none, rfl, bind_eq_pure.2 ⟨rhs', hrhs, ?_⟩⟩
      exact bind_eq_pure.2 ⟨body', hbody, rfl⟩
    · intro I ρ v ρ₁ hv _
      exact ⟨_, .letIn hv .here, bindsComponents_of_flat hy v ρ₁⟩
  declaration n region rhs rhs' hrhs := by
    obtain ⟨y, m, hsplit, hy⟩ := splitPattern_of_flat hp h n
    have hbinding : letBinding (.pattern p none (pure rhs)) n = .ok ((⟨y, none, rhs⟩, []), m) :=
      bind_run_eq_ok.2 ⟨rhs, n, rfl, bind_run_eq_ok.2 ⟨(y, none, []), m, hsplit, rfl⟩⟩
    refine ⟨⟨⟨⟨region, .let' ⟨y, none, rhs⟩⟩, []⟩⟩, m, [⟨region, .declarationConstant y none rhs'⟩],
      ?_, ?_, ?_⟩
    · exact bind_run_eq_ok.2 ⟨_, m, bind_run_eq_ok.2 ⟨_, m, hbinding, rfl⟩, rfl⟩
    · refine mapListRev_eq_pure.2 (.cons ?_ .nil)
      exact bind_eq_pure.2 ⟨none, rfl, bind_eq_pure.2 ⟨rhs', hrhs, rfl⟩⟩
    · intro I ρ v ρ₁ hv _
      refine ⟨(y, v) :: ρ₁, ?_, bindsComponents_of_flat hy v ρ₁⟩
      show eval I rhs' ρ >>= _ = _
      rw [hv]
      rfl

/-- The value of the shape of a tuple whose component `i` differs from the others at its
leaves. -/
def marked (i : ℕ) (t : Nseq Pattern) : Value :=
  .tuple (t.toList.mapIdx fun j q => fill (.literal (.bool (decide (j = i)))) q)

/-- The components of the marked tuple tell the position `i` from the others. -/
theorem componentAt_marked (i j : ℕ) (π : List ℕ) (t : Nseq Pattern) :
    componentAt (j :: π) (marked i t) =
      t.toList[j]? >>= fun q => componentAt π (fill (.literal (.bool (decide (j = i)))) q) := by
  rw [marked, componentAt, List.getElem?_mapIdx]
  cases t.toList[j]? <;> rfl

/-- The marked tuple matches the pattern. -/
theorem matches_marked (ht : ∀ p ∈ t.toList, TuplePattern p) (i : ℕ) :
    Matches (.pTuple t) (marked i t) := by
  rw [marked, matches_pTuple, List.forall₂_iff_get]
  refine ⟨List.length_mapIdx.symm, fun j h₁ h₂ => ?_⟩
  rw [List.get_eq_getElem, List.get_eq_getElem, List.getElem_mapIdx]
  exact matches_fill (ht _ (List.getElem_mem _)) _

/-- A variable in a tuple is bound to another component, or to none. -/
theorem not_destructures_pTuple (ht : ∀ p ∈ t.toList, TuplePattern p)
    (hne : positions (.pTuple t) ≠ []) : ¬ Destructures (.pTuple t) := by
  intro h
  -- the variable whose projection comes first, and the component where it stands
  obtain hnil | ⟨l, x, hl⟩ := (SortedMap.ofList (positions (.pTuple t))).eq_nil_or_concat'
  · exact SortedMap.ofList_ne_nil hne hnil
  have hmem : ∀ y ∈ l ++ [x], y ∈ positions (.pTuple t) := fun y hy =>
    SortedMap.mem_ofList (hl ▸ hy)
  have hx := hmem x (List.mem_append_right _ List.mem_cons_self)
  obtain ⟨i, q, π, hq, hqx, hπ⟩ := mem_componentPositions (positions_pTuple t ▸ hx)
  rw [Nat.zero_add] at hπ
  have hsorted := SortedMap.ofList_sorted (positions (.pTuple t))
  have hnotMem : x.1 ∉ l.map Prod.fst := by
    rw [hl] at hsorted
    intro hmem
    obtain ⟨y, hy, hyx⟩ := List.mem_map.1 hmem
    exact ((List.pairwise_append.1 hsorted).2.2 y hy x List.mem_cons_self).ne hyx
  have hpaths : ∀ y ∈ l ++ [x], y.2 ≠ [] := by
    intro y hy
    obtain ⟨_, _, _, -, -, hy⟩ := mem_componentPositions (positions_pTuple t ▸ hmem y hy)
    rw [hy]
    exact List.cons_ne_nil _ _
  obtain ⟨e, n', r, hparse, hsimpl, hbinds⟩ := h.letIn 0 (.eVar "value") .eUnit _ _ rfl rfl
  -- what the parser and the simplifier make of `let p = value in ()`
  obtain ⟨b, m, hb, hparse⟩ := bind_run_eq_ok.1 hparse
  cases hparse
  obtain ⟨rhs, m, hrhs, hb⟩ := bind_run_eq_ok.1 hb
  cases hrhs
  obtain ⟨b', m', hs, hb⟩ := bind_run_eq_ok.1 hb
  obtain ⟨fresh, rfl⟩ := splitPattern_pTuple_run ht hs
  cases hb
  obtain ⟨te, hte, hsimpl⟩ := bind_eq_pure.1 hsimpl
  cases hte
  obtain ⟨rhs', hrhs', hsimpl⟩ := bind_eq_pure.1 hsimpl
  cases hrhs'
  obtain ⟨c, hc, hsimpl⟩ := bind_eq_pure.1 hsimpl
  cases hsimpl
  rw [hl] at hc
  rw [simplExpression_chain hpaths rfl hc] at hbinds
  -- its evaluation on a value that tells the component from the next one
  have heval : eval noInterpretation (.eVariable "value") [("value", marked i t)] =
      .ok (marked i t, [("value", marked i t)]) := rfl
  obtain ⟨ρ', henters, hcomponents⟩ := hbinds noInterpretation _ _ _ heval (matches_marked ht i)
  cases henters with
  | letIn hrhs henters =>
    have hvalue := heval.symm.trans hrhs
    cases hvalue
    have hfresh : lookup fresh ((fresh, marked i t) :: [("value", marked i t)]) =
        some (marked i t) := if_pos rfl
    obtain ⟨w, hw, hlookup⟩ := lookup_of_enters hnotMem hfresh henters
    rw [hcomponents x hx, hπ, componentAt_marked, hq] at hlookup
    have hmarked := (componentAt_of_mem (ht q (List.mem_of_getElem? hq)) hqx).symm.trans hlookup
    cases hmarked
    rw [hπ, List.map_cons, componentAt_marked, decide_eq_true (rfl : i = i),
      decide_eq_false (Nat.succ_ne_self i)] at hw
    obtain ⟨q', hq', hw⟩ := Option.bind_eq_some_iff.1 hw
    have hleaf : ∀ vs, Value.literal (.bool false) ≠ .tuple vs := nofun
    rcases componentAt_fill (ht q' (List.mem_of_getElem? hq')) hleaf hw with h | ⟨vs, h⟩
    · cases h
    · cases h

/-- A pattern binds its variables to their components exactly when none of them lies in a
tuple. -/
theorem destructures_iff (hp : TuplePattern p) :
    Destructures p ↔ ∀ x ∈ positions p, x.2 = [] := by
  refine ⟨fun h => ?_, destructures_of_flat hp⟩
  induction hp with
  | pVar v =>
    intro x hx
    rw [List.mem_singleton.1 hx]
  | pWild => exact nofun
  | pPar _ ih => exact ih ⟨h.letIn, h.declaration⟩
  | @pTuple t ht _ =>
    by_cases hnil : positions (.pTuple t) = []
    · rw [hnil]
      exact nofun
    · exact (not_destructures_pTuple ht hnil h).elim

/-- `let (x, y) = ..` does not bind `x` and `y` to the components of a pair. -/
theorem not_destructures_pair :
    ¬ Destructures (.pPar (.pTuple ⟨.pVar "x", [.pVar "y"]⟩)) := by
  have hp : TuplePattern (.pPar (.pTuple ⟨.pVar "x", [.pVar "y"]⟩)) :=
    .pPar (.pTuple (List.forall_mem_cons.2 ⟨.pVar "x", List.forall_mem_singleton.2 (.pVar "y")⟩))
  rw [destructures_iff hp]
  intro h
  have hx := h ("x", [0]) List.mem_cons_self
  cases hx

/-- `let ((x)) = ..` binds `x` to the value. -/
theorem destructures_variable : Destructures (.pPar (.pPar (.pVar "x"))) :=
  (destructures_iff (.pPar (.pPar (.pVar "x")))).2 fun x hx => by rw [List.mem_singleton.1 hx]

end Ligo.Simplify.Ligodity
