import Ligo.Compiler.Capture
import Ligo.Michelson.Typing

/-!
# The layout of closures

Three functions say which type the values that a closure captures have together:
`Environment.closureRepresentation` for the types of the intermediate language,
`environmentRepresentation` and `environmentClosure` for Michelson. The first one nests
the types to the left, the other two to the right; `pack` builds a pair that is nested to
the left, while `packSelect` and `unpack` build and take apart pairs that are nested to
the right.

All of them agree (`LayoutAgrees`) exactly on the environments with one or two bindings
(`layoutAgrees_iff`), where a pair of two types has to be within the limit on the size of
types, as all pairs that the code makes. The empty environment has a type by the first two functions only,
and from three bindings on the two ways of nesting differ (`nestLeft_ne_nestRight`).
-/

namespace Ligo

open MiniC Michelson
open Fuel (bind_eq_ok map₂_eq_ok)

/-! ### Two ways to nest -/

/-- The product of the types, nested to the right. -/
def nestRight : StackTy → Michelson.Ty
  | [] => .unit
  | [t] => t
  | t :: ts => .pair t (nestRight ts)

/-- The product of the types, nested to the left. -/
def nestLeft : StackTy → Michelson.Ty
  | [] => .unit
  | t :: ts => ts.foldl .pair t

/-- A product has at least the size of its first type. -/
theorem size_le_foldl_pair (ts : StackTy) (t : Michelson.Ty) :
    t.size ≤ (ts.foldl .pair t).size := by
  induction ts generalizing t with
  | nil => exact Nat.le_refl _
  | cons u ts ih =>
    have h : t.size ≤ (Michelson.Ty.pair t u).size := by
      simp only [Michelson.Ty.size]
      omega
    exact h.trans (ih (.pair t u))

/-- A product of three or more types is not nested both ways: the left component of the
one is the first type, the left component of the other contains it. -/
theorem nestLeft_ne_nestRight (t u v : Michelson.Ty) (ts : StackTy) :
    nestLeft (t :: u :: v :: ts) ≠ nestRight (t :: u :: v :: ts) := by
  intro h
  -- split the last type off the left nesting
  obtain ⟨init, last, hlast⟩ : ∃ init last, v :: ts = init ++ [last] :=
    ⟨(v :: ts).dropLast, (v :: ts).getLast (by simp), (List.dropLast_append_getLast _).symm⟩
  have hleft : nestLeft (t :: u :: v :: ts) =
      .pair (init.foldl .pair (.pair t u)) last := by
    rw [nestLeft, List.foldl_cons, hlast, List.foldl_append]
    rfl
  have hright : nestRight (t :: u :: v :: ts) = .pair t (nestRight (u :: v :: ts)) := rfl
  rw [hleft, hright] at h
  have hfirst := (Michelson.Ty.pair.inj h).1
  have hsize := size_le_foldl_pair init (.pair t u)
  rw [hfirst, Michelson.Ty.size] at hsize
  omega

/-! ### The types of an environment -/

namespace CompilerType.Ty

theorem environment_cons {x : String × TypeValue} {e : Environment} {s : StackTy}
    (h : environment (x :: e) = .ok s) :
    ∃ t ts, type_ x.2 = .ok t ∧ environment e = .ok ts ∧ s = t :: ts := by
  rw [environment, List.mapM_cons] at h
  obtain ⟨t, ts, ht, hts, rfl⟩ := map₂_eq_ok.1 h
  exact ⟨t, ts, ht, hts, rfl⟩

theorem environment_length {e : Environment} {s : StackTy} (h : environment e = .ok s) :
    s.length = e.length := by
  induction e generalizing s with
  | nil =>
    cases h
    rfl
  | cons x e ih =>
    obtain ⟨t, ts, -, hts, rfl⟩ := environment_cons h
    exact congrArg (· + 1) (ih hts)

theorem environment_keep {e : Environment} {s : StackTy} (h : environment e = .ok s)
    (bs : List Bool) : environment (Scope.keep bs e) = .ok (Scope.keep bs s) := by
  induction e generalizing s bs with
  | nil =>
    cases h
    rcases bs with _ | ⟨_ | _, bs⟩ <;> rfl
  | cons x e ih =>
    obtain ⟨t, ts, ht, hts, rfl⟩ := environment_cons h
    -- a flag decides whether the type on top stays
    cases bs with
    | nil => rfl
    | cons b bs =>
      have ih := ih hts bs
      cases b with
      | false => exact ih
      | true =>
        change environment (x :: Scope.keep bs e) = .ok (t :: Scope.keep bs ts)
        rw [environment] at ih ⊢
        rw [List.mapM_cons, ht, ih]
        rfl

/-- The Michelson type of a closure's environment is nested to the right. -/
theorem environmentRepresentation_eq {e : Environment} {s : StackTy}
    (h : environment e = .ok s) : environmentRepresentation e = .ok (nestRight s) := by
  induction e generalizing s with
  | nil =>
    cases h
    rfl
  | cons x e ih =>
    obtain ⟨t, ts, ht, hts, rfl⟩ := environment_cons h
    have ih := ih hts
    -- the last type stands alone, as in the representation
    cases e with
    | nil =>
      cases hts
      exact ht
    | cons y e =>
      obtain ⟨u, us, -, -, rfl⟩ := environment_cons hts
      change (type_ x.2 >>= fun a => environmentRepresentation (y :: e) >>= fun b =>
        Except.ok (Michelson.Ty.pair a b)) = _
      rw [ht, ih]
      rfl

/-- The type that the transpiler gives to a closure's environment is nested to the
left. -/
theorem type_closureRepresentation {e : Environment} {s : StackTy}
    (h : environment e = .ok s) :
    type_ (Environment.closureRepresentation e) = .ok (nestLeft s) := by
  cases e with
  | nil =>
    cases h
    rfl
  | cons x e =>
    obtain ⟨t, ts, ht, hts, rfl⟩ := environment_cons h
    -- the type so far is the accumulator of both folds
    suffices hfold : ∀ (e : Environment) (ts : StackTy) (acc : TypeValue) (t : Michelson.Ty),
        environment e = .ok ts → type_ acc = .ok t →
        type_ (e.foldl (fun acc cur => .tPair acc cur.2) acc) = .ok (ts.foldl .pair t) by
      have hrepr : Environment.closureRepresentation (x :: e) =
          e.foldl (fun acc cur => .tPair acc cur.2) x.2 := by
        cases e <;> rfl
      rw [hrepr]
      exact hfold e ts x.2 t hts ht
    intro e
    induction e with
    | nil =>
      intro ts acc t hts ht
      cases hts
      exact ht
    | cons y e ih =>
      intro ts acc t hts ht
      obtain ⟨u, us, hu, hus, rfl⟩ := environment_cons hts
      refine ih us _ _ hus ?_
      change (type_ acc >>= fun a => type_ y.2 >>= fun b =>
        Except.ok (Michelson.Ty.pair a b)) = _
      rw [ht, hu]
      rfl

end CompilerType.Ty

/-! ### The types of the packing code -/

namespace CompilerEnvironment

variable {ctx : Context}

/-- `pack` nests to the left. Only pairs have to be within the limit. -/
theorem types_packCode {e : Environment} {s : StackTy} (hlen : s.length = e.length)
    (hne : e ≠ []) (hadmits : 2 ≤ s.length → ctx.admits (nestLeft s) = true) :
    Types ctx (packCode e) s [nestLeft s] := by
  cases e with
  | nil => exact absurd rfl hne
  | cons x e =>
    obtain ⟨t, ts, rfl⟩ := List.exists_cons_of_length_eq_add_one hlen
    have hts : ts.length = e.length := Nat.succ.inj hlen
    replace hadmits : ts ≠ [] → ctx.admits (ts.foldl .pair t) = true := fun hts =>
      hadmits (Nat.succ_le_succ (List.length_pos_iff.2 hts))
    -- the types so far are paired up below the next one
    change Types ctx (seq (e.map fun _ => iPair)) (t :: ts) [ts.foldl .pair t]
    clear hne hlen
    induction e generalizing t ts with
    | nil =>
      obtain rfl := List.length_eq_zero_iff.1 hts
      exact types_nil
    | cons y e ih =>
      obtain ⟨u, ts, rfl⟩ := List.exists_cons_of_length_eq_add_one hts
      have hfold : ctx.admits (ts.foldl .pair (.pair t u)) = true := hadmits (by simp)
      -- what is built on the way is a part of the whole type
      have hpair := Context.admits_of_size_le hfold (size_le_foldl_pair ts (.pair t u))
      exact (types_iPair hpair).cons
        (ih (.pair t u) ts (Nat.succ.inj hts) fun _ => hfold)

/-- `packSelect` nests the types of the bindings it keeps to the right. -/
theorem types_packSelectCode (eLst : List ((String × TypeValue) × Bool)) {s : StackTy}
    (h : s.length = eLst.length) (hne : Scope.keep (eLst.map Prod.snd) s ≠ [])
    (hadmits : 2 ≤ (Scope.keep (eLst.map Prod.snd) s).length →
      ctx.admits (nestRight (Scope.keep (eLst.map Prod.snd) s)) = true) :
    Types ctx (packSelectCode eLst) s
      (nestRight (Scope.keep (eLst.map Prod.snd) s) :: s) := by
  induction eLst generalizing s with
  | nil =>
    obtain rfl := List.length_eq_zero_iff.1 h
    exact absurd rfl hne
  | cons x eLst ih =>
    obtain ⟨t, s, rfl⟩ := List.exists_cons_of_length_eq_add_one h
    have hlen : s.length = eLst.length := Nat.succ.inj h
    have hfirst := packSelectStep_first eLst hlen
    obtain ⟨b, f⟩ := x
    rw [packSelectCode, foldRight'_cons]
    set acc := foldRight' packSelectStep (true, seq []) eLst with hacc
    have hcode : packSelectCode eLst = acc.2 := rfl
    rw [List.map_cons] at hne hadmits ⊢
    cases f with
    | false =>
      have hacc := ih hlen hne hadmits
      rw [hcode] at hacc
      change Types ctx (seq [dip acc.2, iSwap]) (t :: s) _
      exact hacc.dip.cons types_iSwap.singleton
    | true =>
      cases hf : acc.1 with
      -- nothing is packed yet, so the value is the first of the closure
      | true =>
        have hnil := hfirst.1 hf
        simp only [packSelectStep, hf]
        change Types ctx iDup (t :: s) (nestRight (t :: Scope.keep (eLst.map Prod.snd) s) :: _)
        rw [hnil]
        exact types_iDup
      | false =>
        have hne : Scope.keep (eLst.map Prod.snd) s ≠ [] := by
          intro hnil
          rw [hfirst.2 hnil] at hf
          cases hf
        have hpair : ctx.admits (nestRight (t :: Scope.keep (eLst.map Prod.snd) s)) = true :=
          hadmits (Nat.succ_le_succ (List.length_pos_iff.2 hne))
        obtain ⟨u, us, hus⟩ := List.exists_cons_of_ne_nil hne
        rw [hus] at hpair
        have hacc := ih hlen hne fun _ => hus ▸ Context.admits_snd hpair
        rw [hcode] at hacc
        simp only [packSelectStep, hf]
        change Types ctx (seq [dip acc.2, iDup, dip iPair, iSwap]) (t :: s)
          (nestRight (t :: Scope.keep (eLst.map Prod.snd) s) :: _)
        rw [hus] at hacc ⊢
        exact hacc.dip.cons (types_iDup.cons ((types_iPair hpair).dip.cons types_iSwap.singleton))

/-- `unpack` takes apart what is nested to the right. -/
theorem types_unpackCode {s : StackTy} (hne : s ≠ []) :
    Types ctx (unpackCode (s.length - 1)) [nestRight s] s := by
  suffices h : ∀ (s : StackTy) (t : Michelson.Ty),
      Types ctx (unpackCode s.length) [nestRight (t :: s)] (t :: s) by
    obtain ⟨t, s, rfl⟩ := List.exists_cons_of_ne_nil hne
    exact h s t
  intro s
  induction s with
  | nil => exact fun _ => types_nil
  | cons u s ih => exact fun t => types_iUnpair.cons (ih u).dip.singleton

/-! ### Agreement -/

/-- The functions that lay out the environment `e` of a closure agree on its type `t`,
and the code that packs and unpacks it fits this type. -/
structure LayoutOf (ctx : Context) (e : Environment) (s : StackTy) (t : Michelson.Ty) :
    Prop where
  representation : CompilerType.Ty.environmentRepresentation e = .ok t
  /-- The two translations to Micheline have one result as well. -/
  closure : ∀ n, CompilerType.type_ (Environment.closureRepresentation e) = .ok n ↔
    CompilerType.environmentClosure e = .ok n
  pack : parseMichelson ctx (packCode e) s [t] = true
  packSelect : ∀ (source : Environment) (lst : List String) (bef : StackTy),
    Environment.select lst source = e → CompilerType.Ty.environment source = .ok bef →
    parseMichelson ctx (captureCode source lst) bef (t :: bef) = true
  unpack : parseMichelson ctx (loadCode e) [t] s = true

/-- Every way to lay out `e` gives the type of `closureRepresentation e`. -/
def LayoutAgrees (ctx : Context) (e : Environment) : Prop :=
  ∀ s t, CompilerType.Ty.environment e = .ok s →
    CompilerType.Ty.type_ (Environment.closureRepresentation e) = .ok t →
    LayoutOf ctx e s t

/-- The captured pair has the type of the environment that is loaded, nested to the
right. -/
theorem types_captureCode {source : Environment} {lst : List String} {bef s : StackTy}
    (hbef : CompilerType.Ty.environment source = .ok bef)
    (hs : CompilerType.Ty.environment (Environment.select lst source) = .ok s)
    (hne : s ≠ []) (hadmits : 2 ≤ s.length → ctx.admits (nestRight s) = true) :
    Types ctx (captureCode source lst) bef (nestRight s :: bef) := by
  -- the stack keeps the flagged types, and the flags are those of the environment
  have hflags : (Environment.selected lst source).map Prod.snd =
      Scope.flags lst (Scope.names source) := Environment.map_snd_selected lst source
  have hkeep : s = Scope.keep (Scope.flags lst (Scope.names source)) bef := by
    rw [Environment.select_eq] at hs
    have h := CompilerType.Ty.environment_keep hbef (Scope.flags lst (Scope.names source))
    exact Except.ok.inj (hs.symm.trans h)
  have hlen : bef.length = (Environment.selected lst source).length := by
    have hflen := congrArg List.length hflags
    rw [List.length_map, Scope.length_flags, Scope.length_names] at hflen
    rw [CompilerType.Ty.environment_length hbef, hflen]
  have htypes := @types_packSelectCode ctx (Environment.selected lst source) bef hlen
  rw [hflags, ← hkeep] at htypes
  exact htypes hne hadmits

/-- Where the two ways of nesting give one type, everything fits. -/
theorem layoutOf_of_nest_eq {e : Environment} {s : StackTy}
    (hs : CompilerType.Ty.environment e = .ok s) (hne : e ≠ [])
    (hnest : nestLeft s = nestRight s)
    (hadmits : 2 ≤ s.length → ctx.admits (nestRight s) = true)
    (hclosure : ∀ n, CompilerType.type_ (Environment.closureRepresentation e) = .ok n ↔
      CompilerType.environmentClosure e = .ok n) :
    LayoutOf ctx e s (nestRight s) := by
  have hlen := CompilerType.Ty.environment_length hs
  have hsne : s ≠ [] := by
    rintro rfl
    exact hne (List.length_eq_zero_iff.1 hlen.symm)
  -- the three codes pack, capture and load the same nest of types
  refine ⟨CompilerType.Ty.environmentRepresentation_eq hs, hclosure, ?_, ?_, ?_⟩
  · rw [parseMichelson_iff, ← hnest]
    exact types_packCode hlen hne (hnest ▸ hadmits)
  · rintro source lst bef rfl hbef
    rw [parseMichelson_iff]
    exact types_captureCode hbef hs hsne hadmits
  · rw [parseMichelson_iff, loadCode, ← hlen]
    exact types_unpackCode hsne

/-- The layouts agree exactly on the environments with one binding, and on those with two
whose pair is within the limit on the size of types. -/
theorem layoutAgrees_iff (e : Environment) :
    LayoutAgrees ctx e ↔
      ∀ s, CompilerType.Ty.environment e = .ok s →
        e.length = 1 ∨ e.length = 2 ∧ ctx.admits (nestRight s) = true := by
  constructor
  · intro h s hs
    have hlayout := h s _ hs (CompilerType.Ty.type_closureRepresentation hs)
    have hrepr := hlayout.representation
    rw [CompilerType.Ty.environmentRepresentation_eq hs] at hrepr
    have hlen := CompilerType.Ty.environment_length hs
    match e, s, hlen with
    | [], [], _ =>
      -- only two of the three functions have a type for the empty environment
      have hclosure := (hlayout.closure _).1 rfl
      cases hclosure
    | [_], [_], _ => exact Or.inl rfl
    | [_, _], [_, _], _ =>
      obtain ⟨_, hpair, -⟩ := (parseMichelson_iff.1 hlayout.pack).of_cons
      obtain ⟨_, _, _, hbef, -, hadmits⟩ := hpair.of_iPair
      cases hbef
      exact Or.inr ⟨rfl, hadmits⟩
    | _ :: _ :: _ :: _, t :: u :: v :: ts, _ =>
      exact absurd (Except.ok.inj hrepr).symm (nestLeft_ne_nestRight t u v ts)
  · intro h s t hs ht
    rw [CompilerType.Ty.type_closureRepresentation hs] at ht
    have hlen := CompilerType.Ty.environment_length hs
    obtain rfl := Except.ok.inj ht
    rcases h s hs with hone | ⟨htwo, hadmits⟩
    · obtain ⟨x, rfl⟩ := List.length_eq_one_iff.1 hone
      obtain ⟨t, rfl⟩ := List.length_eq_one_iff.1 (hlen.trans hone)
      exact layoutOf_of_nest_eq hs (by simp) rfl (by simp) fun _ => Iff.rfl
    · obtain ⟨x, y, rfl⟩ := List.length_eq_two.1 htwo
      obtain ⟨t, u, rfl⟩ := List.length_eq_two.1 (hlen.trans htwo)
      exact layoutOf_of_nest_eq hs (by simp) rfl (fun _ => hadmits) fun _ => Iff.rfl

/-- Three captured integers. -/
theorem layout_of_three :
    ¬ LayoutAgrees Context.empty [("x", .tBase .int), ("y", .tBase .int), ("z", .tBase .int)] := by
  intro h
  have hlayout := h [.comparable .int, .comparable .int, .comparable .int] _ rfl rfl
  cases hlayout.representation

end CompilerEnvironment

end Ligo
