import Ligo.Compiler.Uncompiler

/-!
# Compiling and uncompiling values

A first-order value of the intermediate language (`HasType`) is compiled to a datum, read
as a typed Michelson value, and uncompiled. What comes back is its mirror image
(`uncompile_compile`): every list, at every depth, is reversed, and everything else is as
it was. A Michelson value (`Typed`) that is uncompiled and compiled again is mirrored as
well (`compile_uncompile`).

So the two translations are inverse to each other exactly on the values that are their
own mirror images (`roundTrips_iff`).
-/

namespace Michelson

/-! ### Typed Michelson values -/

mutual

/-- Reverse every list in a value. -/
def Value.mirror {F : Type} : Value F → Value F
  | .pair a b => .pair a.mirror b.mirror
  | .left a => .left a.mirror
  | .right b => .right b.mirror
  | .some a => .some a.mirror
  | .map m => .map (mirrorEntries m)
  | .list vs => .list (mirrorReversed vs)
  | v => v

/-- The mirror images of the elements, from the last one to the first. -/
def mirrorReversed {F : Type} : List (Value F) → List (Value F)
  | [] => []
  | v :: vs => mirrorReversed vs ++ [v.mirror]

/-- The mirror images of the values of a map. -/
def mirrorEntries {F : Type} : List (Atom × Value F) → List (Atom × Value F)
  | [] => []
  | (k, v) :: m => (k, v.mirror) :: mirrorEntries m

end

/-- The values of the comparable types that first-order values have. -/
inductive TypedAtom : ComparableTy → Atom → Prop
  | bool (b : Bool) : TypedAtom .bool (.bool b)
  | int (z : Int) : TypedAtom .int (.int z)
  | nat (n : Nat) : TypedAtom .nat (.nat n)
  | string (s : String) (hs : printableAscii s = true) : TypedAtom .string (.string s)

/-- The first-order values of a type. -/
inductive Typed {F : Type} : Ty → Value F → Prop
  | unit : Typed .unit .unit
  | atom {c : ComparableTy} {a : Atom} (ha : TypedAtom c a) : Typed (.comparable c) (.atom a)
  | pair {s t : Ty} {v w : Value F} (hv : Typed s v) (hw : Typed t w) :
      Typed (.pair s t) (.pair v w)
  | left {s t : Ty} {v : Value F} (hv : Typed s v) : Typed (.or s t) (.left v)
  | right {s t : Ty} {w : Value F} (hw : Typed t w) : Typed (.or s t) (.right w)
  | none (t : Ty) : Typed (.option t) .none
  | some {t : Ty} {v : Value F} (hv : Typed t v) : Typed (.option t) (.some v)
  | list {t : Ty} {vs : List (Value F)} (hvs : ∀ v ∈ vs, Typed t v) :
      Typed (.list t) (.list vs)
  | map {k : ComparableTy} {t : Ty} {m : List (Atom × Value F)}
      (hkeys : ∀ e ∈ m, TypedAtom k e.1) (hvals : ∀ e ∈ m, Typed t e.2)
      (hsorted : SortedMap.Sorted m) : Typed (.map k t) (.map m)

end Michelson

namespace Ligo

open Michelson
open Fuel (bind_eq_ok map_eq_ok map₂_eq_ok)

/-! ### First-order values -/

namespace MiniC

mutual

/-- Reverse every list in a value. -/
def Value.mirror : Value → Value
  | .dPair a b => .dPair a.mirror b.mirror
  | .dLeft a => .dLeft a.mirror
  | .dRight b => .dRight b.mirror
  | .dSome a => .dSome a.mirror
  | .dMap lst => .dMap (mirrorEntries lst)
  | .dList lst => .dList (mirrorReversed lst)
  | v => v

/-- The mirror images of the elements, from the last one to the first. -/
def mirrorReversed : List Value → List Value
  | [] => []
  | v :: vs => mirrorReversed vs ++ [v.mirror]

/-- The keys of a map hold no lists. -/
def mirrorEntries : List (Value × Value) → List (Value × Value)
  | [] => []
  | (k, v) :: lst => (k, v.mirror) :: mirrorEntries lst

end

/-- The key that a value denotes. -/
def Value.toKey : Value → Option Atom
  | .dInt n => some (.int n.val)
  | .dNat n => some (.nat n.val.toNat)
  | .dString s => some (.string s)
  | _ => none

/-- `v` is a first-order value of type `t`: its strings are strings of the chain, and the
keys of its maps ascend strictly. -/
inductive HasType : TypeValue → Value → Prop
  | unit : HasType (.tBase .unit) .dUnit
  | bool (b : Bool) : HasType (.tBase .bool) (.dBool b)
  | int (n : OInt) : HasType (.tBase .int) (.dInt n)
  | nat (n : OInt) (hn : 0 ≤ n.val) : HasType (.tBase .nat) (.dNat n)
  | string (s : String) (hs : printableAscii s = true) : HasType (.tBase .string) (.dString s)
  | pair {a b : TypeValue} {v w : Value} (hv : HasType a v) (hw : HasType b w) :
      HasType (.tPair a b) (.dPair v w)
  | left {a b : TypeValue} {v : Value} (hv : HasType a v) : HasType (.tOr a b) (.dLeft v)
  | right {a b : TypeValue} {w : Value} (hw : HasType b w) : HasType (.tOr a b) (.dRight w)
  | none (a : TypeValue) : HasType (.tOption a) .dNone
  | some {a : TypeValue} {v : Value} (hv : HasType a v) : HasType (.tOption a) (.dSome v)
  | list {a : TypeValue} {lst : List Value} (hlst : ∀ v ∈ lst, HasType a v) :
      HasType (.tList a) (.dList lst)
  | map {k a : TypeValue} {lst : List (Value × Value)} (hkeys : ∀ x ∈ lst, HasType k x.1)
      (hvals : ∀ x ∈ lst, HasType a x.2)
      (hsorted : (lst.filterMap fun x => x.1.toKey).Pairwise (· < ·)) :
      HasType (.tMap k a) (.dMap lst)

end MiniC

namespace CompilerProgram

open MiniC

variable {ctx : Context}

/-! ### Compiling, then uncompiling -/

/-- `v` is compiled, read at `τ` and uncompiled to `v'`. -/
def ComesBackAs (ctx : Context) (τ : Ty) (v v' : MiniC.Value) : Prop :=
  ∃ n w, translateValue ctx v = .ok n ∧ readData ctx τ n = some w ∧
    Uncompiler.translateValue ctx τ w = .ok v'

variable (ctx) in
/-- A key comes back as it was. -/
theorem comesBack_key {k : TypeValue} {c : ComparableTy}
    (hk : CompilerType.Ty.comparableType k = .ok c) {v : MiniC.Value} (hv : HasType k v) :
    ∃ n a, translateValue ctx v = .ok n ∧ readData ctx (.comparable c) n = some (.atom a) ∧
      v.toKey = some a ∧ Uncompiler.translateAtom ctx c a = .ok v := by
  cases hv with
  | int n =>
    cases hk
    refine ⟨_, .int n.val, rfl, rfl, rfl, ?_⟩
    rw [Uncompiler.translateAtom, OInt.ofInt_val]
    rfl
  | nat n hn =>
    cases hk
    refine ⟨_, .nat n.val.toNat, rfl, ?_, rfl, ?_⟩
    -- a `nat` is read back only if it is not negative
    · rw [readData, if_pos hn]
    · rw [Uncompiler.translateAtom, Int.toNat_of_nonneg hn, OInt.ofInt_val]
      rfl
  | string s hs =>
    cases hk
    refine ⟨_, .string s, rfl, ?_, rfl, rfl⟩
    rw [readData, if_pos hs]
  | _ => cases hk

/-- The elements of a list come back in the reverse order. -/
theorem comesBack_list {τ : Ty} {lst : List MiniC.Value}
    (h : ∀ v ∈ lst, ComesBackAs ctx τ v v.mirror) :
    ∃ ns ws, translateValues ctx lst = .ok ns ∧ readItems ctx τ ns = some ws ∧
      Uncompiler.translateReversed ctx τ ws = .ok (mirrorReversed lst) := by
  induction lst with
  | nil => exact ⟨[], [], rfl, rfl, rfl⟩
  | cons v lst ih =>
    obtain ⟨n, w, hn, hw, hv⟩ := h v (by simp)
    obtain ⟨ns, ws, hns, hws, hlst⟩ := ih fun v hv => h v (List.mem_cons_of_mem _ hv)
    refine ⟨n :: ns, w :: ws, ?_, ?_, ?_⟩
    · rw [translateValues, hn, hns]
      rfl
    · rw [readItems, hw, hws]
      rfl
    · rw [Uncompiler.translateReversed, hlst, hv]
      rfl

/-- The entries of a map come back in their order. -/
theorem comesBack_entries {k : TypeValue} {c : ComparableTy} {τ : Ty}
    (hk : CompilerType.Ty.comparableType k = .ok c) {lst : List (MiniC.Value × MiniC.Value)}
    (hkeys : ∀ x ∈ lst, HasType k x.1) (h : ∀ x ∈ lst, ComesBackAs ctx τ x.2 x.2.mirror) :
    ∃ ns m, translateEntries ctx lst = .ok ns ∧ readEntries ctx c τ ns = some m ∧
      m.map Prod.fst = lst.filterMap (fun x => x.1.toKey) ∧
      Uncompiler.translateEntries ctx c τ m = .ok (mirrorEntries lst) := by
  induction lst with
  | nil => exact ⟨[], [], rfl, rfl, rfl, rfl⟩
  | cons x lst ih =>
    obtain ⟨x, v⟩ := x
    obtain ⟨nk, a, hnk, ha, hkey, hka⟩ := comesBack_key ctx hk (hkeys (x, v) (by simp))
    obtain ⟨n, w, hn, hw, hv⟩ := h (x, v) (by simp)
    obtain ⟨ns, m, hns, hm, hfst, hlst⟩ :=
      ih (fun x hx => hkeys x (List.mem_cons_of_mem _ hx))
        fun x hx => h x (List.mem_cons_of_mem _ hx)
    simp only at hnk hkey hn hv
    -- the two readings of one `Elt`, and the keys they agree on
    refine ⟨prim .dElt [nk, n] :: ns, (a, w) :: m, ?_, ?_, ?_, ?_⟩
    · rw [translateEntries, hnk, hn, hns]
      rfl
    · simp only [prim, readEntries, ha, hw, hm]
      rfl
    · rw [List.map_cons, hfst, List.filterMap_cons, hkey]
    · rw [Uncompiler.translateEntries, hka, hv, hlst]
      rfl

/-- A first-order value comes back as its mirror image. -/
theorem uncompile_compile {t : TypeValue} {v : MiniC.Value} (hv : HasType t v) {τ : Ty}
    (ht : CompilerType.Ty.type_ t = .ok τ) : ComesBackAs ctx τ v v.mirror := by
  -- a value of a comparable type is uncompiled like a key
  have hkey : ∀ {k : TypeValue} {c : ComparableTy} {v : MiniC.Value},
      CompilerType.Ty.comparableType k = .ok c → HasType k v → v.mirror = v →
      ComesBackAs ctx (.comparable c) v v.mirror := by
    intro k c v hk hv hmirror
    obtain ⟨n, a, hn, ha, -, hv⟩ := comesBack_key ctx hk hv
    rw [hmirror]
    exact ⟨n, .atom a, hn, ha, hv⟩
  induction hv generalizing τ with
  | unit =>
    cases ht
    exact ⟨_, .unit, rfl, rfl, rfl⟩
  | bool b =>
    cases ht
    exact ⟨_, .bool b, rfl, by cases b <;> rfl, rfl⟩
  | int n =>
    cases ht
    exact hkey rfl (.int n) rfl
  | nat n hn =>
    cases ht
    exact hkey rfl (.nat n hn) rfl
  | string s hs =>
    cases ht
    exact hkey rfl (.string s hs) rfl
  | pair _ _ ihv ihw =>
    obtain ⟨τ₁, τ₂, h₁, h₂, rfl⟩ := map₂_eq_ok.1 ht
    obtain ⟨n₁, w₁, hn₁, hw₁, hv₁⟩ := ihv h₁
    obtain ⟨n₂, w₂, hn₂, hw₂, hv₂⟩ := ihw h₂
    refine ⟨prim .dPair [n₁, n₂], .pair w₁ w₂, ?_, ?_, ?_⟩
    · rw [translateValue, hn₁, hn₂]
      rfl
    · simp only [prim, readData, hw₁, hw₂]
      rfl
    · rw [Uncompiler.translateValue, hv₁, hv₂]
      rfl
  | left _ ih =>
    obtain ⟨τ₁, τ₂, h₁, -, rfl⟩ := map₂_eq_ok.1 ht
    obtain ⟨n, w, hn, hw, hv⟩ := ih h₁
    refine ⟨prim .dLeft [n], .left w, ?_, ?_, ?_⟩
    · rw [translateValue, hn]
      rfl
    · simp only [prim, readData, hw]
      rfl
    · rw [Uncompiler.translateValue, hv]
      rfl
  | right _ ih =>
    obtain ⟨τ₁, τ₂, -, h₂, rfl⟩ := map₂_eq_ok.1 ht
    obtain ⟨n, w, hn, hw, hv⟩ := ih h₂
    refine ⟨prim .dRight [n], .right w, ?_, ?_, ?_⟩
    · rw [translateValue, hn]
      rfl
    · simp only [prim, readData, hw]
      rfl
    · rw [Uncompiler.translateValue, hv]
      rfl
  | none a =>
    obtain ⟨τ₁, -, rfl⟩ := map_eq_ok.1 ht
    exact ⟨_, .none, rfl, rfl, rfl⟩
  | some _ ih =>
    obtain ⟨τ₁, h₁, rfl⟩ := map_eq_ok.1 ht
    obtain ⟨n, w, hn, hw, hv⟩ := ih h₁
    refine ⟨prim .dSome [n], .some w, ?_, ?_, ?_⟩
    · rw [translateValue, hn]
      rfl
    · simp only [prim, readData, hw]
      rfl
    · rw [Uncompiler.translateValue, hv]
      rfl
  | list _ ih =>
    obtain ⟨τ₁, h₁, rfl⟩ := map_eq_ok.1 ht
    obtain ⟨ns, ws, hns, hws, hlst⟩ := comesBack_list fun v hv => ih v hv h₁
    refine ⟨seq ns, .list ws, ?_, ?_, ?_⟩
    · rw [translateValue, hns]
      rfl
    · simp only [seq, readData, hws]
      rfl
    · rw [Uncompiler.translateValue, hlst]
      rfl
  | map hkeys _ hsorted _ ih =>
    obtain ⟨c, τ₁, hc, h₁, rfl⟩ := map₂_eq_ok.1 ht
    obtain ⟨ns, m, hns, hm, hfst, hlst⟩ := comesBack_entries hc hkeys fun x hx => ih x hx h₁
    have hm' : SortedMap.Sorted m := by
      rw [← hfst, List.pairwise_map] at hsorted
      exact hsorted
    refine ⟨seq ns, .map m, ?_, ?_, ?_⟩
    · rw [translateValue, hns]
      rfl
    · simp only [seq, readData, hm]
      exact if_pos hm'
    · rw [Uncompiler.translateValue, hlst]
      rfl

/-! ### Uncompiling, then compiling -/

/-- `v` is compiled to a datum that is read as `w` at `τ`. -/
def CompilesTo (ctx : Context) (τ : Ty) (v : MiniC.Value) (w : Michelson.Value Node) : Prop :=
  ∃ n, translateValue ctx v = .ok n ∧ readData ctx τ n = some w

theorem ofInt_eq_ok {z : Int} {n : OInt}
    (h : traceOption "too big to fit an int" (OInt.ofInt z) = .ok n) : n.val = z := by
  have h := traceOption_eq_ok.1 h
  rw [OInt.ofInt] at h
  split at h
  · cases h
    rfl
  · cases h

variable (ctx) in
/-- An atom comes back as it was. -/
theorem compilesTo_atom {c : ComparableTy} {a : Atom} (ha : TypedAtom c a) {v : MiniC.Value}
    (hv : Uncompiler.translateAtom ctx c a = .ok v) :
    CompilesTo ctx (.comparable c) v (.atom a) := by
  cases ha with
  | bool b =>
    cases hv
    exact ⟨_, rfl, by cases b <;> rfl⟩
  | int z =>
    obtain ⟨n, hn, rfl⟩ := map_eq_ok.1 hv
    obtain rfl := ofInt_eq_ok hn
    exact ⟨_, rfl, rfl⟩
  | nat m =>
    obtain ⟨n, hn, rfl⟩ := map_eq_ok.1 hv
    have hval := ofInt_eq_ok hn
    refine ⟨_, rfl, ?_⟩
    -- a natural number passes the check of the sign
    rw [readData, if_pos (by omega), hval]
    rfl
  | string s hs =>
    cases hv
    refine ⟨_, rfl, ?_⟩
    rw [readData, if_pos hs]

theorem translateValues_append {lst : List MiniC.Value} {ns : List Node} {v : MiniC.Value}
    {n : Node} (hlst : translateValues ctx lst = .ok ns) (hv : translateValue ctx v = .ok n) :
    translateValues ctx (lst ++ [v]) = .ok (ns ++ [n]) := by
  induction lst generalizing ns with
  | nil =>
    cases hlst
    rw [List.nil_append, translateValues, hv]
    rfl
  | cons u lst ih =>
    obtain ⟨m, ms, hm, hms, rfl⟩ := map₂_eq_ok.1 hlst
    rw [List.cons_append, translateValues, hm, ih hms]
    rfl

theorem readItems_append {τ : Ty} {ns : List Node} {ws : List (Michelson.Value Node)}
    {n : Node} {w : Michelson.Value Node} (hns : readItems ctx τ ns = some ws)
    (hn : readData ctx τ n = some w) : readItems ctx τ (ns ++ [n]) = some (ws ++ [w]) := by
  induction ns generalizing ws with
  | nil =>
    cases hns
    rw [List.nil_append, readItems, hn]
    rfl
  | cons m ns ih =>
    rw [readItems] at hns
    obtain ⟨u, hu, hns⟩ := Option.bind_eq_some_iff.1 hns
    obtain ⟨us, hus, hns⟩ := Option.bind_eq_some_iff.1 hns
    cases hns
    rw [List.cons_append, readItems, hu, ih hus]
    rfl

/-- The elements of a list come back in the reverse order. -/
theorem compilesTo_list {τ : Ty} {ws : List (Michelson.Value Node)}
    (h : ∀ w ∈ ws, ∀ v, Uncompiler.translateValue ctx τ w = .ok v →
      CompilesTo ctx τ v w.mirror)
    {lst : List MiniC.Value} (hlst : Uncompiler.translateReversed ctx τ ws = .ok lst) :
    ∃ ns, translateValues ctx lst = .ok ns ∧ readItems ctx τ ns = some (mirrorReversed ws) := by
  induction ws generalizing lst with
  | nil =>
    cases hlst
    exact ⟨[], rfl, rfl⟩
  | cons w ws ih =>
    obtain ⟨tl, hd, htl, hhd, rfl⟩ := map₂_eq_ok.1 hlst
    obtain ⟨n, hn, hw⟩ := h w (by simp) hd hhd
    obtain ⟨ns, hns, hws⟩ := ih (fun w hw => h w (List.mem_cons_of_mem _ hw)) htl
    exact ⟨ns ++ [n], translateValues_append hns hn, readItems_append hws hw⟩

/-- The entries of a map come back in their order. -/
theorem compilesTo_entries {k : ComparableTy} {τ : Ty} {m : List (Atom × Michelson.Value Node)}
    (hkeys : ∀ e ∈ m, TypedAtom k e.1)
    (h : ∀ e ∈ m, ∀ v, Uncompiler.translateValue ctx τ e.2 = .ok v →
      CompilesTo ctx τ v e.2.mirror)
    {lst : List (MiniC.Value × MiniC.Value)}
    (hlst : Uncompiler.translateEntries ctx k τ m = .ok lst) :
    ∃ ns, translateEntries ctx lst = .ok ns ∧
      readEntries ctx k τ ns = some (Michelson.mirrorEntries m) := by
  induction m generalizing lst with
  | nil =>
    cases hlst
    exact ⟨[], rfl, rfl⟩
  | cons e m ih =>
    obtain ⟨a, w⟩ := e
    obtain ⟨x, hx, hlst⟩ := bind_eq_ok.1 hlst
    obtain ⟨v, tl, hv, htl, rfl⟩ := map₂_eq_ok.1 hlst
    obtain ⟨nk, hnk, ha⟩ := compilesTo_atom ctx (hkeys (a, w) (by simp)) hx
    obtain ⟨n, hn, hw⟩ := h (a, w) (by simp) v hv
    obtain ⟨ns, hns, hm⟩ := ih (fun e he => hkeys e (List.mem_cons_of_mem _ he))
      (fun e he => h e (List.mem_cons_of_mem _ he)) htl
    simp only at hw
    -- one `Elt` for each entry, in the order of the map
    refine ⟨prim .dElt [nk, n] :: ns, ?_, ?_⟩
    · rw [translateEntries, hnk, hn, hns]
      rfl
    · simp only [prim, readEntries, ha, hw, hm]
      rfl

theorem sorted_mirrorEntries {F : Type} {m : List (Atom × Michelson.Value F)}
    (h : SortedMap.Sorted m) : SortedMap.Sorted (Michelson.mirrorEntries m) := by
  have hfst : ∀ m : List (Atom × Michelson.Value F),
      (Michelson.mirrorEntries m).map Prod.fst = m.map Prod.fst := by
    intro m
    induction m with
    | nil => rfl
    | cons e m ih => exact congrArg (e.1 :: ·) ih
  have hpairwise := (List.pairwise_map (f := Prod.fst) (R := (· < ·))).2 h
  rw [← hfst] at hpairwise
  exact List.pairwise_map.1 hpairwise

/-- A first-order Michelson value comes back as its mirror image. -/
theorem compile_uncompile {τ : Ty} {w : Michelson.Value Node} (hw : Typed τ w)
    {v : MiniC.Value} (hv : Uncompiler.translateValue ctx τ w = .ok v) :
    CompilesTo ctx τ v w.mirror := by
  -- by induction on the typing of the value; lists and maps are reversed on the way back
  induction hw generalizing v with
  | unit =>
    cases hv
    exact ⟨_, rfl, rfl⟩
  | atom ha => exact compilesTo_atom ctx ha hv
  | pair _ _ ihv ihw =>
    obtain ⟨v₁, v₂, h₁, h₂, rfl⟩ := map₂_eq_ok.1 hv
    obtain ⟨n₁, hn₁, hw₁⟩ := ihv h₁
    obtain ⟨n₂, hn₂, hw₂⟩ := ihw h₂
    refine ⟨prim .dPair [n₁, n₂], ?_, ?_⟩
    · rw [translateValue, hn₁, hn₂]
      rfl
    · simp only [prim, readData, hw₁, hw₂]
      rfl
  | left _ ih =>
    obtain ⟨v₁, h₁, rfl⟩ := map_eq_ok.1 hv
    obtain ⟨n, hn, hw⟩ := ih h₁
    refine ⟨prim .dLeft [n], ?_, ?_⟩
    · rw [translateValue, hn]
      rfl
    · simp only [prim, readData, hw]
      rfl
  | right _ ih =>
    obtain ⟨v₁, h₁, rfl⟩ := map_eq_ok.1 hv
    obtain ⟨n, hn, hw⟩ := ih h₁
    refine ⟨prim .dRight [n], ?_, ?_⟩
    · rw [translateValue, hn]
      rfl
    · simp only [prim, readData, hw]
      rfl
  | none t =>
    cases hv
    exact ⟨_, rfl, rfl⟩
  | some _ ih =>
    obtain ⟨v₁, h₁, rfl⟩ := map_eq_ok.1 hv
    obtain ⟨n, hn, hw⟩ := ih h₁
    refine ⟨prim .dSome [n], ?_, ?_⟩
    · rw [translateValue, hn]
      rfl
    · simp only [prim, readData, hw]
      rfl
  | list _ ih =>
    obtain ⟨lst, hlst, rfl⟩ := map_eq_ok.1 hv
    obtain ⟨ns, hns, hws⟩ := compilesTo_list (fun w hw v => ih w hw) hlst
    refine ⟨seq ns, ?_, ?_⟩
    · rw [translateValue, hns]
      rfl
    · simp only [seq, readData, hws]
      rfl
  | map hkeys _ hsorted ih =>
    obtain ⟨lst, hlst, rfl⟩ := map_eq_ok.1 hv
    obtain ⟨ns, hns, hm⟩ := compilesTo_entries hkeys (fun e he v => ih e he) hlst
    refine ⟨seq ns, ?_, ?_⟩
    · rw [translateValue, hns]
      rfl
    · simp only [seq, readData, hm]
      exact if_pos (sorted_mirrorEntries hsorted)

/-! ### Inverses -/

/-- The two translations are inverse to each other exactly on the values that are their
own mirror images. -/
theorem roundTrips_iff :
    (∀ {t : TypeValue} {τ : Ty} {v : MiniC.Value}, HasType t v →
      CompilerType.Ty.type_ t = .ok τ → (ComesBackAs ctx τ v v ↔ v.mirror = v)) ∧
    ∀ {τ : Ty} {w : Michelson.Value Node} {v : MiniC.Value}, Typed τ w →
      Uncompiler.translateValue ctx τ w = .ok v → (CompilesTo ctx τ v w ↔ w.mirror = w) := by
  -- either way back gives the mirror image, and nothing else
  refine ⟨fun {t τ v} hv ht => ?_, fun {τ w v} hw hv => ?_⟩
  · obtain ⟨n, w, hn, hw, hmirror⟩ : ComesBackAs ctx τ v v.mirror := uncompile_compile hv ht
    constructor
    · rintro ⟨n', w', hn', hw', hback⟩
      obtain rfl := Except.ok.inj (hn.symm.trans hn')
      obtain rfl := Option.some.inj (hw.symm.trans hw')
      exact Except.ok.inj (hmirror.symm.trans hback)
    · intro h
      rw [h] at hmirror
      exact ⟨n, w, hn, hw, hmirror⟩
  · obtain ⟨n, hn, hmirror⟩ := compile_uncompile hw hv
    constructor
    · rintro ⟨n', hn', hback⟩
      obtain rfl := Except.ok.inj (hn.symm.trans hn')
      exact Option.some.inj (hmirror.symm.trans hback)
    · intro h
      rw [h] at hmirror
      exact ⟨n, hn, hmirror⟩

/-- The list of some integers. -/
def intList (lst : List OInt) : MiniC.Value := .dList (lst.map .dInt)

theorem hasType_intList (lst : List OInt) : HasType (.tList (.tBase .int)) (intList lst) := by
  refine .list fun v hv => ?_
  obtain ⟨n, -, rfl⟩ := List.mem_map.1 hv
  exact .int n

def one : OInt := ⟨1, OInt.one_mem⟩
def two : OInt := ⟨2, by decide⟩

/-- A list that reads the same in both directions comes back. -/
theorem palindrome_comes_back :
    ComesBackAs Context.empty (.list (.comparable .int)) (intList [one, two, one])
        (intList [one, two, one]) ∧
      CompilesTo Context.empty (.list (.comparable .int)) (intList [one, two, one])
        (.list [.int 1, .int 2, .int 1]) := by
  have htyped : Typed (.list (.comparable .int))
      (.list [.int 1, .int 2, .int 1] : Michelson.Value Node) := by
    refine .list fun v hv => ?_
    simp only [List.mem_cons, List.not_mem_nil, or_false] at hv
    rcases hv with rfl | rfl | rfl
    · exact .atom (.int 1)
    · exact .atom (.int 2)
    · exact .atom (.int 1)
  exact ⟨(roundTrips_iff.1 (hasType_intList [one, two, one]) rfl).2 rfl,
    (roundTrips_iff.2 htyped rfl).2 rfl⟩

/-- A list of two different elements does not. -/
theorem pair_comes_back_reversed :
    HasType (.tList (.tBase .int)) (intList [one, two]) ∧
      ¬ ComesBackAs Context.empty (.list (.comparable .int)) (intList [one, two])
        (intList [one, two]) := by
  refine ⟨hasType_intList [one, two], ?_⟩
  rintro ⟨n, w, hn, hw, hback⟩
  cases hn
  cases hw
  cases hback

end CompilerProgram

end Ligo
