import Ligo.Compiler.EnvironmentRun

/-!
# Closures capture

A closure is created by packing the bindings that a list of free variables selects
(`captureCode`), and its body starts by unpacking them (`loadCode`). Inside the body a
variable should have the value that it has where the closure is created
(`CapturesVisible`).

* `step_captureCode` and `step_loadCode` run the two pieces of code: what is loaded is
  what was selected, whatever the environment is.
* The selection hands the listed names out from the oldest binding on, while a variable
  denotes the newest one. So the bindings that count are captured exactly when every
  listed name is listed as often as it is bound (`capturesVisible_iff`).
-/

namespace Ligo.CompilerEnvironment

open MiniC Michelson
open Scope (names vals)
open Fuel (bind_eq_ok map_eq_ok)

variable {ctx : Context} {exec : Node → Michelson.Value Node → Outcome Node (Michelson.Value Node)}
  {n : ℕ}

/-- The code of `E_environment_capture`, without the check. -/
def captureCode (e : Environment) (lst : List String) : Node :=
  packSelectCode (Environment.selected lst e)

/-- The code that `E_environment_load` unpacks an environment with, without the check. -/
def loadCode (e : Environment) : Node := unpackCode (e.length - 1)

section Generated

variable {e : Environment} {code : Node}

/-- Capturing is what `pack_select` generates. -/
theorem captureCode_of_packSelect {lst : List String} (h : packSelect ctx e lst = .ok code) :
    code = captureCode e lst := by
  obtain ⟨_, -, h⟩ := bind_eq_ok.1 h
  obtain ⟨_, -, h⟩ := bind_eq_ok.1 h
  obtain ⟨_, -, h⟩ := bind_eq_ok.1 h
  cases h
  rfl

theorem addPackedCode_of_addPackedAnon {τ : TypeValue} (h : addPackedAnon ctx e τ = .ok code) :
    code = addPackedCode := by
  obtain ⟨_, -, h⟩ := bind_eq_ok.1 h
  obtain ⟨_, -, h⟩ := bind_eq_ok.1 h
  obtain ⟨_, -, h⟩ := bind_eq_ok.1 h
  obtain ⟨_, -, h⟩ := bind_eq_ok.1 h
  cases h
  rfl

/-- Loading is what `unpack` generates. -/
theorem loadCode_of_unpack (h : unpack ctx e = .ok code) : code = loadCode e := by
  obtain ⟨_, -, h⟩ := bind_eq_ok.1 h
  obtain ⟨_, -, h⟩ := bind_eq_ok.1 h
  obtain ⟨_, -, h⟩ := bind_eq_ok.1 h
  obtain ⟨_, -, h⟩ := bind_eq_ok.1 h
  cases h
  rfl

end Generated

/-! ### Packing -/

/-- Nothing has been kept yet when the fold over the environment says so. -/
theorem packSelectStep_first {α : Type} (eLst : List ((String × TypeValue) × Bool))
    {vs : List α} (h : vs.length = eLst.length) :
    (foldRight' packSelectStep (true, seq []) eLst).1 = true ↔
      Scope.keep (eLst.map Prod.snd) vs = [] := by
  induction eLst generalizing vs with
  | nil => simp [foldRight', Scope.keep]
  | cons x eLst ih =>
    obtain ⟨v, vs, rfl⟩ := List.exists_cons_of_length_eq_add_one h
    obtain ⟨b, f⟩ := x
    rw [foldRight'_cons, List.map_cons]
    cases f with
    | false => exact ih (Nat.succ.inj h)
    | true => simp [packSelectStep, Scope.keep]

/-- `packSelectCode` pushes the pair of the values whose flag is set. -/
theorem step_packSelectCode (eLst : List ((String × TypeValue) × Bool)) {vs : Michelson.Stack}
    (h : vs.length = eLst.length) {p : Michelson.Value Node}
    (hp : packValues (Scope.keep (eLst.map Prod.snd) vs) = .ok p) (rest : Michelson.Stack) :
    step ctx exec n (packSelectCode eLst) (vs ++ rest) = .ok (p :: (vs ++ rest)) := by
  induction eLst generalizing vs p with
  | nil =>
    obtain rfl := List.length_eq_zero_iff.1 h
    cases hp
  | cons x eLst ih =>
    obtain ⟨v, vs, rfl⟩ := List.exists_cons_of_length_eq_add_one h
    have hlen : vs.length = eLst.length := Nat.succ.inj h
    have hfirst := packSelectStep_first eLst hlen
    obtain ⟨b, f⟩ := x
    rw [packSelectCode, foldRight'_cons]
    set acc := foldRight' packSelectStep (true, seq []) eLst with hacc
    have hcode : packSelectCode eLst = acc.2 := rfl
    rw [List.map_cons] at hp
    cases f with
    | false =>
      -- the pair of the older values is swapped above this one
      have hstep := ih hlen hp
      rw [hcode] at hstep
      change step ctx exec n (seq [dip acc.2, iSwap]) (v :: (vs ++ rest)) = _
      rw [step_seq, steps_cons, step_dip, hstep]
      rfl
    | true =>
      change packValues (v :: Scope.keep (eLst.map Prod.snd) vs) = _ at hp
      cases hf : acc.1 with
      | true =>
        have hnil := hfirst.1 hf
        rw [hnil] at hp
        cases hp
        simp only [packSelectStep, hf]
        rfl
      | false =>
        have hne : Scope.keep (eLst.map Prod.snd) vs ≠ [] := by
          intro hnil
          rw [hfirst.2 hnil] at hf
          cases hf
        obtain ⟨w, ws, hws⟩ := List.exists_cons_of_ne_nil hne
        rw [hws] at hp
        obtain ⟨q, hq, rfl⟩ := map_eq_ok.1 hp
        have hstep := ih hlen (hws ▸ hq)
        rw [hcode] at hstep
        simp only [packSelectStep, hf]
        change step ctx exec n (seq [dip acc.2, iDup, dip iPair, iSwap]) (v :: (vs ++ rest)) = _
        rw [step_seq, steps_cons, step_dip, hstep]
        rfl

/-- `unpackCode` takes a pair of values apart again. -/
theorem step_unpackCode {vs : Michelson.Stack} {p : Michelson.Value Node}
    (hp : packValues vs = .ok p) (rest : Michelson.Stack) :
    step ctx exec n (unpackCode (vs.length - 1)) (p :: rest) = .ok (vs ++ rest) := by
  -- the last value is left as it is, every other one is the first half of a pair
  induction vs generalizing p with
  | nil => cases hp
  | cons v vs ih =>
    cases vs with
    | nil =>
      cases hp
      rfl
    | cons w vs =>
      -- the pair is taken apart, and the rest unpacked below its first half
      obtain ⟨q, hq, rfl⟩ := map_eq_ok.1 hp
      have hstep := ih hq
      change step ctx exec n (seq [iUnpair, dip (unpackCode vs.length)]) (.pair v q :: rest) = _
      rw [step_seq, steps_cons, step_iUnpair]
      change steps ctx exec n [dip (unpackCode vs.length)] (v :: q :: rest) = _
      rw [steps_singleton, step_dip]
      refine Eq.trans (congrArg (· >>= _) hstep) ?_
      rfl

theorem packValues_isOk {F : Type} {vs : List (Michelson.Value F)} (h : vs ≠ []) :
    ∃ p, packValues vs = .ok p := by
  induction vs with
  | nil => exact absurd rfl h
  | cons v vs ih =>
    cases vs with
    | nil => exact ⟨v, rfl⟩
    | cons w vs =>
      obtain ⟨q, hq⟩ := ih (by simp)
      refine ⟨.pair v q, ?_⟩
      change packValues (w :: vs) >>= _ = _
      rw [hq]
      rfl

/-! ### Environments -/

section Environment

variable {e : Environment} {lst : List String} {ρ : Env Node} (hn : names ρ = names e)

include hn in
/-- The code of a capture pushes the pair of the selected values. -/
theorem step_captureCode {p : Michelson.Value Node}
    (hp : packValues (vals (Scope.restrict lst ρ)) = .ok p) (rest : Michelson.Stack) :
    step ctx exec n (captureCode e lst) (vals ρ ++ rest) = .ok (p :: (vals ρ ++ rest)) := by
  have hflags : (Environment.selected lst e).map Prod.snd = Scope.flags lst (names ρ) := by
    rw [Environment.map_snd_selected, hn]
  have hlen : (vals ρ).length = (Environment.selected lst e).length := by
    rw [← List.length_map Prod.snd, hflags, Scope.length_flags]
    simp [Scope.vals]
  refine step_packSelectCode _ hlen ?_ rest
  rw [hflags, Scope.vals, Scope.keep_map]
  exact hp

include hn in
/-- The environment that is loaded has the names of the one that was captured. -/
theorem names_select : names (Scope.restrict lst ρ) = names (Environment.select lst e) := by
  rw [Environment.select_eq, Scope.names_restrict, Scope.names_restrict, hn]

include hn in
/-- Loading what was captured. -/
theorem step_loadCode {p : Michelson.Value Node}
    (hp : packValues (vals (Scope.restrict lst ρ)) = .ok p) (rest : Michelson.Stack) :
    step ctx exec n (loadCode (Environment.select lst e)) (p :: rest) =
      .ok (vals (Scope.restrict lst ρ) ++ rest) := by
  have hlen : (Environment.select lst e).length = (vals (Scope.restrict lst ρ)).length := by
    rw [← Scope.length_names, ← names_select hn, Scope.length_names]
    simp [Scope.vals]
  rw [loadCode, hlen]
  exact step_unpackCode hp rest

/-- The bindings of a name that is listed are not all dropped. -/
theorem mem_names_select {x : String} (hx : x ∈ lst) (hmem : x ∈ names e) :
    x ∈ names (Environment.select lst e) := by
  rw [Environment.select_eq]
  induction e with
  | nil => cases hmem
  | cons b e ih =>
    rw [Scope.restrict_cons]
    by_cases hxe : x ∈ names e
    · have ih := ih hxe
      split
      · exact List.mem_cons_of_mem _ ih
      · exact ih
    · -- the oldest binding of `x` takes a copy of the name
      obtain rfl : x = b.1 := (List.mem_cons.1 hmem).resolve_right hxe
      have hcount : (names e).count b.1 < lst.count b.1 := by
        rw [List.count_eq_zero.2 hxe]
        exact List.count_pos_iff.2 hx
      rw [if_pos hcount]
      exact List.mem_cons_self

end Environment

theorem exists_readCode {e : Environment} {x : String} (h : x ∈ names e) :
    ∃ code, readCode e x = some code := by
  suffices hpos : ∃ p, assocI x e = some p by
    obtain ⟨p, hp⟩ := hpos
    exact ⟨getCode p.2, by rw [readCode, hp]; rfl⟩
  induction e with
  | nil => cases h
  | cons b e ih =>
    rw [assocI]
    split
    · exact ⟨_, rfl⟩
    · rename_i hx
      obtain ⟨p, hp⟩ := ih ((List.mem_cons.1 h).resolve_left hx)
      exact ⟨(p.1, p.2 + 1), by rw [hp]; rfl⟩

/-! ### Which value a closure sees -/

/-- For every variable that is listed and bound: the value it has where the closure is
created is the value it has in the body, where the captured pair has been loaded. -/
def CapturesVisible (ctx : Context) (e : Environment) (lst : List String) : Prop :=
  ∀ (ρ : Env Node) (rest : Michelson.Stack), names ρ = names e → ∀ x ∈ lst, ∀ read,
    readCode e x = some read → ∃ v p readInside s,
      Ends ctx read (vals ρ ++ rest) (v :: (vals ρ ++ rest)) ∧
      Ends ctx (captureCode e lst) (vals ρ ++ rest) (p :: (vals ρ ++ rest)) ∧
      readCode (Environment.select lst e) x = some readInside ∧
      Ends ctx (seq [loadCode (Environment.select lst e), readInside]) [p] (v :: s)

variable (ctx) in
/-- The value of a variable where the closure is created. -/
theorem ends_readCode {e : Environment} {x : String} {read : Node}
    (h : readCode e x = some read) {ρ : Env Node} (hn : names ρ = names e)
    (rest : Michelson.Stack) :
    ∃ v, Scope.lookup x ρ = some v ∧
      Ends ctx read (vals ρ ++ rest) (v :: (vals ρ ++ rest)) := by
  obtain ⟨v, hv, hstep⟩ := step_readCode h hn rest
  exact ⟨v, hv, 0, hstep⟩

variable (ctx) in
/-- The value of a variable in the body of the closure. -/
theorem ends_inside {e : Environment} {lst : List String} {x : String} (hx : x ∈ lst)
    (hmem : x ∈ names e) {ρ : Env Node} (hn : names ρ = names e) (rest : Michelson.Stack) :
    ∃ u p readInside s, Scope.lookup x (Scope.restrict lst ρ) = some u ∧
      Ends ctx (captureCode e lst) (vals ρ ++ rest) (p :: (vals ρ ++ rest)) ∧
      readCode (Environment.select lst e) x = some readInside ∧
      Ends ctx (seq [loadCode (Environment.select lst e), readInside]) [p] (u :: s) := by
  have hselect : x ∈ names (Environment.select lst e) := mem_names_select hx hmem
  -- something is captured, so there is a value to pack
  have hne : vals (Scope.restrict lst ρ) ≠ [] := by
    intro hnil
    have hempty : Scope.restrict lst ρ = [] := List.map_eq_nil_iff.1 hnil
    rw [← names_select hn, hempty] at hselect
    cases hselect
  obtain ⟨p, hp⟩ := packValues_isOk hne
  obtain ⟨readInside, hread⟩ := exists_readCode hselect
  -- the name is read inside as it is in the restricted environment
  obtain ⟨u, hu, hstep⟩ : ∃ u, Scope.lookup x (Scope.restrict lst ρ) = some u ∧
      step ctx (call ctx 0) 0 readInside (vals (Scope.restrict lst ρ) ++ []) =
        .ok (u :: (vals (Scope.restrict lst ρ) ++ [])) := step_readCode hread (names_select hn) []
  refine ⟨u, p, readInside, vals (Scope.restrict lst ρ) ++ [], hu, ⟨0, ?_⟩, hread, ⟨0, ?_⟩⟩
  · exact step_captureCode hn hp rest
  · rw [run, step_seq, steps_cons, step_loadCode hn hp []]
    refine Eq.trans (steps_singleton ..) ?_
    exact hstep

/-- Enough copies of every name make a closure see the visible bindings. -/
theorem capturesVisible_of_count_le {e : Environment} {lst : List String}
    (h : ∀ x ∈ lst, (names e).count x ≤ lst.count x) : CapturesVisible ctx e lst := by
  intro ρ rest hn x hx read hread
  obtain ⟨v, hv, hends⟩ := ends_readCode ctx hread hn rest
  have hmem : x ∈ names e := by
    rw [← hn]
    by_contra hnot
    rw [Scope.lookup_eq_none.2 hnot] at hv
    cases hv
  -- inside, the name is read among the captured values
  obtain ⟨u, p, readInside, s, hu, hcapture, hinside, hload⟩ :=
    ends_inside ctx hx hmem hn rest
  -- each binding of the name is captured, so the newest one is the one that is read
  have hcount : (names ρ).count x ≤ lst.count x := by
    rw [hn]
    exact h x hx
  obtain rfl : u = v := by
    rw [Scope.lookup_restrict hcount, hv] at hu
    exact (Option.some.inj hu).symm
  exact ⟨u, p, readInside, s, hends, hcapture, hinside, hload⟩

/-- A name that is bound more often than it is listed is captured with an older value. -/
theorem not_capturesVisible_of_lt {e : Environment} {lst : List String} {x : String}
    (hx : x ∈ lst) (hlt : lst.count x < (names e).count x) : ¬ CapturesVisible ctx e lst := by
  intro h
  have hmem : x ∈ names e := List.count_pos_iff.1 (by omega)
  -- the values tell the bindings of a name apart
  set ρ : Env Node := Scope.mapVal (fun k : ℕ => (.nat k : Michelson.Value Node))
    (Scope.ranked (names e)) with hρ
  have hn : names ρ = names e := by rw [hρ, Scope.names_mapVal, Scope.names_ranked]
  obtain ⟨read, hread⟩ := exists_readCode hmem
  obtain ⟨v, p, readInside, s, hends, hcapture, hinside, hload⟩ := h ρ [] hn x hx read hread
  obtain ⟨v', hv', hends'⟩ := ends_readCode ctx hread hn []
  obtain ⟨u, p', readInside', s', hu, hcapture', hinside', hload'⟩ :=
    ends_inside ctx hx hmem hn []
  obtain rfl : v = v' := (List.cons.inj (hends.unique ctx hends')).1
  obtain rfl : p = p' := (List.cons.inj (hcapture.unique ctx hcapture')).1
  obtain rfl : readInside = readInside' := Option.some.inj (hinside.symm.trans hinside')
  obtain rfl : v = u := (List.cons.inj (hload.unique ctx hload')).1
  rw [hρ, Scope.lookup_mapVal, Scope.lookup_ranked hmem] at hv'
  cases hv'
  rw [hρ, Scope.restrict_mapVal, Scope.lookup_mapVal] at hu
  obtain ⟨k, hk, hval⟩ := Option.map_eq_some_iff.1 hu
  have hlt' := Scope.lookup_restrict_ranked hk
  have hcount : k = (names e).count x - 1 := by
    simpa using hval
  omega

/-- With the code that the generators make, a closure sees the visible bindings exactly when
every captured name is listed as often as it is bound. -/
theorem capturesVisible_iff (e : Environment) (lst : List String) :
    (∀ code, packSelect ctx e lst = .ok code → code = captureCode e lst) ∧
    (∀ code, unpack ctx (Environment.select lst e) = .ok code →
      code = loadCode (Environment.select lst e)) ∧
    (∀ e x code, get ctx e x = .ok code → readCode e x = some code) ∧
    (CapturesVisible ctx e lst ↔ ∀ x ∈ lst, (names e).count x ≤ lst.count x) := by
  refine ⟨fun _ => captureCode_of_packSelect, fun _ => loadCode_of_unpack,
    fun _ _ _ => readCode_of_get, ?_⟩
  constructor
  · intro h x hx
    by_contra hlt
    exact not_capturesVisible_of_lt hx (Nat.lt_of_not_le hlt) h
  · exact capturesVisible_of_count_le

/-- A variable that shadows another one, captured once. -/
theorem captures_shadowed :
    ¬ CapturesVisible Context.empty [("x", .tBase .int), ("x", .tBase .int)] ["x"] :=
  not_capturesVisible_of_lt (x := "x") (by decide) (by decide)

end Ligo.CompilerEnvironment