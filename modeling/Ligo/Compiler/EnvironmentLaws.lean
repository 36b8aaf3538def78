import Ligo.Compiler.Capture
import Ligo.Compiler.EnvironmentTypes

/-!
# Laws of the environment code

The generators of `Compiler.Environment` as operations on the environment that lies on the
stack. `Takes` says what code does to the top of a stack, above any rest.

* The code of `select` leaves what `Mini_c.Environment.select` keeps, and the exit of a
  scope drops exactly the bindings of the scope (`scopeExit`).
* Loading restores what packing has captured (`packThenLoad`).
* The codes of `get` and `set` are a lens onto the newest binding of a name (`isLens`).
-/

namespace Ligo.CompilerEnvironment

open MiniC Michelson
open Scope (names vals)
open Fuel (bind_eq_ok)

variable (ctx : Context)

/-- Above any rest, `code` takes the stack `s` to `s'` and to no other. -/
def Takes (code : Node) (s s' : Stack) : Prop :=
  ∀ rest t, Ends ctx code (s ++ rest) t ↔ t = s' ++ rest

section Takes

variable {ctx} {i : Node} {code : List Node} {s s₁ s₂ : Stack}

/-- Code that runs without calls, whatever lies below. -/
theorem takes_of_step
    (h : ∀ exec n rest, step ctx exec n i (s ++ rest) = .ok (s₁ ++ rest)) : Takes ctx i s s₁ := by
  intro rest t
  have hends : Ends ctx i (s ++ rest) (s₁ ++ rest) := ends_of_step fun exec n => h exec n rest
  constructor
  · intro ht
    exact ht.unique ctx hends
  · rintro rfl
    exact hends

theorem takes_nil : Takes ctx (seq []) s s := takes_of_step fun _ _ _ => rfl

/-- One instruction after the other. -/
theorem Takes.cons (hi : Takes ctx i s s₁) (hcode : Takes ctx (seq code) s₁ s₂) :
    Takes ctx (seq (i :: code)) s s₂ := by
  intro rest t
  rw [ends_cons]
  constructor
  · rintro ⟨s', hs', ht⟩
    rw [hi] at hs'
    subst hs'
    exact (hcode rest t).1 ht
  · rintro rfl
    exact ⟨s₁ ++ rest, (hi rest _).2 rfl, (hcode rest _).2 rfl⟩

/-- Two instructions in a row. -/
theorem Takes.pair {j : Node} (hi : Takes ctx i s s₁) (hj : Takes ctx j s₁ s₂) :
    Takes ctx (seq [i, j]) s s₂ :=
  hi.cons (hj.cons takes_nil)

/-- Below a value that is set aside. -/
theorem Takes.dip (h : Takes ctx i s s₁) (v : Michelson.Value Node) :
    Takes ctx (Michelson.dip i) (v :: s) (v :: s₁) := by
  intro rest t
  rw [List.cons_append, ends_dip]
  constructor
  · rintro ⟨s', hs', rfl⟩
    rw [(h rest s').1 hs', List.cons_append]
  · rintro rfl
    exact ⟨s₁ ++ rest, (h rest _).2 rfl, rfl⟩

theorem takes_iSwap (v w : Michelson.Value Node) :
    Takes ctx iSwap (v :: w :: s) (w :: v :: s) := takes_of_step fun _ _ _ => rfl

end Takes

/-! ### Scope exit -/

section Select

variable {ctx} {e : Environment} {code : Node} {ρ : Env Node}

/-- The code of `select` leaves what is selected. -/
theorem takes_select {lst : List String} (h : select ctx e lst = .ok code)
    (hρ : names ρ = names e) : Takes ctx code (vals ρ) (vals (Environment.select lst ρ)) := by
  rw [Environment.select_eq]
  exact takes_of_step fun _ _ rest => step_select h hρ rest

/-- What was in scope before is kept, whatever names the new bindings share with it. -/
theorem takes_selectEnv {extra base : Environment}
    (h : selectEnv ctx (extra ++ base) base = .ok code) {σ : Env Node}
    (hσ : names σ = names extra) (hρ : names ρ = names base) :
    Takes ctx code (vals σ ++ vals ρ) (vals ρ) := by
  have hnames : names (σ ++ ρ) = names (extra ++ base) := by
    rw [Scope.names_append, Scope.names_append, hσ, hρ]
  have htakes := takes_select h hnames
  have hrestrict : Environment.select (Environment.getNames base) (σ ++ ρ) = ρ := by
    rw [Environment.select_eq]
    have hbag : names (σ ++ ρ) = names σ ++ Environment.getNames base := by
      rw [Scope.names_append, hρ]
      rfl
    rw [Scope.restrict_of_names_append hbag, Scope.length_names]
    exact List.drop_left
  rwa [hrestrict, Scope.vals_append] at htakes

end Select

/-- The code of `select` on an environment, and the exit of a scope. -/
theorem scopeExit (e : Environment) :
    (∀ lst code, select ctx e lst = .ok code → ∀ ρ : Env Node, names ρ = names e →
      names (Environment.select lst ρ) = names (Environment.select lst e) ∧
        Takes ctx code (vals ρ) (vals (Environment.select lst ρ))) ∧
    (∀ extra base code, e = extra ++ base → selectEnv ctx e base = .ok code →
      ∀ σ ρ : Env Node, names σ = names extra → names ρ = names base →
        Takes ctx code (vals σ ++ vals ρ) (vals ρ)) ∧
    ∀ s, CompilerType.Ty.environment e = .ok s → ∀ lst, ∃ code, select ctx e lst = .ok code := by
  refine ⟨fun lst code h ρ hρ => ⟨?_, takes_select h hρ⟩, ?_, ?_⟩
  · rw [Environment.select_eq]
    exact names_select hρ
  · rintro extra base code rfl h σ ρ hσ hρ
    exact takes_selectEnv h hσ hρ
  · intro s hs lst
    obtain ⟨code, hcode, -⟩ := select_ok ctx hs lst
    exact ⟨code, hcode⟩

/-- A `let` that shadows a variable leaves the outer one. -/
example : selectEnv Context.empty [("x", .tBase .int), ("x", .tBase .int)]
    [("x", .tBase .int)] = .ok (seq [dip (dip (seq [])), iDrop]) := rfl

/-! ### Packing and loading -/

section Load

variable {ctx} {e : Environment} {lst : List String} {ρ : Env Node}

/-- Packing pushes the pair of the values that are kept. -/
theorem takes_captureCode (hρ : names ρ = names e) {p : Michelson.Value Node}
    (hp : packValues (vals (Environment.select lst ρ)) = .ok p) :
    Takes ctx (captureCode e lst) (vals ρ) (p :: vals ρ) := by
  rw [Environment.select_eq] at hp
  exact takes_of_step fun _ _ rest => step_captureCode hρ hp rest

/-- Loading puts the argument above the values that were packed. -/
theorem takes_load (hρ : names ρ = names e) {p : Michelson.Value Node}
    (hp : packValues (vals (Environment.select lst ρ)) = .ok p) (binder : String × TypeValue)
    (arg : Michelson.Value Node) :
    Takes ctx (seq [addPackedCode, loadCode (binder :: Environment.select lst e)]) [arg, p]
      (arg :: vals (Environment.select lst ρ)) := by
  rw [Environment.select_eq] at hp
  rw [Environment.select_eq lst ρ]
  have hpair : Takes ctx addPackedCode [arg, p] [.pair arg p] := takes_of_step fun _ _ _ => rfl
  refine hpair.pair (takes_of_step fun exec n rest => ?_)
  -- the argument and the kept values, packed together
  have hpack : packValues (arg :: vals (Scope.restrict lst ρ)) = .ok (.pair arg p) := by
    cases hvs : vals (Scope.restrict lst ρ) with
    | nil =>
      rw [hvs] at hp
      cases hp
    | cons v vs =>
      rw [hvs] at hp
      exact bind_eq_ok.2 ⟨p, hp, rfl⟩
  have hlen : (binder :: Environment.select lst e).length =
      (arg :: vals (Scope.restrict lst ρ)).length := by
    have hnames := congrArg List.length (@names_select e lst ρ hρ)
    rw [Scope.length_names, Scope.length_names] at hnames
    rw [List.length_cons, List.length_cons, ← hnames]
    exact congrArg (· + 1) (List.length_map Prod.snd).symm
  rw [loadCode, hlen]
  exact step_unpackCode hpack rest

end Load

/-- What is packed is loaded back, under the argument of the closure, by the code that the
generators make. -/
theorem packThenLoad (e : Environment) (lst : List String) (hkept : Environment.select lst e ≠ [])
    (ρ : Env Node) (hρ : names ρ = names e) :
    (∀ code, packSelect ctx e lst = .ok code → code = captureCode e lst) ∧
    (∀ τ code, addPackedAnon ctx (Environment.select lst e) τ = .ok code →
      code = addPackedCode) ∧
    (∀ binder code, unpack ctx (binder :: Environment.select lst e) = .ok code →
      code = loadCode (binder :: Environment.select lst e)) ∧
    ∃ p, packValues (vals (Environment.select lst ρ)) = .ok p ∧
      Takes ctx (captureCode e lst) (vals ρ) (p :: vals ρ) ∧
      ∀ (binder : String × TypeValue) (arg : Michelson.Value Node),
        Takes ctx (seq [addPackedCode, loadCode (binder :: Environment.select lst e)]) [arg, p]
          (arg :: vals (Environment.select lst ρ)) := by
  -- the generators produce these codes, whatever the types are
  refine ⟨fun _ => captureCode_of_packSelect, fun _ _ => addPackedCode_of_addPackedAnon,
    fun _ _ => loadCode_of_unpack, ?_⟩
  -- something is selected, so there is a value to pack
  have hne : vals (Environment.select lst ρ) ≠ [] := by
    intro hnil
    have hnames := @names_select e lst ρ hρ
    rw [← Environment.select_eq, List.map_eq_nil_iff.1 hnil] at hnames
    exact hkept (List.map_eq_nil_iff.1 hnames.symm)
  obtain ⟨p, hp⟩ := packValues_isOk hne
  exact ⟨p, hp, takes_captureCode hρ hp, takes_load hρ hp⟩

def intAtom (n : ℤ) : Michelson.Value Node := .atom (.int n)

def fourNames : Environment :=
  [("a", .tBase .int), ("b", .tBase .int), ("c", .tBase .int), ("d", .tBase .int)]

/-- Three of four bindings, captured around the third. -/
theorem packThenLoad_three :
    ∃ p, packValues [intAtom 1, intAtom 2, intAtom 4] = .ok p ∧
      Takes Context.empty (captureCode fourNames ["a", "b", "d"])
        [intAtom 1, intAtom 2, intAtom 3, intAtom 4]
        [p, intAtom 1, intAtom 2, intAtom 3, intAtom 4] := by
  obtain ⟨-, -, -, p, hp, hcapture, -⟩ := packThenLoad Context.empty fourNames ["a", "b", "d"]
    (by decide) [("a", intAtom 1), ("b", intAtom 2), ("c", intAtom 3), ("d", intAtom 4)] rfl
  exact ⟨p, hp, hcapture⟩

/-! ### Reading and writing -/

/-- The code of `set`, without the check. -/
def writeCode (e : Environment) (x : String) : Option Node :=
  (assocI x e).map fun p => setCode p.2

section Lens

variable {ctx} {e : Environment} {x y : String} {code g c g' c' : Node} {ρ : Env Node}

/-- The code of `set` is determined by the position of the name. -/
theorem writeCode_of_set (h : set ctx e x = .ok code) : writeCode e x = some code := by
  obtain ⟨⟨t, position⟩, hpos, h⟩ := bind_eq_ok.1 h
  obtain ⟨_, -, h⟩ := bind_eq_ok.1 h
  obtain ⟨_, -, h⟩ := bind_eq_ok.1 h
  obtain ⟨_, -, h⟩ := bind_eq_ok.1 h
  cases h
  rw [writeCode, traceOption_eq_ok.1 hpos]
  rfl

/-- The code of `get` copies the value that is looked up. -/
theorem takes_readCode (hg : readCode e x = some g) (hρ : names ρ = names e) :
    ∃ v, Scope.lookup x ρ = some v ∧ Takes ctx g (vals ρ) (v :: vals ρ) := by
  obtain ⟨v, hv, -⟩ := @step_readCode ctx (call ctx 0) 0 e x g hg ρ hρ []
  refine ⟨v, hv, takes_of_step fun exec n rest => ?_⟩
  obtain ⟨v', hv', hstep⟩ := @step_readCode ctx exec n e x g hg ρ hρ rest
  cases hv.symm.trans hv'
  exact hstep

/-- The code of `set` assigns. -/
theorem takes_writeCode (hc : writeCode e x = some c) (hρ : names ρ = names e)
    (w : Michelson.Value Node) : Takes ctx c (w :: vals ρ) (vals (Scope.assign x w ρ)) := by
  obtain ⟨⟨t, position⟩, hpos, rfl⟩ := Option.map_eq_some_iff.1 hc
  obtain ⟨pre, v, post, rfl, rfl, hfresh⟩ := assocI_spec hρ hpos
  refine takes_of_step fun exec n rest => ?_
  have hstep := @step_setCode ctx exec n w (vals pre) v (vals post ++ rest)
  rw [Scope.assign_append_of_notMem hfresh, Scope.assign, if_pos rfl]
  simpa [Scope.vals] using hstep

end Lens

/-- The code `g` reads the variable `x` of `ρ` and the code `c` writes it. -/
structure IsLens (e : Environment) (x : String) (g c : Node) (ρ : Env Node) : Prop where
  /-- Reading pushes the value of the newest binding. -/
  read : ∃ v, Scope.lookup x ρ = some v ∧ Takes ctx g (vals ρ) (v :: vals ρ)
  /-- Writing replaces the value of the newest binding. -/
  write : ∀ w, Takes ctx c (w :: vals ρ) (vals (Scope.assign x w ρ))
  /-- What is written is read. -/
  readWrite : ∀ w, Takes ctx (seq [c, g]) (w :: vals ρ) (w :: vals (Scope.assign x w ρ))
  /-- The second write counts. -/
  writeWrite : ∀ w w', Takes ctx (seq [dip c, c]) (w' :: w :: vals ρ)
    (vals (Scope.assign x w' ρ))
  /-- Writing what is read changes nothing. -/
  writeRead : Takes ctx (seq [g, c]) (vals ρ) (vals ρ)
  /-- Another variable is read as before. -/
  readOther : ∀ y g', y ≠ x → readCode e y = some g' → ∃ v,
    Takes ctx g' (vals ρ) (v :: vals ρ) ∧
      ∀ w, Takes ctx (seq [c, g']) (w :: vals ρ) (v :: vals (Scope.assign x w ρ))
  /-- Writes to two variables commute. -/
  writeOther : ∀ y c', y ≠ x → writeCode e y = some c' → ∀ w w', ∃ s,
    Takes ctx (seq [dip c, c']) (w' :: w :: vals ρ) s ∧
      Takes ctx (seq [iSwap, dip c', c]) (w' :: w :: vals ρ) s

variable {ctx} in
/-- Names that are bound have the lens. -/
theorem isLens_of_codes {e : Environment} {x : String} {g c : Node} {ρ : Env Node}
    (hg : readCode e x = some g) (hc : writeCode e x = some c) (hρ : names ρ = names e) :
    IsLens ctx e x g c ρ := by
  obtain ⟨v, hv, hread⟩ := @takes_readCode ctx _ _ _ _ hg hρ
  have hwrite := fun w => @takes_writeCode ctx _ _ _ _ hc hρ w
  have hnames : ∀ w, names (Scope.assign x w ρ) = names e :=
    fun w => (Scope.names_assign x w ρ).trans hρ
  -- the laws in their order; each of them composes readings and writings
  refine ⟨⟨v, hv, hread⟩, hwrite, fun w => ?_, fun w w' => ?_, ?_, fun y g' hy hg' => ?_,
    fun y c' hy hc' w w' => ?_⟩
  · obtain ⟨u, hu, hread'⟩ := @takes_readCode ctx _ _ _ _ hg (hnames w)
    rw [Scope.lookup_assign hv] at hu
    cases hu
    exact (hwrite w).pair hread'
  · have hwrite' := @takes_writeCode ctx _ _ _ _ hc (hnames w) w'
    rw [Scope.assign_assign] at hwrite'
    exact ((hwrite w).dip w').pair hwrite'
  · have hwrite' := hwrite v
    rw [Scope.assign_lookup hv] at hwrite'
    exact hread.pair hwrite'
  · obtain ⟨u, hu, hread'⟩ := @takes_readCode ctx _ _ _ _ hg' hρ
    refine ⟨u, hread', fun w => ?_⟩
    obtain ⟨u', hu', hread''⟩ := @takes_readCode ctx _ _ _ _ hg' (hnames w)
    rw [Scope.lookup_assign_ne hy, hu] at hu'
    cases hu'
    exact (hwrite w).pair hread''
  · refine ⟨vals (Scope.assign y w' (Scope.assign x w ρ)), ?_, ?_⟩
    · have hwrite' := @takes_writeCode ctx _ _ _ _ hc' (hnames w) w'
      exact ((hwrite w).dip w').pair hwrite'
    · have hother := @takes_writeCode ctx _ _ _ _ hc' hρ w'
      have hnames' : names (Scope.assign y w' ρ) = names e :=
        (Scope.names_assign y w' ρ).trans hρ
      have hwrite' := @takes_writeCode ctx _ _ _ _ hc hnames' w
      rw [Scope.assign_comm (Ne.symm hy)] at hwrite'
      exact (takes_iSwap w' w).cons ((hother.dip w).pair hwrite')

/-- The generators make a lens onto every name that is bound. -/
theorem isLens (e : Environment) (x : String) (hx : x ∈ names e) :
    ∃ g c, (∀ code, get ctx e x = .ok code → code = g) ∧
      (∀ code, set ctx e x = .ok code → code = c) ∧
      (∀ s, CompilerType.Ty.environment e = .ok s →
        get ctx e x = .ok g ∧ set ctx e x = .ok c) ∧
      ∀ ρ : Env Node, names ρ = names e → IsLens ctx e x g c ρ := by
  obtain ⟨g, hg⟩ := exists_readCode hx
  obtain ⟨p, hpos, -⟩ := Option.map_eq_some_iff.1 hg
  have hc : writeCode e x = some (setCode p.2) := by rw [writeCode, hpos, Option.map_some]
  -- the codes are found by the position of the name
  have hget : ∀ code, get ctx e x = .ok code → code = g := by
    intro code hcode
    exact Option.some.inj ((readCode_of_get hcode).symm.trans hg)
  have hset : ∀ code, set ctx e x = .ok code → code = setCode p.2 := by
    intro code hcode
    exact Option.some.inj ((writeCode_of_set hcode).symm.trans hc)
  refine ⟨g, setCode p.2, hget, hset, fun s hs => ?_, fun ρ hρ => isLens_of_codes hg hc hρ⟩
  -- when the stack has types, the name has one as well, and both generators succeed
  obtain ⟨τ, hτ⟩ : ∃ τ, Scope.lookup x e = some τ :=
    Option.ne_none_iff_exists'.1 fun hnone => Scope.lookup_eq_none.1 hnone hx
  obtain ⟨code, _, hcode, -⟩ := get_ok ctx hs hτ
  obtain ⟨code', _, hcode', -⟩ := set_ok ctx hs hτ
  obtain rfl := hget _ hcode
  obtain rfl := hset _ hcode'
  exact ⟨hcode, hcode'⟩

/-- The outer one of two variables with the same name is not touched. -/
theorem isLens_shadowed :
    ∃ g c, get Context.empty [("x", .tBase .int), ("x", .tBase .int)] "x" = .ok g ∧
      set Context.empty [("x", .tBase .int), ("x", .tBase .int)] "x" = .ok c ∧
      Takes Context.empty (seq [c, g]) [intAtom 7, intAtom 1, intAtom 2]
        [intAtom 7, intAtom 7, intAtom 2] := by
  obtain ⟨g, c, -, -, hcodes, hlens⟩ :=
    isLens Context.empty [("x", .tBase .int), ("x", .tBase .int)] "x" List.mem_cons_self
  obtain ⟨hg, hc⟩ := hcodes _ rfl
  exact ⟨g, c, hg, hc, (hlens [("x", intAtom 1), ("x", intAtom 2)] rfl).readWrite (intAtom 7)⟩

end Ligo.CompilerEnvironment
