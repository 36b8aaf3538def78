import Ligo.Compiler.Environment
import Ligo.MiniC.Semantics
import Ligo.Michelson.Run

/-!
# Running the environment code

What the generators of `Compiler.Environment` do to a stack. `getCode` and `setCode`
read and write a position; `selectCode` keeps the flagged values, and the flags that
`Environment.selected` computes are the ones of `Scope.flags`.
-/

namespace Ligo

open MiniC Michelson

/-! ### Which bindings a selector keeps -/

namespace MiniC.Environment

variable {α : Type}

/-- What is left of a selector has lost one copy of a name for each binding of that
name, as long as there were copies. -/
theorem selectStep_foldl (lst : List String) (env : List (String × α)) :
    (env.reverse.foldl (fun p x => ((selectStep p.1 x).1, (selectStep p.1 x).2 :: p.2))
      (lst, [])).2 = Scope.flags lst (Scope.names env) ∧
    ∀ x, (env.reverse.foldl
        (fun p x => ((selectStep p.1 x).1, (selectStep p.1 x).2 :: p.2)) (lst, [])).1.count x =
      lst.count x - (Scope.names env).count x := by
  induction env with
  | nil => exact ⟨rfl, fun _ => rfl⟩
  | cons b env ih =>
    obtain ⟨ihflags, ihcount⟩ := ih
    simp only [List.reverse_cons, List.foldl_append, List.foldl_cons, List.foldl_nil]
    set p := env.reverse.foldl
      (fun p x => ((selectStep p.1 x).1, (selectStep p.1 x).2 :: p.2)) (lst, [])
    -- the binding gets a name exactly when a copy of it is left
    have hmem : b.1 ∈ p.1 ↔ (Scope.names env).count b.1 < lst.count b.1 := by
      rw [← List.count_pos_iff, ihcount]
      omega
    unfold selectStep
    split
    · rename_i h
      refine ⟨?_, fun x => ?_⟩
      · rw [Scope.names_cons, Scope.flags, decide_eq_true (hmem.1 h), ihflags]
      · rw [List.count_erase, ihcount, Scope.names_cons, List.count_cons]
        split <;> omega
    · rename_i h
      refine ⟨?_, fun x => ?_⟩
      · rw [Scope.names_cons, Scope.flags, decide_eq_false (fun h' => h (hmem.2 h')), ihflags]
      · rw [ihcount, Scope.names_cons, List.count_cons]
        have hle := fun h' => h (hmem.2 h')
        split
        · simp_all
          omega
        · rfl

/-- The flags of a selection. -/
theorem foldMapRight_selectStep (lst : List String) (env : List (String × α)) :
    foldMapRight selectStep lst env = Scope.flags lst (Scope.names env) :=
  (selectStep_foldl lst env).1

theorem map_snd_selected (lst : List String) (env : List (String × α)) :
    (selected lst env).map Prod.snd = Scope.flags lst (Scope.names env) := by
  rw [selected, foldMapRight_selectStep, List.map_snd_zip]
  simp

/-- `select` restricts an environment to a bag of names. -/
theorem select_eq (lst : List String) (env : List (String × α)) :
    select lst env = Scope.restrict lst env := by
  rw [select, selected, foldMapRight_selectStep, Scope.restrict]
  generalize Scope.flags lst (Scope.names env) = bs
  induction env generalizing bs with
  | nil => rcases bs with _ | ⟨_ | _, bs⟩ <;> rfl
  | cons b env ih =>
    cases bs with
    | nil => rfl
    | cons f bs => cases f <;> simp [Scope.keep, ih]

end MiniC.Environment

/-- The position that `assoc_i` answers is that of the newest binding, here seen in an
environment of values with the same names. -/
theorem assocI_spec {α β : Type} {x : String} {env : List (String × α)}
    {ρ : List (String × β)} (hn : Scope.names ρ = Scope.names env) {t : α} {n : ℕ}
    (h : assocI x env = some (t, n)) :
    ∃ pre v post, ρ = pre ++ (x, v) :: post ∧ pre.length = n ∧ x ∉ Scope.names pre := by
  induction env generalizing ρ n with
  | nil => cases h
  | cons b env ih =>
    cases ρ with
    | nil => cases hn
    | cons c ρ =>
      -- the two lists have the same names, position by position
      obtain ⟨hb, hρ⟩ := List.cons.inj hn
      obtain ⟨y, v⟩ := c
      obtain ⟨y', u⟩ := b
      simp only at hb
      subst hb
      simp only [assocI] at h
      -- the search ends at the first binding of the name, which is the newest one
      split at h
      · rename_i hx
        cases h
        exact ⟨[], v, ρ, by rw [hx]; rfl, rfl, by simp⟩
      · rename_i hx
        cases hm : assocI x env with
        | none =>
          rw [hm] at h
          cases h
        | some p =>
          obtain ⟨t', m⟩ := p
          rw [hm] at h
          cases h
          obtain ⟨pre, w, post, hpre, hlen, hfresh⟩ := ih hρ hm
          refine ⟨(y, v) :: pre, w, post, by rw [hpre]; rfl, by simp [hlen], ?_⟩
          simp only [Scope.names_cons, List.mem_cons, not_or]
          exact ⟨hx, hfresh⟩

namespace CompilerEnvironment

variable {ctx : Context} {exec : Node → Michelson.Value Node → Outcome Node (Michelson.Value Node)}
  {n : ℕ}

/-- `getCode` copies the value under a block of its length. -/
theorem step_getCode (pre : Michelson.Stack) (v : Michelson.Value Node)
    (post : Michelson.Stack) :
    step ctx exec n (getCode pre.length) (pre ++ v :: post) = .ok (v :: (pre ++ v :: post)) := by
  induction pre with
  | nil => rfl
  | cons w pre ih =>
    simp only [List.length_cons, getCode, step_seq, steps_cons, List.cons_append,
      step_dip, ih]
    rfl

/-- The code of `get`, without the check. -/
def readCode (e : Environment) (x : String) : Option Node :=
  (assocI x e).map fun p => getCode p.2

theorem readCode_of_get {e : Environment} {x : String} {code : Node}
    (h : get ctx e x = .ok code) : readCode e x = some code := by
  obtain ⟨⟨t, position⟩, hpos, h⟩ := Fuel.bind_eq_ok.1 h
  obtain ⟨_, -, h⟩ := Fuel.bind_eq_ok.1 h
  obtain ⟨_, -, h⟩ := Fuel.bind_eq_ok.1 h
  obtain ⟨_, -, h⟩ := Fuel.bind_eq_ok.1 h
  cases h
  rw [readCode, traceOption_eq_ok.1 hpos]
  rfl

/-- Reading the newest binding of a name. -/
theorem step_readCode {e : Environment} {x : String} {code : Node} (h : readCode e x = some code)
    {ρ : Env Node} (hn : Scope.names ρ = Scope.names e) (rest : Michelson.Stack) :
    ∃ v, Scope.lookup x ρ = some v ∧
      step ctx exec n code (Scope.vals ρ ++ rest) = .ok (v :: (Scope.vals ρ ++ rest)) := by
  obtain ⟨⟨t, position⟩, hpos, rfl⟩ := Option.map_eq_some_iff.1 h
  obtain ⟨pre, v, post, rfl, rfl, hfresh⟩ := assocI_spec hn hpos
  refine ⟨v, ?_, ?_⟩
  · rw [Scope.lookup_append_of_notMem hfresh, Scope.lookup, if_pos rfl]
  · have hstep := @step_getCode ctx exec n (Scope.vals pre) v (Scope.vals post ++ rest)
    simpa [Scope.vals] using hstep

/-- `setCode` replaces the value under a block of its length. -/
theorem step_setCode (w : Michelson.Value Node) (pre : Michelson.Stack)
    (v : Michelson.Value Node) (post : Michelson.Stack) :
    step ctx exec n (setCode pre.length) (w :: (pre ++ v :: post)) = .ok (pre ++ w :: post) := by
  induction pre with
  | nil => rfl
  | cons u pre ih =>
    simp only [List.length_cons, setCode, step_seq, steps_cons, List.cons_append,
      step_iSwap]
    change (step ctx exec n (dip (setCode pre.length)) (u :: w :: (pre ++ v :: post)) >>= _) = _
    rw [step_dip, ih]
    rfl

/-- `selectCode` keeps the values whose flag is set. -/
theorem step_selectCode (eLst : List ((String × TypeValue) × Bool)) {vs : Michelson.Stack}
    (h : vs.length = eLst.length) (rest : Michelson.Stack) :
    step ctx exec n (selectCode eLst) (vs ++ rest) =
      .ok (Scope.keep (eLst.map Prod.snd) vs ++ rest) := by
  induction eLst generalizing vs with
  | nil =>
    obtain rfl := List.length_eq_zero_iff.1 h
    rfl
  | cons x eLst ih =>
    obtain ⟨v, vs, rfl⟩ := List.exists_cons_of_length_eq_add_one h
    have ih := ih (Nat.succ.inj h)
    obtain ⟨b, f⟩ := x
    -- the part below the top is treated first, then the top is kept or dropped
    rw [selectCode, foldRight'_cons, ← selectCode]
    cases f with
    | true =>
      simp only [if_true, List.cons_append, step_dip, ih]
      rfl
    | false =>
      simp only [Bool.false_eq_true, if_false, List.cons_append, step_seq, steps_cons,
        step_dip, ih]
      rfl

/-- The code of `select` restricts the environment on the stack to the selector. -/
theorem step_select {e : Environment} {lst : List String} {code : Node}
    (h : select ctx e lst = .ok code) {ρ : Env Node} (hn : Scope.names ρ = Scope.names e)
    (rest : Michelson.Stack) :
    step ctx exec n code (Scope.vals ρ ++ rest) =
      .ok (Scope.vals (Scope.restrict lst ρ) ++ rest) := by
  have hcode : code = selectCode (Environment.selected lst e) := by
    simp only [select, Fuel.bind_eq_ok] at h
    obtain ⟨_, -, _, -, _, -, h⟩ := h
    exact (Except.ok.inj h).symm
  have hlen : (Scope.vals ρ).length = (Environment.selected lst e).length := by
    rw [← List.length_map Prod.snd, Environment.map_snd_selected, Scope.length_flags, ← hn]
    simp [Scope.vals]
  rw [hcode, step_selectCode _ hlen, Environment.map_snd_selected, Scope.restrict,
    ← hn, Scope.vals, Scope.keep_map]
  rfl

end CompilerEnvironment

end Ligo
