import Ligo.Michelson.Typecheck
import Ligo.Michelson.ValueTyping

/-!
# Checked code never gets stuck

What the type checker accepts runs safely: on a stack of the types that the check started
from, it ends with a stack of the types that the check found, or it stops for one of the
reasons that no type rules out, a `FAILWITH`, an overflow or the end of the fuel.

A function value is its code, so whether a value has a function type depends on what the code
does when it is called. `step_safe` takes that as a parameter: `fn` says which functions have
which types, and `exec` runs them safely. `run_safe` ties the knot, by induction on the depth,
for the functions whose bodies the checker accepts (`Checked`).
-/

namespace Michelson

open List (Forall₂)

variable {ctx : Context} {F : Type} {fn : F → Ty → Ty → Prop}

/-! ### Safe outcomes -/

section Safe

variable {α β : Type} {P Q : α → Prop} {R : β → Prop} {r : Outcome F α} {f : α → Outcome F β}

/-- The run is not stuck, and its result satisfies `P`. -/
def Safe (P : α → Prop) : Outcome F α → Prop
  | .ok a => P a
  | .error s => s ≠ .fault .stuck

/-- A computation that goes on safely with whatever it returns is safe. -/
theorem Safe.bind (h : Safe P r) (hf : ∀ a, P a → Safe R (f a)) : Safe R (r >>= f) := by
  cases r with
  | ok a => exact hf a h
  | error s => exact h

/-- A weaker postcondition. -/
theorem Safe.mono (h : Safe P r) (hPQ : ∀ a, P a → Q a) : Safe Q r := by
  cases r with
  | ok a => exact hPQ a h
  | error s => exact h

/-- What a safe computation returns has the property. -/
theorem Safe.of_eq_ok {a : α} (h : Safe P r) (hr : r = .ok a) : P a := by
  rw [hr] at h
  exact h

/-- A loop is safe when its test and its body are. -/
theorem Safe.iterate {σ τ : Type} {P : σ → Prop} {Q : τ → Prop} {test : σ → Outcome F (Bool × τ)}
    {body : τ → Outcome F σ} (htest : ∀ s, P s → Safe (fun p => Q p.2) (test s))
    (hbody : ∀ t, Q t → Safe P (body t)) {n : ℕ} {s : σ} (hs : P s) :
    Safe Q (Fuel.iterate test body .timeout n s) := by
  induction n generalizing s with
  | zero => exact nofun
  | succ n ih =>
    rw [Fuel.iterate_succ]
    refine (htest s hs).bind fun p hp => ?_
    split
    · exact (hbody p.2 hp).bind fun s' hs' => ih hs'
    · exact hp

end Safe

/-! ### Operations on atoms -/

section Atoms

variable {a b : Atom} {c : ComparableTy}

/-- The operation has a result of the type `c`, or it overflows. -/
def AtomSafe (c : ComparableTy) : Except Fault Atom → Prop
  | .ok x => x.ty = c
  | .error f => f = .overflow

/-- Making an amount out of a number can only overflow. -/
theorem atomSafe_ofMutez (n : ℕ) : AtomSafe .mutez (Atom.ofMutez n) := by
  unfold Atom.ofMutez
  split <;> rfl

/-- Adding amounts fails by overflow only. -/
theorem addMutez_error {m n : Mutez} {f : Fault} (h : Atom.addMutez m n = .error f) :
    f = .overflow := by
  unfold Atom.addMutez at h
  split at h <;> cases h
  rfl

/-- Only an overflow stops a multiplication. -/
theorem mulStep_error {cur : ℕ} {pow acc : Mutez} {f : Fault}
    (h : Atom.mulStep cur pow acc = .error f) : f = .overflow := by
  fun_induction Atom.mulStep cur pow acc with
  | case1 => cases h
  | case2 cur pow acc hcur ihodd iheven =>
    cases hpow : Atom.addMutez pow pow with
    | error f' =>
      rw [hpow] at h
      cases h
      exact addMutez_error hpow
    | ok npow =>
      simp only [hpow, bind, Except.bind] at h
      split at h
      · next hbit =>
        cases hacc : Atom.addMutez acc pow with
        | error f' =>
          simp only [hacc] at h
          cases h
          exact addMutez_error hacc
        | ok nacc =>
          simp only [hacc] at h
          exact ihodd npow hbit nacc h
      · next hbit => exact iheven npow hbit h

/-- The product of an amount and a number overflows or is an amount. -/
theorem atomSafe_mulMutez (m : Mutez) (n : ℕ) : AtomSafe .mutez (Atom.mulMutez m n) := by
  unfold Atom.mulMutez
  split
  · cases h : Atom.mulStep n m Mutez.zero with
    | ok r => rfl
    | error f => exact mulStep_error h
  · rfl

/-- Where the checker finds a type for a sum, the sum has this type. The other operations on
atoms follow the same table. -/
theorem atomSafe_add (h : ComparableTy.add a.ty b.ty = some c) : AtomSafe c (Atom.add a b) := by
  cases a <;> cases b <;> cases h
  all_goals first | rfl | exact atomSafe_ofMutez _

theorem atomSafe_sub (h : ComparableTy.sub a.ty b.ty = some c) : AtomSafe c (Atom.sub a b) := by
  cases a <;> cases b <;> cases h
  case mutez.mutez m n =>
    simp only [Atom.sub]
    split
    · exact atomSafe_ofMutez _
    · rfl
  all_goals rfl

theorem atomSafe_mul (h : ComparableTy.mul a.ty b.ty = some c) : AtomSafe c (Atom.mul a b) := by
  cases a <;> cases b <;> cases h
  all_goals first | rfl | exact atomSafe_mulMutez _ _

theorem atomSafe_or (h : ComparableTy.or a.ty b.ty = some c) : AtomSafe c (Atom.or a b) := by
  cases a <;> cases b <;> cases h <;> rfl

theorem atomSafe_and (h : ComparableTy.and a.ty b.ty = some c) : AtomSafe c (Atom.and a b) := by
  cases a <;> cases b <;> cases h <;> rfl

theorem atomSafe_neg (h : ComparableTy.neg a.ty = some c) : AtomSafe c (Atom.neg a) := by
  cases a <;> cases h <;> rfl

theorem atomSafe_abs (h : a.ty = .int) : AtomSafe .nat (Atom.abs a) := by
  cases a <;> cases h
  rfl

theorem atomSafe_toInt (h : a.ty = .nat) : AtomSafe .int (Atom.toInt a) := by
  cases a <;> cases h
  rfl

/-- Atoms of one type can be compared. -/
theorem atomSafe_compare (h : a.ty = b.ty) : AtomSafe .int (Atom.compare a b) := by
  unfold Atom.compare
  rw [if_pos h]
  rfl

/-- The tests on the result of a comparison. -/
theorem atomSafe_test (p : Int → Bool) (h : a.ty = .int) : AtomSafe .bool (Atom.test p a) := by
  cases a <;> cases h
  rfl

/-- A division has a quotient and a remainder of its types, if the divisor is not zero. -/
theorem ediv_safe {q r : ComparableTy} (h : ComparableTy.ediv a.ty b.ty = some (q, r)) :
    ∃ o, Atom.ediv a b = .ok o ∧ ∀ x, o = some x → x.1.ty = q ∧ x.2.ty = r := by
  cases a <;> cases b <;> cases h
  all_goals
    refine ⟨_, rfl, fun x hx => ?_⟩
    split at hx
    · cases hx
    · cases hx
      exact ⟨rfl, rfl⟩

end Atoms

/-! ### Operations on values -/

section Values

variable {v w : Value F} {a b c : ComparableTy} {s t u : Ty}

/-- The outcome is safe and has a result of the type `t`. -/
abbrev Gives (ctx : Context) (fn : F → Ty → Ty → Prop) (t : Ty) (r : Outcome F (Value F)) : Prop :=
  Safe (HasTy ctx fn t) r

/-- What a safe operation on atoms returns is a value of its type. -/
theorem gives_ofFault {r : Except Fault Atom} (h : AtomSafe c r) :
    Gives ctx fn (.comparable c) (ofFault (r.map .atom)) := by
  cases r with
  | ok x => exact ⟨x, rfl, h⟩
  | error f =>
    cases h
    exact nofun

/-- Operations on one atom are given an atom by the typing of the stack. -/
theorem gives_atom1 {op : Atom → Except Fault Atom} (hv : HasTy ctx fn (.comparable a) v)
    (hop : ∀ x : Atom, x.ty = a → AtomSafe c (op x)) :
    Gives ctx fn (.comparable c) (v.atom1 op) := by
  obtain ⟨x, rfl, hx⟩ := hv
  exact gives_ofFault (hop x hx)

/-- The same for operations on two atoms. -/
theorem gives_atom2 {op : Atom → Atom → Except Fault Atom} (hv : HasTy ctx fn (.comparable a) v)
    (hw : HasTy ctx fn (.comparable b) w)
    (hop : ∀ x y : Atom, x.ty = a → y.ty = b → AtomSafe c (op x y)) :
    Gives ctx fn (.comparable c) (v.atom2 op w) := by
  obtain ⟨x, rfl, hx⟩ := hv
  obtain ⟨y, rfl, hy⟩ := hw
  exact gives_ofFault (hop x y hx hy)

/-- A division by zero is `None`, every other one a pair. -/
theorem gives_ediv {q r : ComparableTy} (hv : HasTy ctx fn (.comparable a) v)
    (hw : HasTy ctx fn (.comparable b) w) (h : ComparableTy.ediv a b = some (q, r)) :
    Gives ctx fn (.option (.pair (.comparable q) (.comparable r))) (v.ediv w) := by
  obtain ⟨x, rfl, rfl⟩ := hv
  obtain ⟨y, rfl, rfl⟩ := hw
  obtain ⟨o, ho, htypes⟩ := ediv_safe h
  rw [Value.ediv, ho]
  cases o with
  | none => exact Or.inl rfl
  | some p =>
    obtain ⟨hq, hr⟩ := htypes p rfl
    exact Or.inr ⟨_, rfl, _, _, rfl, ⟨_, rfl, hq⟩, _, rfl, hr⟩

/-- A value of a pair type is a pair. -/
theorem gives_car (hv : HasTy ctx fn (.pair s t) v) : Gives ctx fn s v.car := by
  obtain ⟨x, y, rfl, hx, -⟩ := hv
  exact hx

theorem gives_cdr (hv : HasTy ctx fn (.pair s t) v) : Gives ctx fn t v.cdr := by
  obtain ⟨x, y, rfl, -, hy⟩ := hv
  exact hy

/-- An element in front of a list of its type. -/
theorem gives_cons (hv : HasTy ctx fn t v) (hw : HasTy ctx fn (.list t) w) :
    Gives ctx fn (.list t) (v.cons w) := by
  obtain ⟨ws, rfl, hws⟩ := hw
  exact ⟨_, rfl, List.forall_mem_cons.2 ⟨hv, hws⟩⟩

/-- The three things that have a size. -/
theorem gives_size_list (hv : HasTy ctx fn (.list t) v) :
    Gives ctx fn (.comparable .nat) v.size := by
  obtain ⟨vs, rfl, -⟩ := hv
  exact ⟨_, rfl, rfl⟩

theorem gives_size_map (hv : HasTy ctx fn (.map c t) v) :
    Gives ctx fn (.comparable .nat) v.size := by
  obtain ⟨m, rfl, -⟩ := hv
  exact ⟨_, rfl, rfl⟩

theorem gives_size_atom (hv : HasTy ctx fn (.comparable c) v) (hc : c = .string ∨ c = .bytes) :
    Gives ctx fn (.comparable .nat) v.size := by
  obtain ⟨x, rfl, rfl⟩ := hv
  cases x <;> rcases hc with h | h <;> cases h <;> exact ⟨_, rfl, rfl⟩

/-- An option whose value, if there is one, has the type. -/
theorem hasTy_ofOption {o : Option (Value F)} (h : ∀ x, o = some x → HasTy ctx fn t x) :
    HasTy ctx fn (.option t) (Value.ofOption o) := by
  cases o with
  | none => exact Or.inl rfl
  | some x => exact Or.inr ⟨x, rfl, h x rfl⟩

/-- What is found in a map has the type of its values. -/
theorem gives_get (hv : HasTy ctx fn (.comparable c) v) (hw : HasTy ctx fn (.map c t) w) :
    Gives ctx fn (.option t) (v.get w) := by
  obtain ⟨k, rfl, -⟩ := hv
  obtain ⟨m, rfl, -, hm⟩ := hw
  refine hasTy_ofOption fun x hx => ?_
  exact (hm _ (SortedMap.mem_of_lookup hx)).2

/-- Updating a map keeps the types of its keys and values; no value removes the entry. -/
theorem gives_update (hv : HasTy ctx fn (.comparable c) v) {o : Value F}
    (ho : HasTy ctx fn (.option t) o) (hw : HasTy ctx fn (.map c t) w) :
    Gives ctx fn (.map c t) (v.update o w) := by
  obtain ⟨k, rfl, hk⟩ := hv
  obtain ⟨m, rfl, hsorted, hm⟩ := hw
  rcases ho with rfl | ⟨x, rfl, hx⟩
  · refine ⟨_, rfl, SortedMap.erase_sorted _ hsorted, fun y hy => ?_⟩
    exact hm y (SortedMap.mem_erase hy)
  · refine ⟨_, rfl, SortedMap.insert_sorted _ _ hsorted, fun y hy => ?_⟩
    rcases SortedMap.mem_insert hy with rfl | hy
    · exact ⟨hk, hx⟩
    · exact hm y hy

/-- A contract is found only at an address whose code takes this parameter. -/
theorem gives_toContract (hv : HasTy ctx fn (.comparable .address) v) :
    Gives ctx fn (.option (.contract t)) (v.toContract ctx t) := by
  obtain ⟨x, rfl, hx⟩ := hv
  cases x <;> cases hx
  rename_i addr
  change HasTy ctx fn (.option (.contract t))
    (if ctx.contractTy addr = some t then .some (.contract t addr) else .none)
  split
  · next h => exact Or.inr ⟨_, rfl, addr, rfl, h⟩
  · exact Or.inl rfl

/-- A transfer to a contract is an operation. -/
theorem gives_transfer {p m c : Value F} (hm : HasTy ctx fn (.comparable .mutez) m)
    (hc : HasTy ctx fn (.contract t) c) : Gives ctx fn .operation (p.transfer m c) := by
  obtain ⟨x, rfl, hx⟩ := hm
  obtain ⟨addr, rfl, -⟩ := hc
  cases x <;> cases hx
  exact ⟨_, _, _, rfl⟩

end Values

/-! ### Instructions without arguments -/

section Simple

variable {fn : Node → Ty → Ty → Prop} {t : Ty} {ts : StackTy} {st : Stack} {j : Judgement}

/-- The stack holds a value of each of the types. -/
abbrev StackHasTy (ctx : Context) (fn : Node → Ty → Ty → Prop) (ts : StackTy) (st : Stack) :
    Prop :=
  Forall₂ (HasTy ctx fn) ts st

/-- The stack is one that the check foresees. -/
def Foreseen (ctx : Context) (fn : Node → Ty → Ty → Prop) (j : Judgement) (st : Stack) : Prop :=
  ∃ ts, j = .typed ts ∧ StackHasTy ctx fn ts st

/-- Pushing a value of a type. -/
theorem foreseen_cons {v : Value Node} (hv : HasTy ctx fn t v) (hst : StackHasTy ctx fn ts st) :
    Foreseen ctx fn (.typed (t :: ts)) (v :: st) :=
  ⟨_, rfl, .cons hv hst⟩

/-- An instruction that pushes what it computes leaves the stack that the checker foresees. -/
theorem push_safe {r : Outcome Node (Value Node)} (hr : Gives ctx fn t r)
    (hst : StackHasTy ctx fn ts st) (h : ret t ts = some j) :
    Safe (Foreseen ctx fn j) (push r st) := by
  cases h
  exact hr.bind fun v hv => foreseen_cons hv hst

/-- Instructions on two atoms: the checker has found two comparable types on the stack, so there
are two atoms. -/
theorem binop_safe {op : ComparableTy → ComparableTy → Option ComparableTy}
    {op' : Atom → Atom → Except Fault Atom}
    (hop : ∀ {x y c}, op x.ty y.ty = some c → AtomSafe c (op' x y))
    (h : typeBinop op ts = some j) (hst : StackHasTy ctx fn ts st) :
    ∃ v w rest, st = v :: w :: rest ∧ Safe (Foreseen ctx fn j) (push (v.atom2 op' w) rest) := by
  unfold typeBinop at h
  split at h
  · obtain _ | ⟨hv, _ | ⟨hw, hrest⟩⟩ := hst
    obtain ⟨c, hc, h⟩ := Option.bind_eq_some_iff.1 h
    refine ⟨_, _, _, rfl, push_safe (gives_atom2 hv hw fun x y hx hy => hop ?_) hrest h⟩
    rw [hx, hy]
    exact hc
  · cases h

/-- The instructions that test the result of a comparison. -/
theorem test_safe {op : Int → Bool} {v : Value Node} (hv : HasTy ctx fn (.comparable .int) v)
    (hst : StackHasTy ctx fn ts st) (h : ret (.comparable .bool) ts = some j) :
    Safe (Foreseen ctx fn j) (push (v.atom1 (Atom.test op)) st) :=
  push_safe (gives_atom1 hv fun _ hx => atomSafe_test op hx) hst h

/-- The instructions without arguments, apart from calls. -/
theorem simple_safe {p : Prim} (h : typeSimple ctx p ts = some j) (hp : p ≠ .iExec)
    (hst : StackHasTy ctx fn ts st) : Safe (Foreseen ctx fn j) (simple ctx p st) := by
  unfold typeSimple at h
  split at h
  -- the stack
  · obtain _ | ⟨hv, hst⟩ := hst
    cases h
    exact foreseen_cons hv (.cons hv hst)
  · obtain _ | ⟨-, hst⟩ := hst
    cases h
    exact ⟨_, rfl, hst⟩
  · obtain _ | ⟨hv, _ | ⟨hw, hst⟩⟩ := hst
    cases h
    exact foreseen_cons hw (.cons hv hst)
  · obtain ⟨-, h⟩ := grow_eq_some.1 h
    cases h
    exact foreseen_cons rfl hst
  -- options and pairs
  · obtain _ | ⟨hv, hst⟩ := hst
    obtain ⟨-, h⟩ := grow_eq_some.1 h
    cases h
    exact foreseen_cons (Or.inr ⟨_, rfl, hv⟩) hst
  · obtain _ | ⟨hv, _ | ⟨hw, hst⟩⟩ := hst
    obtain ⟨-, h⟩ := grow_eq_some.1 h
    cases h
    exact foreseen_cons (hasTy_pair.2 ⟨hv, hw⟩) hst
  · obtain _ | ⟨hv, hst⟩ := hst
    exact push_safe (gives_car hv) hst h
  · obtain _ | ⟨hv, hst⟩ := hst
    exact push_safe (gives_cdr hv) hst h
  -- lists and maps
  · obtain _ | ⟨hv, _ | ⟨hw, hst⟩⟩ := hst
    split at h
    · next heq =>
      subst heq
      exact push_safe (gives_cons hv hw) hst (grow_eq_some.1 h).2
    · cases h
  · obtain _ | ⟨hv, hst⟩ := hst
    exact push_safe (gives_size_list hv) hst h
  · obtain _ | ⟨hv, hst⟩ := hst
    exact push_safe (gives_size_map hv) hst h
  · obtain _ | ⟨hv, hst⟩ := hst
    exact push_safe (gives_size_atom hv (.inl rfl)) hst h
  · obtain _ | ⟨hv, hst⟩ := hst
    exact push_safe (gives_size_atom hv (.inr rfl)) hst h
  · obtain _ | ⟨hk, _ | ⟨hm, hst⟩⟩ := hst
    split at h
    · next heq =>
      subst heq
      exact push_safe (gives_get hk hm) hst h
    · cases h
  · obtain _ | ⟨hk, _ | ⟨ho, _ | ⟨hm, hst⟩⟩⟩ := hst
    split at h
    · next heq =>
      obtain ⟨rfl, rfl⟩ := heq
      exact push_safe (gives_update hk ho hm) hst h
    · cases h
  -- calls and failures
  · exact absurd rfl hp
  · obtain _ | ⟨hv, hst⟩ := hst
    exact nofun
  -- arithmetic
  · obtain ⟨v, w, rest, rfl, hsafe⟩ := binop_safe atomSafe_add h hst
    exact hsafe
  · obtain ⟨v, w, rest, rfl, hsafe⟩ := binop_safe atomSafe_sub h hst
    exact hsafe
  · obtain ⟨v, w, rest, rfl, hsafe⟩ := binop_safe atomSafe_mul h hst
    exact hsafe
  · obtain _ | ⟨hv, _ | ⟨hw, hst⟩⟩ := hst
    obtain ⟨c, hc, h⟩ := Option.bind_eq_some_iff.1 h
    exact push_safe (gives_ediv hv hw hc) hst h
  · obtain _ | ⟨hv, hst⟩ := hst
    obtain ⟨c, hc, h⟩ := Option.bind_eq_some_iff.1 h
    exact push_safe (gives_atom1 hv fun x hx => atomSafe_neg (hx ▸ hc)) hst h
  · obtain _ | ⟨hv, hst⟩ := hst
    exact push_safe (gives_atom1 hv fun x hx => atomSafe_abs hx) hst h
  · obtain _ | ⟨hv, hst⟩ := hst
    exact push_safe (gives_atom1 hv fun x hx => atomSafe_toInt hx) hst h
  · obtain ⟨v, w, rest, rfl, hsafe⟩ := binop_safe atomSafe_or h hst
    exact hsafe
  · obtain ⟨v, w, rest, rfl, hsafe⟩ := binop_safe atomSafe_and h hst
    exact hsafe
  -- comparisons
  · obtain _ | ⟨hv, _ | ⟨hw, hst⟩⟩ := hst
    split at h
    · next heq =>
      subst heq
      have hcompare := gives_atom2 hv hw fun x y hx hy => atomSafe_compare (hx.trans hy.symm)
      exact push_safe hcompare hst (grow_eq_some.1 h).2
    · cases h
  iterate 6
    · obtain _ | ⟨hv, hst⟩ := hst
      exact test_safe hv hst h
  -- the chain
  · obtain _ | ⟨hp, _ | ⟨hm, _ | ⟨hc, hst⟩⟩⟩ := hst
    split at h
    · exact push_safe (gives_transfer hm hc) hst (grow_eq_some.1 h).2
    · cases h
  · cases h
    exact foreseen_cons ⟨_, rfl, rfl⟩ hst
  · cases h
    exact foreseen_cons ⟨_, rfl, rfl⟩ hst
  · cases h
    exact foreseen_cons ⟨_, rfl, rfl⟩ hst
  · cases h

end Simple

/-! ### Data -/

section Data

variable {fn : Node → Ty → Ty → Prop}

/-- A contract that a literal names takes the parameter it is read at. -/
theorem hasTy_readContract {t : Ty} {a : Address} {v : Value Node}
    (h : readContract ctx t a = some v) : HasTy ctx fn (.contract t) v := by
  unfold readContract at h
  split at h
  · next ha =>
    cases h
    exact ⟨a, rfl, ha⟩
  · cases h

variable (hfn : ∀ {code a b}, returns b (typeSeq ctx code [a]) = true → fn (.seq code) a b)

include hfn

set_option linter.unusedSectionVars false in
mutual

/-- What is read at a type has the type, when the checker accepts the functions in it. -/
theorem hasTy_readData {t : Ty} {d : Node} {v : Value Node} (h : readData ctx t d = some v)
    (hb : typeBodies ctx t d = true) : HasTy ctx fn t v := by
  -- the cases are those of `readData`, in its order
  unfold readData at h
  split at h
  · cases h
    rfl
  · cases h
    exact ⟨_, rfl, rfl⟩
  · cases h
    exact ⟨_, rfl, rfl⟩
  · split at h <;> cases h
    exact ⟨_, rfl, rfl⟩
  · cases h
    exact ⟨_, rfl, rfl⟩
  · cases h
    exact ⟨_, rfl, rfl⟩
  · split at h <;> cases h
    exact ⟨_, rfl, rfl⟩
  · split at h <;> cases h
    exact ⟨_, rfl, rfl⟩
  · obtain ⟨a, -, rfl⟩ := Option.map_eq_some_iff.1 h
    exact ⟨_, rfl, rfl⟩
  · obtain ⟨a, -, rfl⟩ := Option.map_eq_some_iff.1 h
    exact ⟨_, rfl, rfl⟩
  · obtain ⟨a, -, h⟩ := Option.bind_eq_some_iff.1 h
    exact hasTy_readContract h
  · obtain ⟨a, -, h⟩ := Option.bind_eq_some_iff.1 h
    exact hasTy_readContract h
  · obtain ⟨v, hv, h⟩ := Option.bind_eq_some_iff.1 h
    obtain ⟨w, hw, h⟩ := Option.bind_eq_some_iff.1 h
    obtain ⟨hbv, hbw⟩ := Bool.and_eq_true_iff.1 hb
    cases h
    exact hasTy_pair.2 ⟨hasTy_readData hv hbv, hasTy_readData hw hbw⟩
  · obtain ⟨v, hv, h⟩ := Option.bind_eq_some_iff.1 h
    cases h
    exact Or.inl ⟨v, rfl, hasTy_readData hv hb⟩
  · obtain ⟨v, hv, h⟩ := Option.bind_eq_some_iff.1 h
    cases h
    exact Or.inr ⟨v, rfl, hasTy_readData hv hb⟩
  · cases h
    exact ⟨_, rfl, hfn hb⟩
  · obtain ⟨v, hv, h⟩ := Option.bind_eq_some_iff.1 h
    cases h
    exact Or.inr ⟨v, rfl, hasTy_readData hv hb⟩
  · cases h
    exact Or.inl rfl
  · obtain ⟨vs, hvs, h⟩ := Option.bind_eq_some_iff.1 h
    cases h
    exact ⟨vs, rfl, hasTy_readItems hvs hb⟩
  · obtain ⟨entries, hentries, h⟩ := Option.bind_eq_some_iff.1 h
    split at h <;> cases h
    exact ⟨entries, rfl, by assumption, hasTy_readEntries hentries hb⟩
  · cases h
termination_by sizeOf d

/-- The elements of a list literal have its type when the functions in them are checked. -/
theorem hasTy_readItems {t : Ty} {items : List Node} {vs : List (Value Node)}
    (h : readItems ctx t items = some vs) (hb : typeBodiesAll ctx t items = true) :
    ∀ v ∈ vs, HasTy ctx fn t v := by
  cases items with
  | nil =>
    cases h
    simp
  | cons d items =>
    obtain ⟨v, hv, h⟩ := Option.bind_eq_some_iff.1 h
    obtain ⟨vs', hvs, h⟩ := Option.bind_eq_some_iff.1 h
    obtain ⟨hbd, hbs⟩ := Bool.and_eq_true_iff.1 hb
    cases h
    exact List.forall_mem_cons.2 ⟨hasTy_readData hv hbd, hasTy_readItems hvs hbs⟩
termination_by sizeOf items

/-- The entries of a map literal, likewise. -/
theorem hasTy_readEntries {k : ComparableTy} {t : Ty} {items : List Node}
    {entries : List (Atom × Value Node)} (h : readEntries ctx k t items = some entries)
    (hb : typeBodiesEntries ctx t items = true) :
    ∀ x ∈ entries, x.1.ty = k ∧ HasTy ctx fn t x.2 := by
  unfold readEntries at h
  split at h
  · cases h
    simp
  · split at h
    · next hkey =>
      obtain ⟨v, hv, h⟩ := Option.bind_eq_some_iff.1 h
      obtain ⟨rest, hrest, h⟩ := Option.bind_eq_some_iff.1 h
      obtain ⟨hbv, hbs⟩ := Bool.and_eq_true_iff.1 hb
      cases h
      -- a key holds no functions
      obtain ⟨a, ha, hty⟩ := hasTy_readData hkey (typeBodies_comparable ..)
      cases ha
      exact List.forall_mem_cons.2 ⟨⟨hty, hasTy_readData hv hbv⟩, hasTy_readEntries hrest hbs⟩
    · cases h
  · cases h
termination_by sizeOf items

end

end Data

/-! ### Instructions -/

section Instructions

variable {fn : Node → Ty → Ty → Prop} {exec : Node → Value Node → Outcome Node (Value Node)}
  {n : ℕ} {ts : StackTy} {st : Stack} {j j₁ j₂ : Judgement}

/-- The stack after two branches is foreseen by what the branches are merged to; a branch that
always fails foresees nothing. -/
theorem foreseen_of_merge (h : merge j₁ j₂ = some j)
    (hst : Foreseen ctx fn j₁ st ∨ Foreseen ctx fn j₂ st) : Foreseen ctx fn j st := by
  unfold merge at h
  split at h
  · split at h <;> cases h
    subst_vars
    exact hst.elim id id
  · cases h
    refine hst.elim id ?_
    rintro ⟨_, h, -⟩
    cases h
  · cases h
    refine hst.elim ?_ id
    rintro ⟨_, h, -⟩
    cases h
  · cases h
    exact hst.elim id id

/-- A sequence is safe when each of its instructions is. -/
theorem steps_safe_of {code : List Node}
    (ih : ∀ i ∈ code, ∀ ts st j, typeInstr ctx i ts = some j → StackHasTy ctx fn ts st →
      Safe (Foreseen ctx fn j) (step ctx exec n i st))
    (h : typeSeq ctx code ts = some j) (hst : StackHasTy ctx fn ts st) :
    Safe (Foreseen ctx fn j) (steps ctx exec n code st) := by
  induction code generalizing ts st with
  | nil =>
    cases h
    exact ⟨ts, rfl, hst⟩
  | cons i code ihc =>
    have hi := ih i List.mem_cons_self
    cases code with
    | nil => exact (hi _ _ _ h hst).bind fun st' hst' => hst'
    | cons i' code =>
      rw [typeSeq] at h
      · split at h
        · next heq =>
          refine (hi _ _ _ heq hst).bind fun st' hst' => ?_
          obtain ⟨_, hts, hst'⟩ := hst'
          cases hts
          exact ihc (fun k hk => ih k (List.mem_cons_of_mem _ hk)) h hst'
        · cases h
      · simp

/-- A `PUSH` whose type and literal can be read. -/
theorem step_push {t d : Node} {annots : List String} {τ : Ty} {v : Value Node}
    (ht : readTy t = some τ) (hv : readData ctx τ d = some v) :
    step ctx exec n (.prim .iPush [t, d] annots) st = .ok (v :: st) := by
  simp only [step, ht, hv, Option.bind_some]

/-- A `CONTRACT` whose type can be read. -/
theorem step_contract {t : Node} {annots : List String} {τ : Ty} {v : Value Node}
    (ht : readTy t = some τ) :
    step ctx exec n (.prim .iContract [t] annots) (v :: st) = push (v.toContract ctx τ) st := by
  simp only [step, ht]

/-- An instruction without arguments, other than a call. -/
theorem step_simple {p : Prim} {annots : List String} (hp : p ≠ .iExec) :
    step ctx exec n (.prim p [] annots) st = simple ctx p st := by
  rw [step]
  exact fun _ _ _ _ h => hp h

/-- A condition is a boolean on top of the stack. -/
theorem popBool_safe (hst : StackHasTy ctx fn (.comparable .bool :: ts) st) :
    Safe (fun p => StackHasTy ctx fn ts p.2) (popBool st) := by
  obtain _ | ⟨⟨x, rfl, hx⟩, hst⟩ := hst
  cases x <;> cases hx
  exact hst

/-- A loop: before each round the condition stands on a stack of the types `ts`. -/
theorem loop_safe {body : List Node} {annots : List String}
    (hbody : ∀ {j st}, typeSeq ctx body ts = some j → StackHasTy ctx fn ts st →
      Safe (Foreseen ctx fn j) (steps ctx exec n body st))
    (h : typeInstr ctx (.prim .iLoop [.seq body] annots) (.comparable .bool :: ts) = some j)
    (hst : StackHasTy ctx fn (.comparable .bool :: ts) st) :
    Safe (Foreseen ctx fn j) (step ctx exec n (.prim .iLoop [.seq body] annots) st) := by
  have hround : j = .typed ts ∧ ∀ st, StackHasTy ctx fn ts st →
      Safe (StackHasTy ctx fn (.comparable .bool :: ts)) (steps ctx exec n body st) := by
    rw [typeInstr] at h
    split at h
    · next heq =>
      split at h <;> cases h
      subst_vars
      refine ⟨rfl, fun st hst => (hbody heq hst).mono ?_⟩
      rintro st' ⟨_, hts, hst'⟩
      cases hts
      exact hst'
    · next heq =>
      cases h
      refine ⟨rfl, fun st hst => (hbody heq hst).mono ?_⟩
      rintro st' ⟨_, hts, -⟩
      cases hts
    · cases h
  obtain ⟨rfl, hround⟩ := hround
  refine Safe.mono (P := StackHasTy ctx fn ts) ?_ fun st' hst' => ⟨ts, rfl, hst'⟩
  exact Safe.iterate (fun st hst => popBool_safe hst) hround hst

/-- A call, when the function does what its type says. -/
theorem exec_safe (hexec : ∀ {f a b v}, fn f a b → HasTy ctx fn a v → Gives ctx fn b (exec f v))
    {annots : List String} (h : typeSimple ctx .iExec ts = some j) (hst : StackHasTy ctx fn ts st) :
    Safe (Foreseen ctx fn j) (step ctx exec n (.prim .iExec [] annots) st) := by
  obtain _ | ⟨hv, _ | ⟨hw, hst⟩⟩ := hst
  · cases h
  · cases h
  · rename_i a v t w ts st
    cases t with
    | lambda a' b =>
      obtain ⟨f, rfl, hf⟩ := hw
      change (if a = a' then ret b ts else none) = some j at h
      split at h
      · next heq =>
        subst heq
        exact push_safe (hexec hf hv) hst h
      · cases h
    | _ => cases h

variable (hfn : ∀ {code a b}, returns b (typeSeq ctx code [a]) = true → fn (.seq code) a b)
  (hexec : ∀ {f a b v}, fn f a b → HasTy ctx fn a v → Gives ctx fn b (exec f v))

include hfn hexec

/-- **One instruction.** What the checker accepts is safe, when calls are. -/
theorem step_safe {i : Node} (h : typeInstr ctx i ts = some j) (hst : StackHasTy ctx fn ts st) :
    Safe (Foreseen ctx fn j) (step ctx exec n i st) := by
  induction i using Node.ind generalizing ts st j with
  | int | string | bytes =>
    unfold typeInstr at h
    cases h
  | seq code ih => exact steps_safe_of (fun i hi _ _ _ => ih i hi) h hst
  | prim p children annots ih =>
    -- the code that an instruction runs is a sequence among its arguments
    have hcode : ∀ code, .seq code ∈ children → ∀ {ts st j}, typeSeq ctx code ts = some j →
        StackHasTy ctx fn ts st → Safe (Foreseen ctx fn j) (steps ctx exec n code st) :=
      fun code hmem _ _ _ h hst => ih _ hmem h hst
    unfold typeInstr at h
    split at h
    · rename_i heq
      cases heq
    · rename_i heq
      cases heq
      obtain ⟨t, ht, h⟩ := Option.bind_eq_some_iff.1 h
      split at h
      · next hdata =>
        obtain ⟨hsome, hbodies⟩ := Bool.and_eq_true_iff.1 hdata
        obtain ⟨v, hv⟩ := Option.isSome_iff_exists.1 hsome
        obtain ⟨-, h⟩ := grow_eq_some.1 h
        cases h
        rw [step_push (parseTy_eq_some.1 ht).1 hv]
        exact foreseen_cons (hasTy_readData hfn hv hbodies) hst
      · cases h
    · rename_i heq
      cases heq
      obtain ⟨t, -, h⟩ := Option.bind_eq_some_iff.1 h
      obtain ⟨-, h⟩ := grow_eq_some.1 h
      cases h
      exact foreseen_cons (Or.inl rfl) hst
    · rename_i heq
      cases heq
      obtain ⟨t, -, h⟩ := Option.bind_eq_some_iff.1 h
      obtain ⟨-, h⟩ := grow_eq_some.1 h
      cases h
      exact foreseen_cons ⟨[], rfl, by simp⟩ hst
    · rename_i heq
      cases heq
      obtain ⟨k, -, h⟩ := Option.bind_eq_some_iff.1 h
      obtain ⟨t, -, h⟩ := Option.bind_eq_some_iff.1 h
      obtain ⟨-, h⟩ := grow_eq_some.1 h
      cases h
      exact foreseen_cons ⟨[], rfl, SortedMap.sorted_nil, by simp⟩ hst
    · rename_i heq
      cases heq
      obtain ⟨t, -, h⟩ := Option.bind_eq_some_iff.1 h
      obtain _ | ⟨hv, hst⟩ := hst
      cases h
      exact foreseen_cons (Or.inl ⟨_, rfl, hv⟩) hst
    · rename_i heq
      cases heq
      obtain ⟨t, -, h⟩ := Option.bind_eq_some_iff.1 h
      obtain _ | ⟨hv, hst⟩ := hst
      cases h
      exact foreseen_cons (Or.inr ⟨_, rfl, hv⟩) hst
    · rename_i heq
      cases heq
      obtain ⟨t, ht, h⟩ := Option.bind_eq_some_iff.1 h
      obtain _ | ⟨hv, hst⟩ := hst
      rw [step_contract (parseTy_eq_some.1 ht).1]
      exact push_safe (gives_toContract hv) hst (grow_eq_some.1 h).2
    · rename_i heq
      cases heq
      obtain _ | ⟨hv, hst⟩ := hst
      split at h
      · next hbody =>
        cases h
        refine (hcode _ (by simp) hbody hst).bind fun st' hst' => ?_
        obtain ⟨_, hts, hst'⟩ := hst'
        cases hts
        exact foreseen_cons hv hst'
      · cases h
    · rename_i heq
      cases heq
      obtain ⟨j₁, h₁, h⟩ := Option.bind_eq_some_iff.1 h
      obtain ⟨j₂, h₂, h⟩ := Option.bind_eq_some_iff.1 h
      obtain _ | ⟨⟨x, rfl, hx⟩, hst⟩ := hst
      cases x <;> cases hx
      rename_i b
      cases b with
      | true => exact (hcode _ (by simp) h₁ hst).mono fun _ h' => foreseen_of_merge h (.inl h')
      | false => exact (hcode _ (by simp) h₂ hst).mono fun _ h' => foreseen_of_merge h (.inr h')
    · rename_i heq
      cases heq
      obtain ⟨j₁, h₁, h⟩ := Option.bind_eq_some_iff.1 h
      obtain ⟨j₂, h₂, h⟩ := Option.bind_eq_some_iff.1 h
      obtain _ | ⟨rfl | ⟨w, rfl, hw⟩, hst⟩ := hst
      · exact (hcode _ (by simp) h₁ hst).mono fun _ h' => foreseen_of_merge h (.inl h')
      · exact (hcode _ (by simp) h₂ (.cons hw hst)).mono fun _ h' => foreseen_of_merge h (.inr h')
    · rename_i heq
      cases heq
      obtain ⟨j₁, h₁, h⟩ := Option.bind_eq_some_iff.1 h
      obtain ⟨j₂, h₂, h⟩ := Option.bind_eq_some_iff.1 h
      obtain _ | ⟨⟨w, rfl, hw⟩ | ⟨w, rfl, hw⟩, hst⟩ := hst
      · exact (hcode _ (by simp) h₁ (.cons hw hst)).mono fun _ h' => foreseen_of_merge h (.inl h')
      · exact (hcode _ (by simp) h₂ (.cons hw hst)).mono fun _ h' => foreseen_of_merge h (.inr h')
    · rename_i heq
      cases heq
      exact loop_safe (fun hbody hst => hcode _ (by simp) hbody hst) h hst
    · rename_i heq
      cases heq
      by_cases hp : p = .iExec
      · subst hp
        exact exec_safe hexec h hst
      · rw [step_simple hp]
        exact simple_safe h hp hst
    · cases h

end Instructions

/-! ### Code -/

/-- The checker accepts the body of the function. -/
def Checked (ctx : Context) (f : Node) (a b : Ty) : Prop :=
  ∃ code, f = .seq code ∧ returns b (typeSeq ctx code [a]) = true

/-- The body of a checked function never returns, or leaves its result alone. -/
theorem exists_of_returns {b : Ty} {o : Option Judgement} (h : returns b o = true) :
    ∃ j, o = some j ∧ ∀ ts, j = .typed ts → ts = [b] := by
  unfold returns at h
  split at h
  · refine ⟨_, rfl, fun ts hts => ?_⟩
    cases hts
    exact eq_of_beq h
  · exact ⟨_, rfl, fun ts hts => nomatch hts⟩
  · cases h

/-- A function leaves one value. -/
theorem singleton_safe {fn : Node → Ty → Ty → Prop} {b : Ty} {st : Stack}
    (hst : StackHasTy ctx fn [b] st) : Gives ctx fn b (singleton st) := by
  obtain _ | ⟨hv, _ | _⟩ := hst
  exact hv

/-- Functions that the checker accepts do what their types say, at every depth. -/
theorem call_safe (d : ℕ) {f : Node} {a b : Ty} {v : Value Node} (hf : Checked ctx f a b)
    (hv : HasTy ctx (Checked ctx) a v) : Gives ctx (Checked ctx) b (call ctx d f v) := by
  induction d generalizing f a b v with
  | zero => exact nofun
  | succ d ih =>
    obtain ⟨code, rfl, hcode⟩ := hf
    have hst : StackHasTy ctx (Checked ctx) [a] [v] := .cons hv .nil
    obtain ⟨j, hj, hb⟩ := exists_of_returns hcode
    refine (step_safe (fun h => ⟨_, rfl, h⟩) ih (i := .seq code) hj hst).bind ?_
    rintro st' ⟨ts, rfl, hst'⟩
    cases hb ts rfl
    exact singleton_safe hst'

/-- **Checked code never gets stuck.** From a stack of the types that it was checked on, code
runs, at every depth, to a stack of the types that the checker found, or stops with a
`FAILWITH`, an overflow or the end of the depth. -/
theorem run_safe (d : ℕ) {code : Node} {ts aft : StackTy} {st : Stack}
    (h : typeInstr ctx code ts = some (.typed aft)) (hst : StackHasTy ctx (Checked ctx) ts st) :
    Safe (StackHasTy ctx (Checked ctx) aft) (run ctx d code st) := by
  refine (step_safe (fun h => ⟨_, rfl, h⟩) (call_safe d) h hst).mono ?_
  rintro st' ⟨_, hts, hst'⟩
  cases hts
  exact hst'

/-- Halve an integer until it is at most one. -/
def halving : Node :=
  .seq [.prim .iDup [] [], .prim .iPush [.prim .tInt [] [], .int 1] [], .prim .iCompare [] [],
    .prim .iLt [] [], .prim .iLoop [.seq [.prim .iPush [.prim .tNat [] [], .int 2] [],
      .prim .iSwap [] [], .prim .iEdiv [] [],
      .prim .iIfNone [.seq [.prim .iUnit [] [], .prim .iFailwith [] []],
        .seq [.prim .iCar [] []]] [],
      .prim .iDup [] [], .prim .iPush [.prim .tInt [] [], .int 1] [], .prim .iCompare [] [],
      .prim .iLt [] []]] []]

/-- A loop on fixed input, which halves a number down to zero. -/
theorem halving_safe :
    Safe (StackHasTy Context.empty (Checked Context.empty) [.comparable .int])
      (run Context.empty 9 halving [.int 100]) := by
  have hst : StackHasTy Context.empty (Checked Context.empty) [.comparable .int] [.int 100] :=
    .cons ⟨_, rfl, rfl⟩ .nil
  exact run_safe 9 (by decide) hst

end Michelson
