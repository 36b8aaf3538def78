import Ligo.Library.Outcome
import Mathlib.Order.Basic
import Mathlib.Data.Nat.Basic

/-!
# Computations with fuel

A computation with fuel is a family `ℕ → Except ε α` that answers a distinguished
error `out` when the fuel runs out. `Extends out a b` says that `b` is `a` with more
fuel: whatever `a` answers, other than `out`, `b` answers too. The relation is
carried through sequencing (`Extends.bind`) and through bounded loops
(`iterate_extends`), so a family built from these grows with its fuel, and a
growing family has at most one result (`Grows.unique`).
-/

namespace Fuel

universe u

variable {σ α β : Type u} {ε : Type*}

/-! ### Sequencing -/

/-- What a successful sequence of two steps went through. -/
theorem bind_eq_ok {r : Except ε α} {k : α → Except ε β} {b : β} :
    (r >>= k) = .ok b ↔ ∃ a, r = .ok a ∧ k a = .ok b := by
  cases r with
  | ok a => simp [bind, Except.bind]
  | error e => simp [bind, Except.bind]

/-- What a successful computation went through whose result is mapped. -/
theorem map_eq_ok {r : Except ε α} {f : α → β} {b : β} :
    (r >>= fun a => (pure (f a) : Except ε β)) = .ok b ↔ ∃ a, r = .ok a ∧ f a = b := by
  cases r with
  | ok a => simp [bind, Except.bind, pure, Except.pure]
  | error e => simp [bind, Except.bind]

/-- What two successful computations went through whose results are combined. -/
theorem map₂_eq_ok {γ : Type u} {r : Except ε α} {r' : Except ε β} {f : α → β → γ} {c : γ} :
    (r >>= fun a => r' >>= fun b => (pure (f a b) : Except ε γ)) = .ok c ↔
      ∃ a b, r = .ok a ∧ r' = .ok b ∧ f a b = c := by
  rw [bind_eq_ok]
  constructor
  · rintro ⟨a, ha, h⟩
    obtain ⟨b, hb, hc⟩ := map_eq_ok.1 h
    exact ⟨a, b, ha, hb, hc⟩
  · rintro ⟨a, b, ha, hb, hc⟩
    exact ⟨a, ha, map_eq_ok.2 ⟨b, hb, hc⟩⟩

/-- Translate the errors and the answers of a computation. -/
def bimap {ε' : Type*} {β : Type*} (e : ε → ε') (f : α → β) : Except ε α → Except ε' β
  | .ok a => .ok (f a)
  | .error s => .error (e s)

/-- Sequences correspond when their parts do. -/
theorem bind_bimap {ε' : Type*} {α' β' : Type u} {e : ε → ε'} {f : α → α'} {g : β → β'}
    {o : Except ε α} {o' : Except ε' α'} {k : α → Except ε β} {k' : α' → Except ε' β'}
    (ho : o' = bimap e f o) (hk : ∀ a, o = .ok a → k' (f a) = bimap e g (k a)) :
    o' >>= k' = bimap e g (o >>= k) := by
  subst ho
  cases o with
  | ok a => exact hk a rfl
  | error s => rfl

/-- Sequences that start alike correspond when what follows does. -/
theorem bind_bimap_right {β' : Type u} {g : β → β'} {o : Except ε α} {k : α → Except ε β}
    {k' : α → Except ε β'} (hk : ∀ a, k' a = bimap id g (k a)) :
    o >>= k' = bimap id g (o >>= k) := by
  cases o with
  | ok a => exact hk a
  | error s => rfl

/-! ### More fuel -/

/-- Every answer of `a` other than `out` is the answer of `b`. -/
def Extends (out : ε) (a b : Except ε α) : Prop :=
  a ≠ .error out → b = a

/-- More fuel may give the same. -/
@[refl] theorem Extends.refl (out : ε) (a : Except ε α) : Extends out a a := fun _ => rfl

theorem Extends.out (out : ε) (b : Except ε α) : Extends out (.error out) b :=
  fun h => absurd rfl h

/-- A result stays. -/
theorem Extends.ok {out : ε} {a b : Except ε α} {x : α} (h : Extends out a b)
    (ha : a = .ok x) : b = .ok x := by
  rw [← ha]
  exact h (by rw [ha]; exact nofun)

/-- More and still more fuel. -/
theorem Extends.trans {out : ε} {a b c : Except ε α} (hab : Extends out a b)
    (hbc : Extends out b c) : Extends out a c := by
  intro ha
  have hb : b = a := hab ha
  rw [← hb]
  exact hbc (hb ▸ ha)

/-- Sequencing extends when both parts do. -/
theorem Extends.bind {out : ε} {a b : Except ε α} {f g : α → Except ε β}
    (h : Extends out a b) (hf : ∀ x, Extends out (f x) (g x)) :
    Extends out (a >>= f) (b >>= g) := by
  cases a with
  | ok x =>
    rw [h nofun]
    exact hf x
  | error e =>
    intro hne
    rw [h (by simpa [Except.bind, Bind.bind] using hne)]
    rfl

/-! ### Growing families -/

/-- More fuel extends the answer. -/
def Grows (out : ε) (f : ℕ → Except ε α) : Prop :=
  ∀ n m, n ≤ m → Extends out (f n) (f m)

/-- What grows by one step grows by any number. -/
theorem grows_of_succ {out : ε} {f : ℕ → Except ε α}
    (h : ∀ n, Extends out (f n) (f (n + 1))) : Grows out f := by
  intro n m hnm
  induction hnm with
  | refl => rfl
  | step _ ih => exact ih.trans (h _)

/-- A growing family has one result. -/
theorem Grows.unique {out : ε} {f : ℕ → Except ε α} (h : Grows out f) {n m : ℕ} {x y : α}
    (hx : f n = .ok x) (hy : f m = .ok y) : x = y := by
  have hn := (h n (max n m) (le_max_left ..)).ok hx
  have hm := (h m (max n m) (le_max_right ..)).ok hy
  rw [hn] at hm
  exact Except.ok.inj hm

/-! ### Bounded loops -/

variable {τ : Type u}

/-- While `test` holds, run `body`; stop with `out` after `n` rounds. The test takes a
state before it to a state after it, the body takes it back. -/
def iterate (test : σ → Except ε (Bool × τ)) (body : τ → Except ε σ) (out : ε) :
    ℕ → σ → Except ε τ
  | 0, _ => .error out
  | n + 1, s => do
    let (b, t) ← test s
    if b then iterate test body out n (← body t) else .ok t

/-- One round of a loop. -/
theorem iterate_succ (test : σ → Except ε (Bool × τ)) (body : τ → Except ε σ) (out : ε)
    (n : ℕ) (s : σ) :
    iterate test body out (n + 1) s = test s >>= fun p =>
      if p.1 then body p.2 >>= iterate test body out n else .ok p.2 := rfl

/-- An invariant of the test and the body holds at the end of the loop. -/
theorem iterate_inv {P : σ → Prop} {Q : τ → Prop} {out : ε} {test : σ → Except ε (Bool × τ)}
    {body : τ → Except ε σ} (htest : ∀ s p, P s → test s = .ok p → Q p.2)
    (hbody : ∀ t s, Q t → body t = .ok s → P s) {n : ℕ} {s : σ} {t : τ} (hs : P s)
    (h : iterate test body out n s = .ok t) : Q t := by
  induction n generalizing s with
  | zero => cases h
  | succ n ih =>
    rw [iterate_succ] at h
    obtain ⟨p, hp, h⟩ := bind_eq_ok.1 h
    split at h
    · obtain ⟨s₁, hs₁, h⟩ := bind_eq_ok.1 h
      exact ih (hbody _ _ (htest _ _ hs hp) hs₁) h
    · cases h
      exact htest _ _ hs hp

/-- Translations of the states that commute with the test and the body commute with the
loop. -/
theorem iterate_bimap {σ' τ' : Type u} {ε' : Type*} {P : σ → Prop} {Q : τ → Prop}
    {e : ε → ε'} {f : σ → σ'} {g : τ → τ'} {out : ε} {out' : ε'}
    {test : σ → Except ε (Bool × τ)} {body : τ → Except ε σ}
    {test' : σ' → Except ε' (Bool × τ')} {body' : τ' → Except ε' σ'} (hout : out' = e out)
    (htest : ∀ s, P s → test' (f s) = bimap e (fun p => (p.1, g p.2)) (test s))
    (hbody : ∀ t, Q t → body' (g t) = bimap e f (body t))
    (hQ : ∀ s p, P s → test s = .ok p → Q p.2)
    (hP : ∀ t s, Q t → body t = .ok s → P s) {n : ℕ} {s : σ} {s' : σ'} (hs : P s)
    (hs' : s' = f s) :
    iterate test' body' out' n s' = bimap e g (iterate test body out n s) := by
  subst hout hs'
  induction n generalizing s with
  | zero => rfl
  | succ n ih =>
    rw [iterate_succ, iterate_succ]
    refine bind_bimap (htest s hs) fun p hp => ?_
    have hq := hQ _ _ hs hp
    obtain ⟨b, t⟩ := p
    cases b with
    | false => rfl
    | true => exact bind_bimap (hbody t hq) fun s₁ hs₁ => ih (hP _ _ hq hs₁)

/-- A loop with more rounds, whose test and body extend, extends. -/
theorem iterate_extends {out : ε} {test test' : σ → Except ε (Bool × τ)}
    {body body' : τ → Except ε σ} (htest : ∀ s, Extends out (test s) (test' s))
    (hbody : ∀ t, Extends out (body t) (body' t)) {n m : ℕ} (hnm : n ≤ m) (s : σ) :
    Extends out (iterate test body out n s) (iterate test' body' out m s) := by
  induction n generalizing m s with
  | zero => exact Extends.out _ _
  | succ n ih =>
    obtain ⟨m, rfl⟩ : ∃ m', m = m' + 1 := ⟨m - 1, by omega⟩
    rw [iterate_succ, iterate_succ]
    refine (htest s).bind fun p => ?_
    split
    · exact (hbody p.2).bind fun s' => ih (by omega) s'
    · rfl

end Fuel
