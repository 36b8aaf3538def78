import Ligo.Trace
import Mathlib.Data.Int.Notation

/-!
# Exceptions

Code that may also leave the result monad by an exception of OCaml. `Raising` has both: a
computation raises, or it returns a result, which is a value or a stack of errors. What
follows an error is not run, so only the code before it can raise.
-/

namespace Ligo

/-- The exceptions that the modelled code can raise. -/
inductive Exception where
  | invalidArgument (f : String)
  | failure (f : String)
  | notFound
  | assertFailure
  | matchFailure
  | overflow
  deriving DecidableEq, Repr

/-- A computation that raises or returns a result. -/
abbrev Raising (α : Type) := ExceptT (List String) (Except Exception) α

namespace Raising

variable {α β : Type}

def raise (e : Exception) : Raising α := ExceptT.mk (.error e)

/-- A result, returned. -/
def lift (r : Result α) : Raising α := ExceptT.mk (.ok r)

/-- The computation returns a result. -/
def Returns (x : Raising α) : Prop := ∃ r : Result α, x.run = .ok r

/-- Results that are chained are lifted together. -/
theorem lift_bind_lift (r : Result α) (f : α → Result β) :
    (lift r >>= fun a => lift (f a)) = lift (r >>= f) := by
  cases r <;> rfl

/-- A result raises nothing. -/
theorem returns_lift (r : Result α) : Returns (lift r) := ⟨r, rfl⟩

theorem lift_injective : Function.Injective (lift : Result α → Raising α) := by
  intro r r' h
  exact Except.ok.inj h

/-- `Trace.trace` on what is returned. -/
def trace (title : String) (x : Raising α) : Raising α :=
  ExceptT.mk (x.run.map (Ligo.trace title))

/-- Tracing adds to the errors and not to the exceptions. -/
theorem trace_lift (title : String) (r : Result α) :
    trace title (lift r) = lift (Ligo.trace title r) := rfl

/-! ### Lists

A list is mapped before the first error is looked for: a computation that comes after an
error is run all the same, and its exception is raised. -/

/-- Two computations of which the second one is run first (`bind_map_pair`). -/
def pair (a : Raising α) (b : Raising β) : Raising (α × β) := ExceptT.mk do
  let rb ← b.run
  let ra ← a.run
  return do
    let a ← ra
    let b ← rb
    return (a, b)

/-- A list that is mapped from its first element on. -/
def cons (hd : Raising α) (tl : Raising (List α)) : Raising (List α) := ExceptT.mk do
  let rhd ← hd.run
  let rtl ← tl.run
  return do
    let hd ← rhd
    let tl ← rtl
    return hd :: tl

/-- A list that is mapped from its last element on (`X_list.map`). -/
def consRev (hd : Raising α) (tl : Raising (List α)) : Raising (List α) := ExceptT.mk do
  let rtl ← tl.run
  let rhd ← hd.run
  return do
    let hd ← rhd
    let tl ← rtl
    return hd :: tl

/-- `bind_map_list`. -/
def mapList (f : α → Raising β) : List α → Raising (List β)
  | [] => pure []
  | hd :: tl => cons (f hd) (mapList f tl)

/-- `bind_list @@ List.map f`, where `List` is the compiler's own library. -/
def mapListRev (f : α → Raising β) : List α → Raising (List β)
  | [] => pure []
  | hd :: tl => consRev (f hd) (mapListRev f tl)

/-- `bind_fold_right_list`. -/
def foldRightList (f : α → β → Raising α) (init : α) (lst : List β) : Raising α :=
  foldRight' (fun x y => x >>= fun x => f x y) (pure init) lst

/-- The fold takes the elements from the last to the first. -/
theorem foldRightList_cons (f : α → β → Raising α) (init : α) (x : β) (lst : List β) :
    foldRightList f init (x :: lst) = foldRightList f init lst >>= fun a => f a x :=
  foldRight'_cons ..

/-! ### Partial functions -/

/-- `assert false`. -/
def assertFalse : Raising α := raise .assertFailure

/-- `Option.unopt_exn`. -/
def unoptExn : Option α → Raising α
  | none => raise .notFound
  | some x => pure x

/-- `List.hd`. -/
def head : List α → Raising α
  | [] => raise (.failure "hd")
  | a :: _ => pure a

/-- `String.sub`. -/
def stringSub (s : String) (pos len : ℤ) : Raising String :=
  if 0 ≤ pos ∧ 0 ≤ len ∧ pos ≤ s.length - len then
    pure (String.ofList ((s.toList.drop pos.toNat).take len.toNat))
  else raise (.invalidArgument "String.sub / Bytes.sub")

/-! ### Values

A computation has a value when it returns one, and then all of its parts have values. -/

section Value

theorem lift_eq_pure {r : Result α} {a : α} : lift r = pure a ↔ r = .ok a :=
  ⟨fun h => Except.ok.inj h, fun h => congrArg lift h⟩

/-- A chain succeeds when each of its steps does. -/
theorem bind_eq_pure {x : Raising α} {f : α → Raising β} {b : β} :
    x >>= f = pure b ↔ ∃ a, x = pure a ∧ f a = pure b := by
  constructor
  · intro h
    match x, h with
    | .ok (.ok a), h => exact ⟨a, rfl, h⟩
  · rintro ⟨a, rfl, h⟩
    exact h

/-- Tracing changes no success. -/
theorem trace_eq_pure {title : String} {x : Raising α} {a : α} :
    trace title x = pure a ↔ x = pure a := by
  constructor
  · intro h
    match x, h with
    | .ok (.ok _), h => exact h
  · rintro rfl
    rfl

/-- Both of a pair succeed. -/
theorem pair_eq_pure {x : Raising α} {y : Raising β} {p : α × β} :
    pair x y = pure p ↔ x = pure p.1 ∧ y = pure p.2 := by
  constructor
  · intro h
    match x, y, h with
    | .ok (.ok a), .ok (.ok b), h =>
      cases h
      exact ⟨rfl, rfl⟩
  · rintro ⟨rfl, rfl⟩
    rfl

/-- A list of computations succeeds when all of them do; the order of their effects does not
matter then. -/
theorem cons_eq_pure {hd : Raising α} {tl : Raising (List α)} {l : List α} :
    cons hd tl = pure l ↔ ∃ a as, hd = pure a ∧ tl = pure as ∧ l = a :: as := by
  constructor
  · intro h
    match hd, tl, h with
    | .ok (.ok a), .ok (.ok as), h =>
      cases h
      exact ⟨a, as, rfl, rfl, rfl⟩
  · rintro ⟨a, as, rfl, rfl, rfl⟩
    rfl

theorem consRev_eq_pure {hd : Raising α} {tl : Raising (List α)} {l : List α} :
    consRev hd tl = pure l ↔ ∃ a as, hd = pure a ∧ tl = pure as ∧ l = a :: as := by
  constructor
  · intro h
    match hd, tl, h with
    | .ok (.ok a), .ok (.ok as), h =>
      cases h
      exact ⟨a, as, rfl, rfl, rfl⟩
  · rintro ⟨a, as, rfl, rfl, rfl⟩
    rfl

/-- The elements of the result, one for each element of the list. -/
theorem mapList_eq_pure {f : α → Raising β} {lst : List α} {l : List β} :
    mapList f lst = pure l ↔ List.Forall₂ (fun x y => f x = pure y) lst l := by
  induction lst generalizing l with
  | nil =>
    rw [mapList, List.forall₂_nil_left_iff]
    exact ⟨fun h => by cases h; rfl, fun h => by rw [h]⟩
  | cons x lst ih =>
    rw [mapList, cons_eq_pure, List.forall₂_cons_left_iff]
    exact exists_congr fun a => ⟨fun ⟨as, ha, has, h⟩ => ⟨as, ha, ih.1 has, h⟩,
      fun ⟨as, ha, has, h⟩ => ⟨as, ha, ih.2 has, h⟩⟩

theorem mapListRev_eq_pure {f : α → Raising β} {lst : List α} {l : List β} :
    mapListRev f lst = pure l ↔ List.Forall₂ (fun x y => f x = pure y) lst l := by
  induction lst generalizing l with
  | nil =>
    rw [mapListRev, List.forall₂_nil_left_iff]
    exact ⟨fun h => by cases h; rfl, fun h => by rw [h]⟩
  | cons x lst ih =>
    rw [mapListRev, consRev_eq_pure, List.forall₂_cons_left_iff]
    exact exists_congr fun a => ⟨fun ⟨as, ha, has, h⟩ => ⟨as, ha, ih.1 has, h⟩,
      fun ⟨as, ha, has, h⟩ => ⟨as, ha, ih.2 has, h⟩⟩

end Value

/-! ### When a computation raises

`Settles x safe accepted Q`: `x` raises exactly when `safe` fails; otherwise it has a value
exactly when `accepted` holds, and the value satisfies `Q`. There is one rule for each way to
build a computation. -/

structure Settles (x : Raising α) (safe accepted : Prop) (Q : α → Prop) : Prop where
  returns : safe → ∃ r : Result α, x = lift r ∧ ((∃ a, r = .ok a) ↔ accepted) ∧
    ∀ a, r = .ok a → Q a
  raises : ¬ safe → ∃ e, x = raise e

section Settles

variable {x : Raising α} {safe safe' accepted accepted' : Prop} {Q : α → Prop} {Q' : β → Prop}

/-- A computation that settles raises exactly where it is not safe. -/
theorem Settles.returns_iff (h : Settles x safe accepted Q) : Returns x ↔ safe := by
  constructor
  · rintro ⟨r, hr⟩
    by_contra hsafe
    obtain ⟨e, rfl⟩ := h.raises hsafe
    cases hr
  · intro hsafe
    obtain ⟨r, rfl, -, -⟩ := h.returns hsafe
    exact returns_lift r

/-- The conditions may be written otherwise; whether it succeeds only counts where it is safe.
-/
theorem Settles.congr (h : Settles x safe accepted Q) (hs : safe ↔ safe')
    (ha : safe → (accepted ↔ accepted')) : Settles x safe' accepted' Q := by
  constructor
  · intro hsafe
    obtain ⟨r, hx, haccepted, hQ⟩ := h.returns (hs.2 hsafe)
    exact ⟨r, hx, haccepted.trans (ha (hs.2 hsafe)), hQ⟩
  · exact fun hsafe => h.raises (mt hs.1 hsafe)

/-- A weaker postcondition. -/
theorem Settles.mono {P : α → Prop} (h : Settles x safe accepted P) (hQ : ∀ a, P a → Q a) :
    Settles x safe accepted Q := by
  refine ⟨fun hsafe => ?_, h.raises⟩
  obtain ⟨r, hx, haccepted, hP⟩ := h.returns hsafe
  exact ⟨r, hx, haccepted, fun a ha => hQ a (hP a ha)⟩

/-- A result is safe and accepted. -/
theorem settles_pure {a : α} (h : Q a) : Settles (pure a) True True Q := by
  refine ⟨fun _ => ⟨.ok a, rfl, by simp, ?_⟩, fun hsafe => absurd trivial hsafe⟩
  rintro _ ⟨⟩
  exact h

/-- An error is safe and not accepted. -/
theorem settles_fail (title : String) : Settles (lift (simpleFail title)) True False Q :=
  ⟨fun _ => ⟨simpleFail title, rfl, by simp [simpleFail], nofun⟩, fun hsafe => absurd trivial hsafe⟩

/-- Nothing is run after an error. -/
theorem settles_fail_bind (title : String) (f : β → Raising α) :
    Settles (lift (simpleFail title) >>= f) True False Q :=
  settles_fail title

/-- An exception is not safe. -/
theorem settles_raise (e : Exception) : Settles (raise e) False accepted Q :=
  ⟨False.elim, fun _ => ⟨e, rfl⟩⟩

/-- What follows a computation is run when it has a value. -/
theorem Settles.bind {f : α → Raising β} (h : Settles x safe accepted Q)
    (hf : ∀ a, Q a → Settles (f a) safe' accepted' Q') :
    Settles (x >>= f) (safe ∧ (accepted → safe')) (accepted ∧ accepted') Q' := by
  by_cases hsafe : safe
  · obtain ⟨r, rfl, haccepted, hQ⟩ := h.returns hsafe
    cases r with
    | ok a =>
      have ha : accepted := haccepted.1 ⟨a, rfl⟩
      exact (hf a (hQ a rfl)).congr (by simp [hsafe, ha]) (by simp [ha])
    | error errs =>
      have ha : ¬ accepted := fun ha => nomatch haccepted.2 ha
      refine ⟨fun _ => ⟨.error errs, rfl, by simp [ha], nofun⟩, fun hn => ?_⟩
      exact absurd ⟨hsafe, fun h => absurd h ha⟩ hn
  · refine ⟨fun hs => absurd hs.1 hsafe, fun _ => ?_⟩
    obtain ⟨e, rfl⟩ := h.raises hsafe
    exact ⟨e, rfl⟩

/-- A computation followed by a function. -/
theorem Settles.map {f : α → β} (h : Settles x safe accepted Q) (hf : ∀ a, Q a → Q' (f a)) :
    Settles (x >>= fun a => pure (f a)) safe accepted Q' :=
  (h.bind fun a ha => settles_pure (hf a ha)).congr (by simp) (by simp)

/-- Tracing changes no condition. -/
theorem Settles.trace (title : String) (h : Settles x safe accepted Q) :
    Settles (Raising.trace title x) safe accepted Q := by
  constructor
  · intro hsafe
    obtain ⟨r, rfl, haccepted, hQ⟩ := h.returns hsafe
    refine ⟨Ligo.trace title r, rfl, ?_, ?_⟩
    · rw [← haccepted]
      exact exists_congr fun a => trace_eq_ok
    · exact fun a ha => hQ a (trace_eq_ok.1 ha)
  · intro hsafe
    obtain ⟨e, rfl⟩ := h.raises hsafe
    exact ⟨e, rfl⟩

/-- A computation of results is always safe. -/
theorem settles_lift {r : Result α} (ha : (∃ a, r = .ok a) ↔ accepted)
    (hQ : ∀ a, r = .ok a → Q a) : Settles (lift r) True accepted Q :=
  ⟨fun _ => ⟨r, rfl, ha, hQ⟩, fun hsafe => absurd trivial hsafe⟩

/-- Two computations that are both run, whatever the first one returns. -/
private theorem settles_both {y : Raising β} {z : Raising γ} {R : γ → Prop} {f : α → β → γ}
    (hx : Settles x safe accepted Q) (hy : Settles y safe' accepted' Q')
    (hz : ∀ r r', x = lift r → y = lift r' → z = lift (r >>= fun a => r' >>= fun b => .ok (f a b)))
    (hzx : ∀ r e, x = lift r → y = raise e → ∃ e', z = raise e')
    (hzy : ∀ e, x = raise e → ∃ e', z = raise e')
    (hf : ∀ a b, Q a → Q' b → R (f a b)) :
    Settles z (safe ∧ safe') (accepted ∧ accepted') R := by
  by_cases hsafe : safe
  · obtain ⟨r, hr, haccepted, hQ⟩ := hx.returns hsafe
    by_cases hsafe' : safe'
    · obtain ⟨r', hr', haccepted', hQ'⟩ := hy.returns hsafe'
      refine ⟨fun _ => ⟨_, hz r r' hr hr', ?_, ?_⟩, fun h => absurd ⟨hsafe, hsafe'⟩ h⟩
      · rw [← haccepted, ← haccepted']
        cases r with
        | error _ => simp [Bind.bind, Except.bind]
        | ok a => cases r' <;> simp [Bind.bind, Except.bind]
      · intro c hc
        cases r with
        | error _ => cases hc
        | ok a =>
          cases r' with
          | error _ => cases hc
          | ok b =>
            cases hc
            exact hf a b (hQ a rfl) (hQ' b rfl)
    · obtain ⟨e, he⟩ := hy.raises hsafe'
      exact ⟨fun h => absurd h.2 hsafe', fun _ => hzx r e hr he⟩
  · obtain ⟨e, he⟩ := hx.raises hsafe
    exact ⟨fun h => absurd h.1 hsafe, fun _ => hzy e he⟩

/-- Both of a pair run, whatever the other one returns, so both have to be safe. -/
theorem Settles.pair {y : Raising β} (hx : Settles x safe accepted Q)
    (hy : Settles y safe' accepted' Q') :
    Settles (Raising.pair x y) (safe ∧ safe') (accepted ∧ accepted')
      (fun p => Q p.1 ∧ Q' p.2) := by
  refine settles_both (f := Prod.mk) hx hy ?_ ?_ ?_ fun a b ha hb => ⟨ha, hb⟩
  · rintro r r' rfl rfl
    rfl
  · rintro r e rfl rfl
    exact ⟨e, rfl⟩
  · rintro e rfl
    -- the second computation is run first
    cases hy' : y.run with
    | ok r' => exact ⟨e, by rw [Raising.pair, hy']; rfl⟩
    | error e' => exact ⟨e', by rw [Raising.pair, hy']; rfl⟩

variable {tl : Raising (List α)} {Qs : List α → Prop}

/-- Likewise the elements of a list. -/
theorem Settles.cons (hx : Settles x safe accepted Q) (htl : Settles tl safe' accepted' Qs) :
    Settles (Raising.cons x tl) (safe ∧ safe') (accepted ∧ accepted')
      (fun l => ∃ a as, l = a :: as ∧ Q a ∧ Qs as) := by
  refine settles_both hx htl ?_ ?_ ?_ fun a as ha has => ⟨a, as, rfl, ha, has⟩
  · rintro r r' rfl rfl
    rfl
  · rintro r e rfl rfl
    exact ⟨e, rfl⟩
  · rintro e rfl
    exact ⟨e, rfl⟩

theorem Settles.consRev (hx : Settles x safe accepted Q) (htl : Settles tl safe' accepted' Qs) :
    Settles (Raising.consRev x tl) (safe ∧ safe') (accepted ∧ accepted')
      (fun l => ∃ a as, l = a :: as ∧ Q a ∧ Qs as) := by
  refine settles_both hx htl ?_ ?_ ?_ fun a as ha has => ⟨a, as, rfl, ha, has⟩
  · rintro r r' rfl rfl
    rfl
  · rintro r e rfl rfl
    exact ⟨e, rfl⟩
  · rintro e rfl
    cases htl' : tl.run with
    | ok r' => exact ⟨e, by rw [Raising.consRev, htl']; rfl⟩
    | error e' => exact ⟨e', by rw [Raising.consRev, htl']; rfl⟩

end Settles

end Raising

/-- `List.combine`. -/
def combine {α β : Type} (as : List α) (bs : List β) : Raising (List (α × β)) :=
  if as.length = bs.length then Raising.lift (.ok (as.zip bs))
  else Raising.raise (.invalidArgument "List.combine")

end Ligo
