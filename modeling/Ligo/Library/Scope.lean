import Mathlib.Data.List.Basic

/-!
# Environments with shadowing

An environment is an association list with the newest binding first. Names may
repeat: look-up and assignment see the newest binding of a name.

`splice k T ρ` inserts a block `T` of bindings below the `k` newest ones. Look-up and
assignment of a name that the block does not bind do not see it
(`lookup_splice`, `assign_splice`), which is what an evaluator needs in order to run
an expression above temporaries that the expression cannot name.
-/

namespace Scope

universe u

variable {κ : Type*} {α β : Type u}

/-- The names, newest first. -/
def names (ρ : List (κ × α)) : List κ := ρ.map Prod.fst

/-- The values, newest first. -/
def vals (ρ : List (κ × α)) : List α := ρ.map Prod.snd

@[simp] theorem names_nil : names ([] : List (κ × α)) = [] := rfl
@[simp] theorem vals_nil : vals ([] : List (κ × α)) = [] := rfl

@[simp] theorem names_cons (b : κ × α) (ρ : List (κ × α)) :
    names (b :: ρ) = b.1 :: names ρ := rfl

@[simp] theorem vals_cons (b : κ × α) (ρ : List (κ × α)) :
    vals (b :: ρ) = b.2 :: vals ρ := rfl

@[simp] theorem names_append (ρ ρ' : List (κ × α)) :
    names (ρ ++ ρ') = names ρ ++ names ρ' := List.map_append ..

@[simp] theorem vals_append (ρ ρ' : List (κ × α)) :
    vals (ρ ++ ρ') = vals ρ ++ vals ρ' := List.map_append ..

@[simp] theorem length_names (ρ : List (κ × α)) : (names ρ).length = ρ.length :=
  List.length_map ..

/-- Dropping a binding drops its name. -/
theorem names_tail_of_cons {ρ ρ' : List (κ × α)} {b : κ × α}
    (h : names ρ' = names (b :: ρ)) : names ρ'.tail = names ρ := by
  cases ρ' with
  | nil => cases h
  | cons b' ρ' => exact (List.cons.inj h).2

/-- Apply `f` to every value. -/
def mapVal (f : α → β) (ρ : List (κ × α)) : List (κ × β) :=
  ρ.map fun b => (b.1, f b.2)

@[simp] theorem mapVal_nil (f : α → β) : mapVal f ([] : List (κ × α)) = [] := rfl

@[simp] theorem mapVal_cons (f : α → β) (b : κ × α) (ρ : List (κ × α)) :
    mapVal f (b :: ρ) = (b.1, f b.2) :: mapVal f ρ := rfl

@[simp] theorem names_mapVal (f : α → β) (ρ : List (κ × α)) :
    names (mapVal f ρ) = names ρ := by
  simp [names, mapVal]

@[simp] theorem vals_mapVal (f : α → β) (ρ : List (κ × α)) :
    vals (mapVal f ρ) = (vals ρ).map f := by
  simp [vals, mapVal]

/-! ### Look-up and assignment -/

section Lookup

variable [DecidableEq κ]

/-- The value of the newest binding. -/
@[simp] def lookup (x : κ) : List (κ × α) → Option α
  | [] => none
  | (y, a) :: ρ => if x = y then some a else lookup x ρ

/-- Replace the value of the newest binding. -/
@[simp] def assign (x : κ) (a : α) : List (κ × α) → List (κ × α)
  | [] => []
  | (y, b) :: ρ => if x = y then (y, a) :: ρ else (y, b) :: assign x a ρ

/-- Assigning binds no new name. -/
@[simp] theorem names_assign (x : κ) (a : α) (ρ : List (κ × α)) :
    names (assign x a ρ) = names ρ := by
  induction ρ with
  | nil => rfl
  | cons b ρ ih =>
    simp only [assign]
    split
    · rfl
    · simp [ih]

/-- A name that is bound has the value that is assigned. -/
theorem lookup_assign {x : κ} {b : α} {ρ : List (κ × α)} (h : lookup x ρ = some b) (a : α) :
    lookup x (assign x a ρ) = some a := by
  induction ρ with
  | nil => cases h
  | cons c ρ ih =>
    by_cases hx : x = c.1
    · rw [assign, if_pos hx, lookup, if_pos hx]
    · rw [lookup, if_neg hx] at h
      rw [assign, if_neg hx, lookup, if_neg hx, ih h]

/-- The other names keep their values. -/
theorem lookup_assign_ne {x y : κ} (h : y ≠ x) (a : α) (ρ : List (κ × α)) :
    lookup y (assign x a ρ) = lookup y ρ := by
  induction ρ with
  | nil => rfl
  | cons c ρ ih =>
    by_cases hx : x = c.1
    · have hy : y ≠ c.1 := hx ▸ h
      rw [assign, if_pos hx, lookup, if_neg hy, lookup, if_neg hy]
    · rw [assign, if_neg hx, lookup, lookup, ih]

/-- The last assignment to a name counts. -/
theorem assign_assign (x : κ) (a b : α) (ρ : List (κ × α)) :
    assign x b (assign x a ρ) = assign x b ρ := by
  induction ρ with
  | nil => rfl
  | cons c ρ ih =>
    by_cases hx : x = c.1
    · rw [assign, if_pos hx, assign, if_pos hx, assign, if_pos hx]
    · rw [assign, if_neg hx, assign, if_neg hx, assign, if_neg hx, ih]

/-- Assignments to different names commute. -/
theorem assign_comm {x y : κ} (h : x ≠ y) (a b : α) (ρ : List (κ × α)) :
    assign x a (assign y b ρ) = assign y b (assign x a ρ) := by
  induction ρ with
  | nil => rfl
  | cons c ρ ih =>
    by_cases hx : x = c.1
    · have hy : y ≠ c.1 := hx ▸ h.symm
      simp only [assign, if_pos hx, if_neg hy]
    · by_cases hy : y = c.1
      · simp only [assign, if_neg hx, if_pos hy]
      · simp only [assign, if_neg hx, if_neg hy, ih]

/-- Assigning the value that a name has changes nothing. -/
theorem assign_lookup {x : κ} {a : α} {ρ : List (κ × α)} (h : lookup x ρ = some a) :
    assign x a ρ = ρ := by
  induction ρ with
  | nil => rfl
  | cons c ρ ih =>
    by_cases hx : x = c.1
    · rw [lookup, if_pos hx] at h
      cases h
      rw [assign, if_pos hx]
    · rw [lookup, if_neg hx] at h
      rw [assign, if_neg hx, ih h]

/-- A change of all values commutes with looking up. -/
theorem lookup_mapVal (f : α → β) (x : κ) (ρ : List (κ × α)) :
    lookup x (mapVal f ρ) = (lookup x ρ).map f := by
  induction ρ with
  | nil => rfl
  | cons b ρ ih =>
    simp only [mapVal_cons, lookup]
    split
    · rfl
    · exact ih

/-- A change of all values commutes with assigning. -/
theorem assign_mapVal (f : α → β) (x : κ) (a : α) (ρ : List (κ × α)) :
    assign x (f a) (mapVal f ρ) = mapVal f (assign x a ρ) := by
  induction ρ with
  | nil => rfl
  | cons b ρ ih =>
    simp only [mapVal_cons, assign]
    split
    · rfl
    · rw [ih, mapVal_cons]

/-- What is not found is not bound. -/
theorem lookup_eq_none {x : κ} {ρ : List (κ × α)} : lookup x ρ = none ↔ x ∉ names ρ := by
  induction ρ with
  | nil => simp [lookup]
  | cons b ρ ih =>
    simp only [lookup, names_cons, List.mem_cons, not_or]
    split
    · rename_i h
      simp [h]
    · rename_i h
      simp [h, ih]

/-- Bindings of other names in front do not matter. -/
theorem lookup_append_of_notMem {x : κ} {T : List (κ × α)} (h : x ∉ names T)
    (ρ : List (κ × α)) : lookup x (T ++ ρ) = lookup x ρ := by
  induction T with
  | nil => rfl
  | cons b T ih =>
    simp only [names_cons, List.mem_cons, not_or] at h
    rw [List.cons_append, lookup, if_neg h.1, ih h.2]

/-- A binding in front hides those behind it. -/
theorem lookup_append_of_mem {x : κ} {T : List (κ × α)} (h : (lookup x T).isSome)
    (ρ : List (κ × α)) : lookup x (T ++ ρ) = lookup x T := by
  induction T with
  | nil => cases h
  | cons b T ih =>
    rw [List.cons_append, lookup, lookup]
    by_cases hx : x = b.1
    · rw [if_pos hx, if_pos hx]
    · rw [lookup, if_neg hx] at h
      rw [if_neg hx, if_neg hx, ih h]

/-- Binding a name last or first makes a difference for that name only, and only when it is
bound in between. -/
theorem lookup_concat {x y : κ} {ρ : List (κ × α)} (h : x ≠ y ∨ y ∉ names ρ) (a : α) :
    lookup x (ρ ++ [(y, a)]) = lookup x ((y, a) :: ρ) := by
  by_cases hxy : x = y
  · subst hxy
    have hx : x ∉ names ρ := h.resolve_left fun hne => hne rfl
    rw [lookup_append_of_notMem hx, lookup, if_pos rfl, lookup, if_pos rfl]
  · rw [lookup, if_neg hxy]
    clear h
    induction ρ with
    | nil => simp [lookup, hxy]
    | cons b ρ ih => rw [List.cons_append, lookup, lookup, ih]

/-- A binding of another name in between. -/
theorem lookup_append_cons_ne {x : κ} {b : κ × α} (h : x ≠ b.1) (T ρ : List (κ × α)) :
    lookup x (T ++ b :: ρ) = lookup x (T ++ ρ) := by
  induction T with
  | nil => rw [List.nil_append, List.nil_append, lookup, if_neg h]
  | cons c T ih => rw [List.cons_append, List.cons_append, lookup, lookup, ih]

/-- Bindings of distinct names may be made in any order; here in the opposite one. -/
theorem lookup_reverse_append {T : List (κ × α)} (h : (names T).Nodup) (x : κ)
    (ρ : List (κ × α)) : lookup x (T.reverse ++ ρ) = lookup x (T ++ ρ) := by
  induction T generalizing ρ with
  | nil => rfl
  | cons b T ih =>
    obtain ⟨hb, hT⟩ := List.nodup_cons.1 h
    rw [List.reverse_cons, List.append_assoc, List.singleton_append, ih hT, List.cons_append]
    by_cases hx : x = b.1
    · subst hx
      rw [lookup_append_of_notMem hb, lookup, if_pos rfl, lookup, if_pos rfl]
    · rw [lookup_append_cons_ne hx, lookup, if_neg hx]

/-- Bindings of other names in front are not assigned. -/
theorem assign_append_of_notMem {x : κ} {T : List (κ × α)} (h : x ∉ names T) (a : α)
    (ρ : List (κ × α)) : assign x a (T ++ ρ) = T ++ assign x a ρ := by
  induction T with
  | nil => rfl
  | cons b T ih =>
    simp only [names_cons, List.mem_cons, not_or] at h
    rw [List.cons_append, assign, if_neg h.1, ih h.2, List.cons_append]

end Lookup

/-! ### A block of bindings below the newest ones -/

/-- Insert `T` below the `k` newest bindings. -/
def splice : ℕ → List (κ × α) → List (κ × α) → List (κ × α)
  | k + 1, T, b :: ρ => b :: splice k T ρ
  | _, T, ρ => T ++ ρ

@[simp] theorem splice_zero (T ρ : List (κ × α)) : splice 0 T ρ = T ++ ρ := by
  cases ρ <;> rfl

@[simp] theorem splice_succ_cons (k : ℕ) (T : List (κ × α)) (b : κ × α) (ρ : List (κ × α)) :
    splice (k + 1) T (b :: ρ) = b :: splice k T ρ := rfl

/-- Dropping the newest binding, when there is one above the block. -/
theorem tail_splice {k : ℕ} {T ρ : List (κ × α)} (h : ρ ≠ []) :
    (splice (k + 1) T ρ).tail = splice k T ρ.tail := by
  cases ρ with
  | nil => exact absurd rfl h
  | cons b ρ => rfl

section Splice

variable [DecidableEq κ]

/-- Bindings of other names in the middle do not matter. -/
theorem lookup_splice {x : κ} {T : List (κ × α)} (h : x ∉ names T) (k : ℕ)
    (ρ : List (κ × α)) : lookup x (splice k T ρ) = lookup x ρ := by
  induction k generalizing ρ with
  | zero => rw [splice_zero, lookup_append_of_notMem h]
  | succ k ih =>
    cases ρ with
    | nil => exact lookup_append_of_notMem h []
    | cons b ρ => rw [splice_succ_cons, lookup, lookup, ih]

/-- Bindings of other names in the middle are not assigned. -/
theorem assign_splice {x : κ} {T : List (κ × α)} (h : x ∉ names T) (a : α) (k : ℕ)
    (ρ : List (κ × α)) : assign x a (splice k T ρ) = splice k T (assign x a ρ) := by
  induction k generalizing ρ with
  | zero => rw [splice_zero, splice_zero, assign_append_of_notMem h]
  | succ k ih =>
    cases ρ with
    | nil => exact assign_append_of_notMem h a []
    | cons b ρ =>
      rw [splice_succ_cons, assign, assign]
      split
      · rfl
      · rw [ih, splice_succ_cons]

end Splice

/-! ### Restriction to a bag of names

A bag of names is handed out to the bindings from the oldest to the newest one, and a
binding that gets a name is kept. In the end a binding is kept exactly when it has
fewer older namesakes than the bag has copies of its name. -/

/-- The entries whose flag is set. -/
def keep : List Bool → List α → List α
  | true :: bs, a :: l => a :: keep bs l
  | false :: bs, _ :: l => keep bs l
  | _, _ => []

/-- Keeping elements commutes with a function on them. -/
theorem keep_map {α β : Type*} (f : α → β) (bs : List Bool) (l : List α) :
    keep bs (l.map f) = (keep bs l).map f := by
  induction bs generalizing l with
  | nil => cases l <;> rfl
  | cons b bs ih =>
    cases l with
    | nil => cases b <;> rfl
    | cons a l => cases b <;> simp [keep, ih]

theorem keep_replicate_true (l : List α) : keep (List.replicate l.length true) l = l := by
  induction l with
  | nil => rfl
  | cons a l ih => simp [List.replicate_succ, keep, ih]

section Flags

variable [DecidableEq κ]

/-- Which bindings a bag of names keeps. -/
def flags (bag : List κ) : List κ → List Bool
  | [] => []
  | x :: xs => decide (xs.count x < bag.count x) :: flags bag xs

@[simp] theorem length_flags (bag xs : List κ) : (flags bag xs).length = xs.length := by
  induction xs with
  | nil => rfl
  | cons x xs ih => simp [flags, ih]

/-- A bag with enough copies of every name keeps every binding. -/
theorem flags_of_le {bag xs : List κ} (h : ∀ x ∈ xs, xs.count x ≤ bag.count x) :
    flags bag xs = List.replicate xs.length true := by
  induction xs with
  | nil => rfl
  | cons x xs ih =>
    have hx : xs.count x < bag.count x := by
      have := h x (by simp)
      rw [List.count_cons_self] at this
      omega
    have hxs : ∀ y ∈ xs, xs.count y ≤ bag.count y := by
      intro y hy
      have := h y (List.mem_cons_of_mem _ hy)
      rw [List.count_cons] at this
      omega
    rw [flags, ih hxs, decide_eq_true hx]
    rfl

/-- The names of a block of older bindings are used up by these bindings. -/
theorem flags_append_self (ys xs : List κ) :
    flags xs (ys ++ xs) = List.replicate ys.length false ++ List.replicate xs.length true := by
  induction ys with
  | nil => exact flags_of_le fun _ _ => Nat.le_refl _
  | cons y ys ih =>
    have hy : ¬ (ys ++ xs).count y < xs.count y := by
      rw [List.count_append]
      omega
    rw [List.cons_append, flags, ih, decide_eq_false hy]
    rfl

/-- The bindings that a bag of names keeps. -/
def restrict (bag : List κ) (ρ : List (κ × α)) : List (κ × α) :=
  keep (flags bag (names ρ)) ρ

/-- Restricting an environment to the names of its older bindings drops the newer
ones. -/
theorem restrict_of_names_append {ys bag : List κ} {ρ : List (κ × α)}
    (h : names ρ = ys ++ bag) : restrict bag ρ = ρ.drop ys.length := by
  rw [restrict, h, flags_append_self]
  have hlen : ρ.length = ys.length + bag.length := by
    rw [← length_names, h, List.length_append]
  clear h
  induction ys generalizing ρ with
  | nil =>
    have hbag : bag.length = ρ.length := by simpa using hlen.symm
    simp [hbag, keep_replicate_true]
  | cons y ys ih =>
    cases ρ with
    | nil =>
      simp only [List.length_nil, List.length_cons] at hlen
      omega
    | cons b ρ =>
      have ih := ih (ρ := ρ) (by simp at hlen; omega)
      simpa [List.replicate_succ, keep] using ih

/-- Leaving the scope of one name. -/
theorem restrict_tail {x : κ} {bag : List κ} {ρ : List (κ × α)} (h : names ρ = x :: bag) :
    restrict bag ρ = ρ.tail := by
  have hdrop : restrict bag ρ = ρ.drop [x].length := restrict_of_names_append h
  rw [hdrop]
  simp

/-- The newest binding is kept when the bag has a copy left for it. -/
theorem restrict_cons (bag : List κ) (b : κ × α) (ρ : List (κ × α)) :
    restrict bag (b :: ρ) =
      if (names ρ).count b.1 < bag.count b.1 then b :: restrict bag ρ else restrict bag ρ := by
  rw [restrict, names_cons, flags]
  split
  · rename_i h
    rw [decide_eq_true h]
    rfl
  · rename_i h
    rw [decide_eq_false h]
    rfl

/-- Restriction depends on the names alone. -/
theorem names_restrict (bag : List κ) (ρ : List (κ × α)) :
    names (restrict bag ρ) = keep (flags bag (names ρ)) (names ρ) :=
  (keep_map Prod.fst _ ρ).symm

/-- What is kept depends on the names only. -/
theorem restrict_mapVal (f : α → β) (bag : List κ) (ρ : List (κ × α)) :
    restrict bag (mapVal f ρ) = mapVal f (restrict bag ρ) := by
  rw [restrict, restrict, names_mapVal]
  exact keep_map _ _ ρ

/-- A name whose bindings are all kept denotes the same value. -/
theorem lookup_restrict {x : κ} {bag : List κ} {ρ : List (κ × α)}
    (h : (names ρ).count x ≤ bag.count x) : lookup x (restrict bag ρ) = lookup x ρ := by
  induction ρ with
  | nil => rfl
  | cons b ρ ih =>
    obtain ⟨y, a⟩ := b
    rw [names_cons, List.count_cons] at h
    rw [restrict_cons, lookup]
    by_cases hxy : x = y
    · -- this binding is kept, and it is the newest one of `x`
      subst hxy
      simp only [beq_self_eq_true, if_true] at h
      rw [if_pos (Nat.lt_of_succ_le h), lookup, if_pos rfl, if_pos rfl]
    · have ih := ih (by omega)
      rw [if_neg hxy]
      split
      · rw [lookup, if_neg hxy]
        exact ih
      · exact ih

/-- Number the bindings of each name, from the oldest one on. -/
def ranked : List κ → List (κ × ℕ)
  | [] => []
  | x :: xs => (x, xs.count x) :: ranked xs

/-- Counting the bindings of each name keeps the names. -/
@[simp] theorem names_ranked (xs : List κ) : names (ranked xs) = xs := by
  induction xs with
  | nil => rfl
  | cons x xs ih => rw [ranked, names_cons, ih]

/-- The number of the newest binding. -/
theorem lookup_ranked {x : κ} {xs : List κ} (h : x ∈ xs) :
    lookup x (ranked xs) = some (xs.count x - 1) := by
  induction xs with
  | nil => cases h
  | cons y xs ih =>
    rw [ranked, lookup]
    by_cases hxy : x = y
    · subst hxy
      rw [if_pos rfl, List.count_cons_self, Nat.add_sub_cancel]
    · have hmem : x ∈ xs := (List.mem_cons.1 h).resolve_left hxy
      rw [if_neg hxy, ih hmem, List.count_cons_of_ne (Ne.symm hxy)]

/-- The bindings that are kept have smaller numbers than there are copies of the name. -/
theorem lookup_restrict_ranked {x : κ} {bag xs : List κ} {n : ℕ}
    (h : lookup x (restrict bag (ranked xs)) = some n) : n < bag.count x := by
  induction xs with
  | nil => cases h
  | cons y xs ih =>
    rw [ranked, restrict_cons, names_ranked] at h
    split at h
    · rename_i hlt
      rw [lookup] at h
      split at h
      · rename_i hxy
        subst hxy
        cases h
        exact hlt
      · exact ih h
    · exact ih h

end Flags

end Scope
