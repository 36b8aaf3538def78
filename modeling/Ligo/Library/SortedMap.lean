import Mathlib.Order.Basic
import Mathlib.Data.List.Basic
import Mathlib.Data.List.Induction
import Mathlib.Order.Lattice

/-!
# Finite maps as ascending association lists

A finite map over a linearly ordered key type is kept as the list of its entries,
strictly ascending in the key (`SortedMap.Sorted`). Insertion and deletion keep
that order, so two sorted lists with the same look-ups are the same list
(`SortedMap.ext`): a map has one representation.

`SortedMap.ofList` inserts the entries of an arbitrary list from left to right,
so a later entry replaces an earlier one at the same key.
-/

namespace SortedMap

variable {κ α β : Type*} [LinearOrder κ]

/-- The entries ascend strictly in their keys. -/
def Sorted (m : List (κ × α)) : Prop :=
  m.Pairwise fun a b => a.1 < b.1

instance (m : List (κ × α)) : Decidable (Sorted m) :=
  inferInstanceAs (Decidable (m.Pairwise fun a b => a.1 < b.1))

/-- The value at a key. -/
@[simp] def lookup (k : κ) : List (κ × α) → Option α
  | [] => none
  | (k', a) :: m => if k = k' then some a else lookup k m

/-- Bind `k` to `a`, replacing the value that was there. -/
@[simp] def insert (k : κ) (a : α) : List (κ × α) → List (κ × α)
  | [] => [(k, a)]
  | (k', a') :: m =>
    if k < k' then (k, a) :: (k', a') :: m
    else if k = k' then (k, a) :: m
    else (k', a') :: insert k a m

/-- Remove the entry at `k`. -/
@[simp] def erase (k : κ) : List (κ × α) → List (κ × α)
  | [] => []
  | (k', a') :: m => if k = k' then m else (k', a') :: erase k m

/-- Insert or remove, as `o` says. -/
def update (k : κ) (o : Option α) (m : List (κ × α)) : List (κ × α) :=
  match o with
  | some a => insert k a m
  | none => erase k m

/-- Insert the entries of a list one after the other. -/
def ofList (l : List (κ × α)) : List (κ × α) :=
  l.foldl (fun m e => insert e.1 e.2 m) []

/-! ### Order -/

@[simp] theorem sorted_nil : Sorted ([] : List (κ × α)) := List.Pairwise.nil

/-- The first key is less than all that follow. -/
@[simp] theorem sorted_cons {e : κ × α} {m : List (κ × α)} :
    Sorted (e :: m) ↔ (∀ e' ∈ m, e.1 < e'.1) ∧ Sorted m :=
  List.pairwise_cons

/-- Inserting adds one entry. -/
theorem mem_insert {k : κ} {a : α} {m : List (κ × α)} {e : κ × α}
    (h : e ∈ insert k a m) : e = (k, a) ∨ e ∈ m := by
  induction m with
  | nil => simpa [insert] using h
  | cons hd m ih =>
    obtain ⟨k', a'⟩ := hd
    simp only [insert] at h
    split at h
    · simpa using h
    · split at h
      · rcases List.mem_cons.1 h with h | h
        · exact .inl h
        · exact .inr (List.mem_cons_of_mem _ h)
      · rcases List.mem_cons.1 h with h | h
        · exact .inr (by simp [h])
        · exact (ih h).imp_right (List.mem_cons_of_mem _)

/-- Inserting and erasing keep the keys ascending. -/
theorem insert_sorted (k : κ) (a : α) {m : List (κ × α)} (h : Sorted m) :
    Sorted (insert k a m) := by
  induction m with
  | nil => simp [insert]
  | cons hd m ih =>
    obtain ⟨k', a'⟩ := hd
    obtain ⟨hlt, hm⟩ := sorted_cons.1 h
    simp only [insert]
    split
    · rename_i hk
      refine sorted_cons.2 ⟨fun e he => ?_, h⟩
      rcases List.mem_cons.1 he with rfl | he
      · exact hk
      · exact hk.trans (hlt e he)
    · split
      · rename_i heq
        subst heq
        exact sorted_cons.2 ⟨hlt, hm⟩
      · rename_i hnlt hne
        refine sorted_cons.2 ⟨fun e he => ?_, ih hm⟩
        rcases mem_insert he with rfl | he
        · exact lt_of_le_of_ne (not_lt.1 hnlt) (Ne.symm hne)
        · exact hlt e he

theorem mem_erase {k : κ} {m : List (κ × α)} {e : κ × α} (h : e ∈ erase k m) : e ∈ m := by
  induction m with
  | nil => simp [erase] at h
  | cons hd m ih =>
    simp only [erase] at h
    split at h
    · exact List.mem_cons_of_mem _ h
    · rcases List.mem_cons.1 h with h | h
      · simp [h]
      · exact List.mem_cons_of_mem _ (ih h)

theorem erase_sorted (k : κ) {m : List (κ × α)} (h : Sorted m) : Sorted (erase k m) := by
  induction m with
  | nil => exact h
  | cons hd m ih =>
    obtain ⟨hlt, hm⟩ := sorted_cons.1 h
    simp only [erase]
    split
    · exact hm
    · exact sorted_cons.2 ⟨fun e he => hlt e (mem_erase he), ih hm⟩

theorem foldl_insert_sorted (l : List (κ × α)) {m : List (κ × α)} (h : Sorted m) :
    Sorted (l.foldl (fun m e => insert e.1 e.2 m) m) := by
  induction l generalizing m with
  | nil => exact h
  | cons e l ih => exact ih (insert_sorted _ _ h)

/-- A map that is made from a list is sorted. -/
theorem ofList_sorted (l : List (κ × α)) : Sorted (ofList l) :=
  foldl_insert_sorted l sorted_nil

theorem mem_foldl_insert {l m : List (κ × α)} {e : κ × α}
    (h : e ∈ l.foldl (fun m e => insert e.1 e.2 m) m) : e ∈ l ∨ e ∈ m := by
  induction l generalizing m with
  | nil => exact .inr h
  | cons e' l ih =>
    rcases ih h with hl | hm
    · exact .inl (List.mem_cons_of_mem _ hl)
    · rcases mem_insert hm with rfl | hm
      · exact .inl List.mem_cons_self
      · exact .inr hm

/-- Its entries are among those of the list. -/
theorem mem_ofList {l : List (κ × α)} {e : κ × α} (h : e ∈ ofList l) : e ∈ l :=
  (mem_foldl_insert h).resolve_right List.not_mem_nil

/-- A key less than all others is not found. -/
theorem lookup_eq_none_of_lt {k : κ} {m : List (κ × α)} (h : ∀ e ∈ m, k < e.1) :
    lookup k m = none := by
  induction m with
  | nil => rfl
  | cons hd m ih =>
    have hne : k ≠ hd.1 := (h hd (by simp)).ne
    rw [lookup, if_neg hne]
    exact ih fun e he => h e (List.mem_cons_of_mem _ he)

/-- What is inserted is found, and every other key as before. -/
theorem lookup_insert (k k' : κ) (a : α) (m : List (κ × α)) :
    lookup k' (insert k a m) = if k' = k then some a else lookup k' m := by
  induction m with
  | nil => simp [insert, lookup]
  | cons hd m ih =>
    obtain ⟨k₀, a₀⟩ := hd
    simp only [insert]
    split
    · simp [lookup]
    · split
      · rename_i heq
        subst heq
        by_cases h : k' = k <;> simp [lookup, h]
      · rename_i hne
        simp only [lookup, ih]
        by_cases h : k' = k₀
        · have hne' : k₀ ≠ k := fun h' => hne h'.symm
          simp [h, hne']
        · simp [h]

theorem ofList_ne_nil {l : List (κ × α)} (h : l ≠ []) : ofList l ≠ [] := by
  obtain hnil | ⟨l, e, rfl⟩ := l.eq_nil_or_concat'
  · exact (h hnil).elim
  · intro hnil
    have hlookup := lookup_insert e.1 e.1 e.2 (ofList l)
    rw [ofList, List.foldl_append] at hnil
    rw [show insert e.1 e.2 (ofList l) = [] from hnil, if_pos rfl] at hlookup
    cases hlookup

/-- Sorted maps with the same look-ups are equal. -/
theorem ext {m m' : List (κ × α)} (hm : Sorted m) (hm' : Sorted m')
    (h : ∀ k, lookup k m = lookup k m') : m = m' := by
  induction m generalizing m' with
  | nil =>
    cases m' with
    | nil => rfl
    | cons e' m' =>
      have h₀ := h e'.1
      simp [lookup] at h₀
  | cons e m ih =>
    cases m' with
    | nil =>
      have h₀ := h e.1
      simp [lookup] at h₀
    | cons e' m' =>
      obtain ⟨hlt, hs⟩ := sorted_cons.1 hm
      obtain ⟨hlt', hs'⟩ := sorted_cons.1 hm'
      -- the least key of each list is bound in the other one, so the two coincide
      have hkey : e.1 = e'.1 := by
        rcases lt_trichotomy e.1 e'.1 with hk | hk | hk
        · have h₀ := h e.1
          rw [lookup, if_pos rfl, lookup, if_neg hk.ne,
            lookup_eq_none_of_lt fun x hx => hk.trans (hlt' x hx)] at h₀
          cases h₀
        · exact hk
        · have h₀ := h e'.1
          rw [lookup, if_neg hk.ne, lookup_eq_none_of_lt fun x hx => hk.trans (hlt x hx),
            lookup, if_pos rfl] at h₀
          cases h₀
      have hval : e.2 = e'.2 := by
        have h₀ := h e.1
        rw [lookup, if_pos rfl, lookup, if_pos hkey] at h₀
        exact Option.some.inj h₀
      have htl : m = m' := by
        refine ih hs hs' fun k => ?_
        have h₀ := h k
        simp only [lookup] at h₀
        by_cases hk : k = e.1
        · rw [lookup_eq_none_of_lt fun x hx => hk ▸ hlt x hx,
            lookup_eq_none_of_lt fun x hx => hk ▸ hkey ▸ hlt' x hx]
        · rwa [if_neg hk, if_neg (hkey ▸ hk)] at h₀
      rw [htl, Prod.ext hkey hval]

/-- What is found is an entry. -/
theorem mem_of_lookup {k : κ} {a : α} {m : List (κ × α)} (h : lookup k m = some a) :
    (k, a) ∈ m := by
  induction m with
  | nil => cases h
  | cons e m ih =>
    rw [lookup] at h
    split at h
    · rename_i hk
      have ha : e.2 = a := Option.some.inj h
      rw [hk, ← ha]
      exact List.mem_cons_self
    · exact List.mem_cons_of_mem _ (ih h)

/-- Two maps are equal when they bind the same keys, to values that `R` relates. -/
theorem rel_iff_eq {R : α → α → Prop} {m m' : List (κ × α)} (hm : Sorted m)
    (hm' : Sorted m') (hR : ∀ x ∈ m, ∀ y ∈ m', R x.2 y.2 ↔ x.2 = y.2) :
    (∀ k, Option.Rel R (lookup k m) (lookup k m')) ↔ m = m' := by
  constructor
  · intro h
    refine ext hm hm' fun k => ?_
    have hk := h k
    generalize ho : lookup k m = o at hk ⊢
    generalize ho' : lookup k m' = o' at hk ⊢
    cases hk with
    | none => rfl
    | some hab =>
      have heq := (hR _ (mem_of_lookup ho) _ (mem_of_lookup ho')).1 hab
      exact congrArg some heq
  · rintro rfl k
    cases ho : lookup k m with
    | none => exact .none
    | some a =>
      have hmem := mem_of_lookup ho
      exact .some ((hR _ hmem _ hmem).2 rfl)

/-! ### Mapping the values -/

/-- Apply `f` to every value. -/
def mapVal (f : α → β) (m : List (κ × α)) : List (κ × β) :=
  m.map fun e => (e.1, f e.2)

/-- A change of all values commutes with the operations, which look at the keys only. -/
theorem sorted_mapVal (f : α → β) (m : List (κ × α)) : Sorted (mapVal f m) ↔ Sorted m :=
  List.pairwise_map

theorem lookup_mapVal (f : α → β) (k : κ) (m : List (κ × α)) :
    lookup k (mapVal f m) = (lookup k m).map f := by
  induction m with
  | nil => rfl
  | cons e m ih =>
    simp only [mapVal, List.map_cons, lookup] at ih ⊢
    split
    · rfl
    · exact ih

theorem insert_mapVal (f : α → β) (k : κ) (a : α) (m : List (κ × α)) :
    insert k (f a) (mapVal f m) = mapVal f (insert k a m) := by
  induction m with
  | nil => rfl
  | cons e m ih =>
    simp only [mapVal, List.map_cons, insert] at ih ⊢
    split
    · rfl
    · split
      · rfl
      · rw [List.map_cons, ih]

theorem foldl_insert_mapVal (f : α → β) (l m : List (κ × α)) :
    (mapVal f l).foldl (fun m e => insert e.1 e.2 m) (mapVal f m) =
      mapVal f (l.foldl (fun m e => insert e.1 e.2 m) m) := by
  induction l generalizing m with
  | nil => rfl
  | cons e l ih =>
    have hins : insert e.1 (f e.2) (mapVal f m) = _ := insert_mapVal f e.1 e.2 m
    rw [List.foldl_cons, ← ih, ← hins]
    rfl

theorem ofList_mapVal (f : α → β) (l : List (κ × α)) :
    ofList (mapVal f l) = mapVal f (ofList l) :=
  foldl_insert_mapVal f l []

theorem erase_mapVal (f : α → β) (k : κ) (m : List (κ × α)) :
    erase k (mapVal f m) = mapVal f (erase k m) := by
  induction m with
  | nil => rfl
  | cons e m ih =>
    simp only [mapVal, List.map_cons, erase] at ih ⊢
    split
    · rfl
    · rw [List.map_cons, ih]

end SortedMap
