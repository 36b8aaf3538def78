import Ligo.AstSimplified.Types

/-!
# Comparing values

`assert_value_eq` compares two value expressions row by row: the rows of a first expression that
is a value precede the rows for annotations, so that an annotation is looked through on the left
and, at the right of a value, is something else than that value.

The entries of two maps are sorted before they are paired. The polymorphic comparison that they
are sorted with is a parameter (`compare`): nothing here depends on the order it chooses.

The rows are read by one lemma for each shape of the first expression (`assertValueEq_eTuple`
and the like).
-/

namespace Ligo.AstSimplified

open AstTyped (Literal)

/-! ### Literals -/

def assertLiteralEq : Literal → Literal → Result Unit
  | .bool a, b =>
    match b with
    | .bool b => if a = b then .ok () else simpleFail "different bools"
    | _ => simpleFail "bool vs non-bool"
  | .int a, b =>
    match b with
    | .int b => if a = b then .ok () else simpleFail "different ints"
    | _ => simpleFail "int vs non-int"
  | .nat a, b =>
    match b with
    | .nat b => if a = b then .ok () else simpleFail "different nats"
    | _ => simpleFail "nat vs non-nat"
  | .tez a, b =>
    match b with
    | .tez b => if a = b then .ok () else simpleFail "different tezs"
    | _ => simpleFail "tez vs non-tez"
  | .string a, b =>
    match b with
    | .string b => if a = b then .ok () else simpleFail "different strings"
    | _ => simpleFail "string vs non-string"
  | .bytes a, b =>
    match b with
    | .bytes b => if a = b then .ok () else simpleFail "different bytess"
    | _ => simpleFail "bytes vs non-bytes"
  | .unit, b =>
    match b with
    | .unit => .ok ()
    | _ => simpleFail "unit vs non-unit"
  | .address a, b =>
    match b with
    | .address b => if a = b then .ok () else simpleFail "different addresss"
    | _ => simpleFail "address vs non-address"
  | .operation _, b =>
    match b with
    | .operation _ => simpleFail "can't compare operations"
    | _ => simpleFail "operation vs non-operation"

/-- Literals are equal unless they are operations. -/
theorem assertLiteralEq_eq_ok {a b : Literal} :
    assertLiteralEq a b = .ok () ↔ a = b ∧ ∀ op, a ≠ .operation op := by
  cases a <;> cases b <;> simp [assertLiteralEq, simpleFail]

/-! ### Values -/

/-- `List.sort`. -/
def sort {α : Type} (compare : α → α → Ordering) (lst : List α) : List α :=
  lst.mergeSort fun x y => (compare x y).isLE

/-- Sorting changes the order only. -/
theorem sort_perm {α : Type} (compare : α → α → Ordering) (lst : List α) :
    (sort compare lst).Perm lst := List.mergeSort_perm ..

/-- Lists that are permutations of each other have one size. -/
theorem sizeOf_sort {α : Type} [SizeOf α] (compare : α → α → Ordering) (lst : List α) :
    sizeOf (sort compare lst) = sizeOf lst := by
  have hperm : ∀ {l l' : List α}, l.Perm l' → sizeOf l = sizeOf l' := by
    intro l l' h
    induction h with
    | nil => rfl
    | cons x _ ih => rw [List.cons.sizeOf_spec, List.cons.sizeOf_spec, ih]
    | swap x y l =>
      simp only [List.cons.sizeOf_spec]
      omega
    | trans _ _ ih₁ ih₂ => exact ih₁.trans ih₂
  exact hperm (sort_perm compare lst)

/-- `List.combine` within `generic_try`: the lists have one length. -/
def tryCombine {α β : Type} (title : String) (as : List α) (bs : List β) : Result Unit :=
  if as.length = bs.length then .ok () else simpleFail title

variable (compare : Expression × Expression → Expression × Expression → Ordering)

mutual

def assertValueEq (a b : Expression) : Result Unit :=
  trace "not equal" <| match a with
  | .eLiteral a =>
    match b with
    | .eLiteral b => assertLiteralEq a b
    | _ => simpleFail "comparing a literal with not a literal"
  | .eConstant ca lsta =>
    match b with
    | .eConstant cb lstb =>
      if ca = cb then do
        tryCombine "constants with different number of elements" lsta lstb
        assertAllEq lsta lstb
      else simpleFail "different constants"
    | _ => simpleFail "comparing constant with other stuff"
  | .eConstructor ca a =>
    match b with
    | .eConstructor cb b =>
      if ca = cb then assertValueEq a b else simpleFail "different constructors"
    | _ => simpleFail "comparing constructor with other stuff"
  | .eTuple lsta =>
    match b with
    | .eTuple lstb => do
      tryCombine "tuples with different number of elements" lsta lstb
      assertAllEq lsta lstb
    | _ => simpleFail "comparing tuple with other stuff"
  | .eRecord sma =>
    match b with
    | .eRecord smb => assertFieldsEq sma smb
    | _ => simpleFail "comparing record with other stuff"
  | .eMap lsta =>
    match b with
    | .eMap lstb => do
      tryCombine "maps of different lengths" (sort compare lsta) (sort compare lstb)
      assertEntriesEq (sort compare lsta) (sort compare lstb)
    | _ => simpleFail "comparing map with other stuff"
  | .eList lsta =>
    match b with
    | .eList lstb => do
      tryCombine "list of different lengths" lsta lstb
      assertAllEq lsta lstb
    | _ => simpleFail "comparing list with other stuff"
  | .eAnnotated a _ => assertValueEq a b
  | a =>
    match b with
    | .eAnnotated b _ => assertValueEq a b
    | _ => simpleFail "comparing not a value"
termination_by sizeOf a + sizeOf b
decreasing_by
  all_goals
    simp_wf
    try rw [sizeOf_sort, sizeOf_sort]
    omega

/-- The pairs that `List.combine` makes, one after the other. -/
def assertAllEq (lsta lstb : List Expression) : Result Unit :=
  match lsta, lstb with
  | a :: lsta, b :: lstb => do
    assertValueEq a b
    assertAllEq lsta lstb
  | _, _ => .ok ()
termination_by sizeOf lsta + sizeOf lstb

/-- The bindings that `Map.String.merge` makes, from the least key to the greatest: where two
keys differ, the lesser one is missing in the other map. -/
def assertFieldsEq (sma smb : List (String × Expression)) : Result Unit :=
  match sma, smb with
  | (ka, a) :: sma, (kb, b) :: smb =>
    if ka = kb then do
      assertValueEq a b
      assertFieldsEq sma smb
    else simpleFail "different record keys"
  | [], [] => .ok ()
  | _, _ => simpleFail "different record keys"
termination_by sizeOf sma + sizeOf smb

def assertEntriesEq (lsta lstb : List (Expression × Expression)) : Result Unit :=
  match lsta, lstb with
  | (ka, va) :: lsta, (kb, vb) :: lstb => do
    assertValueEq ka kb
    assertValueEq va vb
    assertEntriesEq lsta lstb
  | _, _ => .ok ()
termination_by sizeOf lsta + sizeOf lstb

end

/-! ### The rows -/

section Rows

variable {compare}

/-- The comparison succeeds. -/
def Equal (compare : Expression × Expression → Expression × Expression → Ordering)
    (a b : Expression) : Prop := assertValueEq compare a b = .ok ()

/-- Lists are combined when they have one length. -/
theorem tryCombine_bind_eq_ok {α β : Type} {title : String} {as : List α} {bs : List β}
    {r : Result Unit} :
    (tryCombine title as bs >>= fun _ => r) = .ok () ↔ as.length = bs.length ∧ r = .ok () := by
  rw [tryCombine]
  split
  · rename_i hlen
    exact ⟨fun h => ⟨hlen, h⟩, fun h => h.2⟩
  · rename_i hlen
    exact ⟨nofun, fun h => (hlen h.1).elim⟩

/-- Two checks, one after the other. -/
theorem andThen_eq_ok {r r' : Result Unit} :
    (r >>= fun _ => r') = .ok () ↔ r = .ok () ∧ r' = .ok () := by
  cases r with
  | error e => exact ⟨nofun, nofun⟩
  | ok u => exact ⟨fun h => ⟨rfl, h⟩, fun h => h.2⟩

/-- Lists are equal element by element. -/
theorem assertAllEq_eq_ok {title : String} {lsta lstb : List Expression} :
    (tryCombine title lsta lstb >>= fun _ => assertAllEq compare lsta lstb) = .ok () ↔
      List.Forall₂ (Equal compare) lsta lstb := by
  rw [tryCombine_bind_eq_ok]
  induction lsta generalizing lstb with
  | nil =>
    cases lstb with
    | nil => simp [assertAllEq]
    | cons b lstb => simp
  | cons a lsta ih =>
    cases lstb with
    | nil => simp
    | cons b lstb =>
      rw [assertAllEq, andThen_eq_ok, List.forall₂_cons, ← ih, List.length_cons, List.length_cons,
        Nat.add_right_cancel_iff]
      exact and_left_comm

/-- Entries are equal in their keys and values. -/
theorem assertEntriesEq_eq_ok {title : String} {lsta lstb : List (Expression × Expression)} :
    (tryCombine title lsta lstb >>= fun _ => assertEntriesEq compare lsta lstb) = .ok () ↔
      List.Forall₂ (fun x y => Equal compare x.1 y.1 ∧ Equal compare x.2 y.2) lsta lstb := by
  rw [tryCombine_bind_eq_ok]
  induction lsta generalizing lstb with
  | nil =>
    cases lstb with
    | nil => simp [assertEntriesEq]
    | cons b lstb => simp
  | cons a lsta ih =>
    cases lstb with
    | nil => simp
    | cons b lstb =>
      rw [assertEntriesEq, andThen_eq_ok, andThen_eq_ok, List.forall₂_cons, ← ih, List.length_cons,
        List.length_cons, Nat.add_right_cancel_iff, and_assoc]
      exact ⟨fun ⟨h, hk, hv, hl⟩ => ⟨hk, hv, h, hl⟩, fun ⟨hk, hv, h, hl⟩ => ⟨h, hk, hv, hl⟩⟩

/-- Records have the same keys, in ascending order. -/
theorem assertFieldsEq_eq_ok {sma smb : List (String × Expression)} :
    assertFieldsEq compare sma smb = .ok () ↔
      List.Forall₂ (fun x y => x.1 = y.1 ∧ Equal compare x.2 y.2) sma smb := by
  induction sma generalizing smb with
  | nil =>
    cases smb with
    | nil => simp [assertFieldsEq]
    | cons b smb => simp [assertFieldsEq, simpleFail]
  | cons a sma ih =>
    cases smb with
    | nil => simp [assertFieldsEq, simpleFail]
    | cons b smb =>
      rw [assertFieldsEq, List.forall₂_cons, ← ih]
      split
      -- the keys agree, so the values are compared
      · rename_i hkey
        rw [andThen_eq_ok]
        exact ⟨fun ⟨h, hl⟩ => ⟨⟨hkey, h⟩, hl⟩, fun ⟨⟨_, h⟩, hl⟩ => ⟨h, hl⟩⟩
      · rename_i hkey
        exact ⟨nofun, fun h => (hkey h.1.1).elim⟩

variable {b : Expression}

attribute [local simp] assertValueEq

/-- A literal is equal to itself only, and operations are equal to nothing. -/
theorem equal_eLiteral {a : Literal} :
    Equal compare (.eLiteral a) b ↔ b = .eLiteral a ∧ ∀ op, a ≠ .operation op := by
  cases b with
  | eLiteral b =>
    rw [Equal, assertValueEq, trace_eq_ok, assertLiteralEq_eq_ok, Expression.eLiteral.injEq, eq_comm]
  | _ => simp [Equal, simpleFail]

/-- The rows for the other shapes ask for the same shape at the right, and go on with the parts.
-/
theorem equal_eConstant {ca : String} {lsta : List Expression} :
    Equal compare (.eConstant ca lsta) b ↔
      ∃ lstb, b = .eConstant ca lstb ∧ List.Forall₂ (Equal compare) lsta lstb := by
  cases b with
  | eConstant cb lstb =>
    rw [Equal, assertValueEq, trace_eq_ok]
    -- the names of the two constants are compared first
    split
    · rename_i hname
      rw [assertAllEq_eq_ok, hname]
      constructor
      · exact fun h => ⟨lstb, rfl, h⟩
      · rintro ⟨_, heq, h⟩
        cases heq
        exact h
    · rename_i hname
      refine ⟨nofun, ?_⟩
      rintro ⟨_, heq, -⟩
      cases heq
      exact (hname rfl).elim
  | _ => simp [Equal, simpleFail]

theorem equal_eConstructor {ca : String} {a : Expression} :
    Equal compare (.eConstructor ca a) b ↔
      ∃ b', b = .eConstructor ca b' ∧ Equal compare a b' := by
  cases b with
  | eConstructor cb b =>
    rw [Equal, assertValueEq, trace_eq_ok]
    -- the names of the two constructors are compared first
    split
    · rename_i hname
      rw [hname]
      constructor
      · exact fun h => ⟨b, rfl, h⟩
      · rintro ⟨_, heq, h⟩
        cases heq
        exact h
    · rename_i hname
      refine ⟨nofun, ?_⟩
      rintro ⟨_, heq, -⟩
      cases heq
      exact (hname rfl).elim
  | _ => simp [Equal, simpleFail]

theorem equal_eTuple {lsta : List Expression} :
    Equal compare (.eTuple lsta) b ↔
      ∃ lstb, b = .eTuple lstb ∧ List.Forall₂ (Equal compare) lsta lstb := by
  cases b with
  | eTuple lstb =>
    rw [Equal, assertValueEq, trace_eq_ok, assertAllEq_eq_ok]
    simp
  | _ => simp [Equal, simpleFail]

theorem equal_eList {lsta : List Expression} :
    Equal compare (.eList lsta) b ↔
      ∃ lstb, b = .eList lstb ∧ List.Forall₂ (Equal compare) lsta lstb := by
  cases b with
  | eList lstb =>
    rw [Equal, assertValueEq, trace_eq_ok, assertAllEq_eq_ok]
    simp
  | _ => simp [Equal, simpleFail]

theorem equal_eRecord {sma : List (String × Expression)} :
    Equal compare (.eRecord sma) b ↔ ∃ smb, b = .eRecord smb ∧
      List.Forall₂ (fun x y => x.1 = y.1 ∧ Equal compare x.2 y.2) sma smb := by
  cases b with
  | eRecord smb =>
    rw [Equal, assertValueEq, trace_eq_ok, assertFieldsEq_eq_ok]
    simp
  | _ => simp [Equal, simpleFail]

/-- Two maps are compared entry by entry once their entries are sorted. -/
theorem equal_eMap {lsta : List (Expression × Expression)} :
    Equal compare (.eMap lsta) b ↔ ∃ lstb, b = .eMap lstb ∧
      List.Forall₂ (fun x y => Equal compare x.1 y.1 ∧ Equal compare x.2 y.2)
        (sort compare lsta) (sort compare lstb) := by
  cases b with
  | eMap lstb =>
    rw [Equal, assertValueEq, trace_eq_ok, assertEntriesEq_eq_ok]
    simp
  | _ => simp [Equal, simpleFail]

end Rows

end Ligo.AstSimplified
