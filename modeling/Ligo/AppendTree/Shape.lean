import Mathlib.Algebra.Order.Ring.Nat
import Mathlib.Data.Nat.Log
import Ligo.AppendTree

/-!
# The shape of append trees

A tree that appending builds is balanced as far as its number of leaves allows: the left part of
every node is perfect and at least as high as the right part (`Shaped`). Appending preserves
this (`append_shaped`), and the two branches that the source asserts to be unreachable are the
ones that it excludes. The invariant determines what every node records, its height and whether
it is perfect, and it bounds the height by the number of leaves (`height_le_clog`).
-/

namespace Ligo.AppendTree

variable {α : Type}

/-! ### Height and perfection -/

def height : AppendTree α → ℕ
  | leaf _ => 0
  | node a b _ _ => max a.height b.height + 1

/-- All leaves are at one depth. -/
def Perfect : AppendTree α → Prop
  | leaf _ => True
  | node a b _ _ => a.Perfect ∧ b.Perfect ∧ a.height = b.height

/-- Every node records its height and whether it is perfect. -/
def Recorded : AppendTree α → Prop
  | leaf _ => True
  | node a b size full =>
    (size = (node a b size full).height ∧ (full = true ↔ (node a b size full).Perfect)) ∧
      a.Recorded ∧ b.Recorded

/-- A tree has a leaf. -/
theorem length_toList_pos (t : AppendTree α) : 0 < t.toList.length := by
  induction t with
  | leaf x => exact Nat.one_pos
  | node a b size full iha ihb =>
    rw [toList, List.length_append]
    exact Nat.add_pos_left iha _

/-- A perfect tree has a power of two of leaves. -/
theorem Perfect.length_toList {t : AppendTree α} (h : t.Perfect) :
    t.toList.length = 2 ^ t.height := by
  induction t with
  | leaf x => rfl
  | node a b size full iha ihb =>
    obtain ⟨ha, hb, heq⟩ := h
    rw [toList, List.length_append, iha ha, ihb hb, height, heq, max_self, Nat.pow_succ, Nat.mul_two]

/-! ### The invariant -/

/-- The left part of every node is perfect and at least as high as the right part, and the node
records what follows from this. -/
def Shaped : AppendTree α → Prop
  | leaf _ => True
  | node a b size full =>
    (a.Perfect ∧ b.height ≤ a.height) ∧
      (size = a.height + 1 ∧ (full = true ↔ b.Perfect ∧ b.height = a.height)) ∧
        a.Shaped ∧ b.Shaped

/-- The number of the leaves is more than half of the number of a perfect tree. -/
theorem Shaped.lt_length {a b : AppendTree α} {size : ℕ} {full : Bool}
    (h : (node a b size full).Shaped) :
    2 ^ a.height < (node a b size full).toList.length := by
  obtain ⟨⟨ha, -⟩, -⟩ := h
  rw [toList, List.length_append, ha.length_toList]
  exact Nat.lt_add_of_pos_right b.length_toList_pos

/-- The left subtree is at least as high as the right one. -/
theorem Shaped.height_node {a b : AppendTree α} {size : ℕ} {full : Bool}
    (h : (node a b size full).Shaped) : (node a b size full).height = a.height + 1 := by
  obtain ⟨⟨-, hle⟩, -⟩ := h
  rw [height, max_eq_left hle]

/-- The flag of a node says whether the tree is perfect. -/
theorem Shaped.perfect_node_iff {a b : AppendTree α} {size : ℕ} {full : Bool}
    (h : (node a b size full).Shaped) : (node a b size full).Perfect ↔ full = true := by
  obtain ⟨⟨ha, -⟩, ⟨-, hfull⟩, -⟩ := h
  rw [hfull, Perfect, eq_comm (a := a.height)]
  exact and_iff_right ha

theorem Shaped.not_perfect {a b : AppendTree α} {size : ℕ} (h : (node a b size false).Shaped) :
    ¬ (node a b size false).Perfect :=
  fun hperfect => Bool.false_ne_true (h.perfect_node_iff.1 hperfect)

/-- Every node records its height. -/
theorem Shaped.recorded {t : AppendTree α} (h : t.Shaped) : t.Recorded := by
  induction t with
  | leaf x => trivial
  | node a b size full iha ihb =>
    have hheight := h.height_node
    have hperfect := h.perfect_node_iff
    obtain ⟨-, ⟨hsize, -⟩, ha, hb⟩ := h
    exact ⟨⟨hsize.trans hheight.symm, hperfect.symm⟩, iha ha, ihb hb⟩

/-- The height is logarithmic in the number of leaves. -/
theorem Shaped.height_le_clog {t : AppendTree α} (h : t.Shaped) :
    t.height ≤ Nat.clog 2 t.toList.length := by
  cases t with
  | leaf x => exact Nat.zero_le _
  | node a b size full =>
    rw [h.height_node]
    exact (Nat.lt_clog_iff_pow_lt Nat.one_lt_two).2 h.lt_length

/-! ### Appending -/

/-- A node that is not full keeps its shape when its right part grows. -/
theorem Shaped.grow_right {a b b' : AppendTree α} {size : ℕ} {full : Bool}
    (h : (node a b size false).Shaped) (hb' : b'.Shaped)
    (hgrow : b.Perfect → b'.height = b.height + 1) (hkeep : ¬ b.Perfect → b'.height = b.height)
    (hfull : full = true ↔ b'.Perfect ∧ b'.height = a.height) :
    (node a b' size full).Shaped ∧ (node a b' size full).height = (node a b size false).height := by
  have hheight := h.height_node
  obtain ⟨⟨ha, hle⟩, ⟨hsize, hnot⟩, hsa, -⟩ := h
  have hle' : b'.height ≤ a.height := by
    by_cases hb : b.Perfect
    · -- the node is not full, so a perfect right part is lower than the left part
      have hne : b.height ≠ a.height := fun heq => Bool.false_ne_true (hnot.2 ⟨hb, heq⟩)
      rw [hgrow hb]
      exact Nat.succ_le_of_lt (lt_of_le_of_ne hle hne)
    · rw [hkeep hb]
      exact hle
  have hshaped : (node a b' size full).Shaped := ⟨⟨ha, hle'⟩, ⟨hsize, hfull⟩, hsa, hb'⟩
  exact ⟨hshaped, hshaped.height_node.trans hheight.symm⟩

/-- Appending raises a perfect tree by one level and keeps the height of the others. -/
theorem append_shaped (x : α) {t : AppendTree α} (h : t.Shaped) :
    ∃ a b size full, append x t = some (node a b size full) ∧ (node a b size full).Shaped ∧
      (t.Perfect → (node a b size full).height = t.height + 1) ∧
      (¬ t.Perfect → (node a b size full).height = t.height) := by
  fun_induction append x t with
  | case1 e =>
    refine ⟨_, _, _, _, rfl, ?_, fun _ => rfl, fun hnot => (hnot trivial).elim⟩
    exact ⟨⟨trivial, le_rfl⟩, ⟨rfl, fun _ => ⟨trivial, rfl⟩, fun _ => rfl⟩, trivial, trivial⟩
  | case2 a b size =>
    have hheight := h.height_node
    have hperfect := h.perfect_node_iff.2 rfl
    have hsize := h.2.1.1
    refine ⟨_, _, _, _, rfl, ?_, fun _ => rfl, fun hnot => (hnot hperfect).elim⟩
    refine ⟨⟨hperfect, Nat.zero_le _⟩, ⟨by rw [hheight, hsize], Bool.noConfusion,
      fun hfull => ?_⟩, h, trivial⟩
    -- a leaf is lower than a node
    have hzero : 0 = (node a b size true).height := hfull.2
    rw [hheight] at hzero
    cases hzero
  | case3 a₁ a₂ aSize aFull b size b₁ b₂ bSize heq ih =>
    obtain ⟨_, _, _, _, hb, hshaped, hgrow, hkeep⟩ := ih h.2.2.2
    rw [heq] at hb
    cases hb
    have hfull : false = true ↔ (node b₁ b₂ bSize false).Perfect ∧
        (node b₁ b₂ bSize false).height = (node a₁ a₂ aSize aFull).height :=
      ⟨Bool.noConfusion, fun hboth => (hshaped.not_perfect hboth.1).elim⟩
    obtain ⟨hnode, hheight⟩ := h.grow_right hshaped hgrow hkeep hfull
    exact ⟨_, _, _, _, rfl, hnode, fun hp => (h.not_perfect hp).elim, fun _ => hheight⟩
  | case4 a₁ a₂ aSize aFull b size b₁ b₂ bSize heq ih =>
    obtain ⟨_, _, _, _, hb, hshaped, hgrow, hkeep⟩ := ih h.2.2.2
    rw [heq] at hb
    cases hb
    -- the sizes that are compared are the heights of the two parts
    have hbSize : bSize = (node b₁ b₂ bSize true).height :=
      hshaped.2.1.1.trans hshaped.height_node.symm
    have haSize : aSize = (node a₁ a₂ aSize aFull).height :=
      h.2.2.1.2.1.1.trans h.2.2.1.height_node.symm
    have hfull : (bSize == aSize) = true ↔ (node b₁ b₂ bSize true).Perfect ∧
        (node b₁ b₂ bSize true).height = (node a₁ a₂ aSize aFull).height := by
      rw [beq_iff_eq, ← hbSize, ← haSize]
      exact (and_iff_right (hshaped.perfect_node_iff.2 rfl)).symm
    obtain ⟨hnode, hheight⟩ := h.grow_right hshaped hgrow hkeep hfull
    exact ⟨_, _, _, _, rfl, hnode, fun hp => (h.not_perfect hp).elim, fun _ => hheight⟩
  | case5 a₁ a₂ aSize aFull b size hfalse htrue ih =>
    obtain ⟨-, -, -, hb⟩ := h
    obtain ⟨b₁, b₂, bSize, bFull, heq, -⟩ := ih hb
    cases bFull with
    | false => exact (hfalse _ _ _ heq).elim
    | true => exact (htrue _ _ _ heq).elim
  | case6 x b size =>
    -- beside a leaf only a leaf fits, and then the node is full
    obtain ⟨⟨-, hle⟩, ⟨-, hfull⟩, -⟩ := h
    cases b with
    | leaf y => cases hfull.2 ⟨trivial, rfl⟩
    | node => cases hle

theorem ofListAux_shaped (lst : List α) {t : AppendTree α}
    (h : ofListAux lst = some (some t)) : t.Shaped := by
  induction lst generalizing t with
  | nil => cases h
  | cons hd tl ih =>
    obtain ⟨o, ho, -⟩ := ofListAux_grown tl
    rw [ofListAux, ho, Option.bind_some] at h
    cases o with
    | none =>
      cases h
      trivial
    | some s =>
      obtain ⟨_, _, _, _, happend, hshaped, -⟩ := append_shaped hd (ih ho)
      rw [appendOpt, happend] at h
      cases h
      exact hshaped

/-- Trees that are made from lists have the shape, by induction on the appended elements. -/
theorem ofList_shaped {lst : List α} {t : AppendTree α} (h : ofList lst = some t) : t.Shaped :=
  ofListAux_shaped lst.reverse (by rw [← some_ofList, h])

/-! ### The first leaf -/

/-- The leaves to the left of the end of a path. -/
def before : AppendTree α → List Bool → List α
  | node a _ _ _, false :: path => before a path
  | node a b _ _, true :: path => a.toList ++ before b path
  | _, _ => []

/-- Nothing is found when no leaf satisfies the predicate. -/
theorem existsPath_eq_none {p : α → Bool} {t : AppendTree α} :
    t.existsPath p = none ↔ ∀ x ∈ t.toList, p x = false := by
  induction t with
  | leaf x =>
    rw [existsPath, toList, List.forall_mem_singleton]
    cases p x <;> simp
  | node a b size full iha ihb =>
    rw [existsPath, toList, List.forall_mem_append, ← iha, ← ihb]
    cases a.existsPath p with
    | some path => simp
    | none => cases b.existsPath p <;> simp

/-- No leaf to the left of the path that is found satisfies the predicate. -/
theorem existsPath_before {p : α → Bool} {t : AppendTree α} {path : List Bool}
    (h : t.existsPath p = some path) : ∀ y ∈ before t path, p y = false := by
  induction t generalizing path with
  | leaf x =>
    intro y hy
    rw [before] at hy
    · cases hy
    all_goals nofun
  | node a b size full iha ihb =>
    rw [existsPath] at h
    cases ha : a.existsPath p with
    | some pa =>
      -- found on the left: what comes before it lies in the left part
      rw [ha] at h
      cases h
      exact iha ha
    | none =>
      rw [ha] at h
      cases hb : b.existsPath p with
      | some pb =>
        rw [hb] at h
        -- the whole left part comes first, and nothing in it is accepted
        cases h
        exact List.forall_mem_append.2 ⟨existsPath_eq_none.1 ha, ihb hb⟩
      | none =>
        rw [hb] at h
        cases h

/-- The path leads to the first leaf that satisfies the predicate. -/
structure LeadsToFirst (p : α → Bool) (t : AppendTree α) (path : List Bool) (x : α) : Prop where
  leads : t.Leads path x
  holds : p x = true
  first : ∀ y ∈ before t path, p y = false

/-- **Append trees.** Building the tree of a list reaches no assertion; its leaves are the
elements, its nodes record their height and whether they are perfect, and its height is the one
that so many leaves need. A path to a leaf is found whenever one satisfies the predicate, and it
leads to the first such leaf. -/
theorem ofList_invariants (lst : List α) :
    ∃ o, ofListAux lst.reverse = some o ∧ ofList lst = o ∧ o.elim [] toList = lst ∧
      ∀ t ∈ o, t.Recorded ∧ t.height ≤ Nat.clog 2 lst.length ∧
        ∀ p : α → Bool, (∃ x ∈ lst, p x = true) →
          ∃ path x, t.existsPath p = some path ∧ LeadsToFirst p t path x := by
  refine ⟨ofList lst, (some_ofList lst).symm, rfl, ?_, ?_⟩
  · cases ho : ofList lst with
    | none =>
      by_contra hne
      obtain ⟨t, ht⟩ := ofList_isSome (Ne.symm hne)
      rw [ho] at ht
      cases ht
    | some t => exact toList_ofList ho
  · intro t ht
    have hlist : t.toList = lst := toList_ofList ht
    -- the invariant of the construction gives the sizes and the height
    have hshaped := ofList_shaped ht
    refine ⟨hshaped.recorded, ?_, ?_⟩
    · rw [← hlist]
      exact hshaped.height_le_clog
    · rintro p ⟨y, hy, hp⟩
      rw [← hlist] at hy
      obtain ⟨path, hpath⟩ := existsPath_isSome hy hp
      obtain ⟨x, hleads, hx⟩ := existsPath_leads hpath
      exact ⟨path, x, hpath, hleads, hx, existsPath_before hpath⟩

end Ligo.AppendTree
