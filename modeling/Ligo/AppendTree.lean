import Mathlib.Data.List.FinRange
import Ligo.Trace

/-!
# Append trees

The binary trees on which tuples, records and sums are laid out. An element is appended
at the right end: a full tree grows a new root, a tree that is not full grows on its
right. The shape only depends on the number of elements (`ofList_map`), and the leaves
are the elements in their order (`toList_ofList`).

The source asserts twice that a shape does not occur. `append` has these branches too,
with `none`, and `append_grown` proves that no tree that appending builds reaches them.
-/

namespace Ligo

/-- A non-empty tree, `'a t'`; the possibly empty ones are options of it. -/
inductive AppendTree (α : Type) where
  | leaf (x : α)
  | node (a b : AppendTree α) (size : ℕ) (full : Bool)
  deriving DecidableEq, Repr

namespace AppendTree

variable {α β γ : Type}

/-- Append an element at the right end. -/
def append (x : α) : AppendTree α → Option (AppendTree α)
  | leaf e => some (node (leaf e) (leaf x) 1 true)
  | node a b size true => some (node (node a b size true) (leaf x) (size + 1) false)
  | node (node a₁ a₂ aSize aFull) b size false =>
    match append x b with
    | some (node b₁ b₂ bSize false) =>
      some (node (node a₁ a₂ aSize aFull) (node b₁ b₂ bSize false) size false)
    | some (node b₁ b₂ bSize true) =>
      some (node (node a₁ a₂ aSize aFull) (node b₁ b₂ bSize true) size (bSize == aSize))
    -- `assert false`
    | _ => none
  -- `assert false`
  | node (leaf _) _ _ false => none

/-- The leaves, from left to right. -/
def toList : AppendTree α → List α
  | leaf x => [x]
  | node a b _ _ => a.toList ++ b.toList

def map (f : α → β) : AppendTree α → AppendTree β
  | leaf x => leaf (f x)
  | node a b size full => node (a.map f) (b.map f) size full

/-- `fold'`. -/
def fold (leaf' : α → β) (node' : β → β → β) : AppendTree α → β
  | leaf x => leaf' x
  | node a b _ _ => node' (a.fold leaf' node') (b.fold leaf' node')

/-- The path to the first leaf that satisfies `f`; `true` stands for the right. -/
def existsPath (f : α → Bool) : AppendTree α → Option (List Bool)
  | leaf x => if f x then some [] else none
  | node a b _ _ =>
    match a.existsPath f with
    | some path => some (false :: path)
    | none =>
      match b.existsPath f with
      | some path => some (true :: path)
      | none => none

/-! ### The assertions hold -/

/-- The right spine of a tree is one that appending builds. -/
def Grown : AppendTree α → Prop
  | leaf _ => True
  | node _ _ _ true => True
  | node (node ..) b _ false => Grown b
  | node (leaf _) _ _ false => False

/-- Appending to a grown tree gives a grown node. -/
theorem append_grown (x : α) {t : AppendTree α} (h : Grown t) :
    ∃ a b size full, append x t = some (node a b size full) ∧ Grown (node a b size full) := by
  fun_induction append x t with
  | case1 e => exact ⟨_, _, _, _, rfl, trivial⟩
  | case2 a b size => exact ⟨_, _, _, _, rfl, trivial⟩
  | case3 a₁ a₂ aSize aFull b size b₁ b₂ bSize heq ih =>
    obtain ⟨_, _, _, _, hb, hgrown⟩ := ih h
    rw [heq] at hb
    cases hb
    exact ⟨_, _, _, _, rfl, hgrown⟩
  | case4 a₁ a₂ aSize aFull b size b₁ b₂ bSize heq ih =>
    refine ⟨_, _, _, _, rfl, ?_⟩
    -- the right part is full, so it is grown whatever the flag says
    cases bSize == aSize <;> trivial
  | case5 a₁ a₂ aSize aFull b size hfalse htrue ih =>
    obtain ⟨b₁, b₂, bSize, bFull, hb, -⟩ := ih h
    cases bFull with
    | false => exact (hfalse _ _ _ hb).elim
    | true => exact (htrue _ _ _ hb).elim
  | case6 => exact h.elim

/-- `append` on a tree that may be empty. -/
def appendOpt (x : α) : Option (AppendTree α) → Option (Option (AppendTree α))
  | none => some (some (leaf x))
  | some t => (append x t).map some

/-- The elements appended one after the other, the last of the list first. -/
def ofListAux : List α → Option (Option (AppendTree α))
  | [] => some none
  | hd :: tl => (ofListAux tl).bind (appendOpt hd)

/-- Appending to a tree that has grown from one element by appending never fails. -/
theorem ofListAux_grown (lst : List α) :
    ∃ t, ofListAux lst = some t ∧ ∀ t' ∈ t, Grown t' := by
  induction lst with
  | nil => exact ⟨none, rfl, by simp⟩
  | cons hd tl ih =>
    obtain ⟨t, ht, hgrown⟩ := ih
    rw [ofListAux, ht, Option.bind_some]
    cases t with
    | none => exact ⟨some (leaf hd), rfl, by simp [Grown]⟩
    | some t =>
      obtain ⟨_, _, _, _, happend, hgrown'⟩ := append_grown hd (hgrown t rfl)
      refine ⟨some _, by rw [appendOpt, happend, Option.map_some], ?_⟩
      rintro t' ⟨⟩
      exact hgrown'

/-- No assertion fails while a tree is made. -/
theorem ofListAux_isSome (lst : List α) : (ofListAux lst).isSome := by
  obtain ⟨t, ht, -⟩ := ofListAux_grown lst
  rw [ht, Option.isSome_some]

/-- The tree of a list: the elements appended from the first to the last. -/
def ofList (lst : List α) : Option (AppendTree α) :=
  (ofListAux lst.reverse).get (ofListAux_isSome lst.reverse)

theorem some_ofList (lst : List α) : some (ofList lst) = ofListAux lst.reverse :=
  Option.some_get _

/-! ### The leaves -/

/-- The new element comes last. -/
theorem toList_append {x : α} {t t' : AppendTree α} (h : append x t = some t') :
    t'.toList = t.toList ++ [x] := by
  fun_induction append x t generalizing t' with
  | case1 e =>
    cases h
    rfl
  | case2 a b size =>
    cases h
    rfl
  | case3 a₁ a₂ aSize aFull b size b₁ b₂ bSize heq ih =>
    -- the element goes into the right part, whose new form is either full or not
    cases h
    exact (congrArg (_ ++ ·) (ih heq)).trans (List.append_assoc ..).symm
  | case4 a₁ a₂ aSize aFull b size b₁ b₂ bSize heq ih =>
    cases h
    exact (congrArg (_ ++ ·) (ih heq)).trans (List.append_assoc ..).symm
  -- the cases of `assert false` give no tree
  | case5 => cases h
  | case6 => cases h

theorem toList_ofListAux {lst : List α} {t : AppendTree α} (h : ofListAux lst = some (some t)) :
    t.toList = lst.reverse := by
  induction lst generalizing t with
  | nil => cases h
  | cons hd tl ih =>
    rw [ofListAux] at h
    obtain ⟨s, hs, h⟩ := Option.bind_eq_some_iff.1 h
    cases s with
    | none =>
      cases h
      cases tl with
      | nil => rfl
      | cons hd' tl' =>
        -- appending never gives the empty tree
        rw [ofListAux] at hs
        obtain ⟨s', -, hs⟩ := Option.bind_eq_some_iff.1 hs
        cases s' with
        | none => cases hs
        | some s' =>
          obtain ⟨_, -, hs⟩ := Option.map_eq_some_iff.1 hs
          cases hs
    | some s =>
      obtain ⟨_, happend, hs'⟩ := Option.map_eq_some_iff.1 h
      cases hs'
      rw [toList_append happend, ih hs, List.reverse_cons]

/-- The leaves are the list. -/
theorem toList_ofList {lst : List α} {t : AppendTree α} (h : ofList lst = some t) :
    t.toList = lst := by
  have haux : ofListAux lst.reverse = some (some t) := by rw [← some_ofList, h]
  rw [toList_ofListAux haux, List.reverse_reverse]

@[simp] theorem ofList_nil : ofList ([] : List α) = none := rfl

/-- A list that is not empty has a tree. -/
theorem ofList_isSome {lst : List α} (h : lst ≠ []) : ∃ t, ofList lst = some t := by
  obtain ⟨init, x, rfl⟩ : ∃ init x, lst = init ++ [x] :=
    ⟨_, _, (List.dropLast_append_getLast h).symm⟩
  obtain ⟨s, hs, hgrown⟩ := ofListAux_grown init.reverse
  have haux : ofListAux (init ++ [x]).reverse = appendOpt x s := by
    rw [List.reverse_concat, ofListAux, hs, Option.bind_some]
  cases s with
  | none =>
    refine ⟨leaf x, Option.some.inj ?_⟩
    rw [some_ofList, haux, appendOpt]
  | some s =>
    obtain ⟨a, b, size, full, happend, -⟩ := append_grown x (hgrown s rfl)
    refine ⟨node a b size full, Option.some.inj ?_⟩
    rw [some_ofList, haux, appendOpt, happend, Option.map_some]

/-! ### The shape -/

/-- A function on the elements does not change the shape. -/
theorem append_map (f : α → β) (x : α) (t : AppendTree α) :
    append (f x) (t.map f) = (append x t).map (map f) := by
  fun_induction append x t with
  | case1 e => rfl
  | case2 a b size => rfl
  | case3 a₁ a₂ aSize aFull b size b₁ b₂ bSize heq ih
  | case4 a₁ a₂ aSize aFull b size b₁ b₂ bSize heq ih =>
    rw [heq] at ih
    -- a new right part rebuilds the node in the same way on both sides
    simp only [map, append, ih, Option.map_some]
  | case5 a₁ a₂ aSize aFull b size hfalse htrue ih =>
    simp only [map, append, ih]
    cases hb : append x b with
    | none => rfl
    | some b' =>
      cases b' with
      | leaf _ => rfl
      | node b₁ b₂ bSize bFull =>
        cases bFull with
        | false => exact (hfalse _ _ _ hb).elim
        | true => exact (htrue _ _ _ hb).elim
  | case6 => rfl

theorem ofListAux_map (f : α → β) (lst : List α) :
    ofListAux (lst.map f) = (ofListAux lst).map (Option.map (map f)) := by
  induction lst with
  | nil => rfl
  | cons hd tl ih =>
    rw [List.map_cons, ofListAux, ofListAux, ih]
    cases ofListAux tl with
    | none => rfl
    | some t =>
      cases t with
      | none => rfl
      | some t =>
        simp only [Option.map_some, Option.bind_some, appendOpt, append_map]
        cases append hd t <;> rfl

/-- The shape of the tree of a list does not depend on the elements. -/
theorem ofList_map (f : α → β) (lst : List α) :
    ofList (lst.map f) = (ofList lst).map (map f) := by
  apply Option.some.inj
  rw [some_ofList, ← List.map_reverse, ofListAux_map, ← some_ofList, Option.map_some]

/-! ### Paths -/

/-- The path ends in the leaf `x`. -/
def Leads : AppendTree α → List Bool → α → Prop
  | leaf y, [], x => y = x
  | node a _ _ _, false :: path, x => Leads a path x
  | node _ b _ _, true :: path, x => Leads b path x
  | _, _, _ => False

/-- The path to the only leaf is empty. -/
@[simp] theorem leads_leaf {x y : α} {path : List Bool} :
    Leads (leaf x) path y ↔ path = [] ∧ x = y := by
  cases path <;> simp [Leads]

/-- A path below a node starts with a turn. -/
@[simp] theorem leads_node {a b : AppendTree α} {size : ℕ} {full : Bool} {path : List Bool} {x : α} :
    Leads (node a b size full) path x ↔
      (∃ p, path = false :: p ∧ Leads a p x) ∨ ∃ p, path = true :: p ∧ Leads b p x := by
  match path with
  | [] => simp [Leads]
  | false :: p => simp [Leads]
  | true :: p => simp [Leads]

/-- Looking for a leaf after a function on the elements. -/
theorem existsPath_map (f : β → Bool) (g : α → β) (t : AppendTree α) :
    (t.map g).existsPath f = t.existsPath (f ∘ g) := by
  induction t with
  | leaf x => rfl
  | node a b size full iha ihb => rw [map, existsPath, existsPath, iha, ihb]

/-- The path that is found leads to a leaf that satisfies the predicate. -/
theorem existsPath_leads {f : α → Bool} {t : AppendTree α} {path : List Bool}
    (h : t.existsPath f = some path) : ∃ x, Leads t path x ∧ f x = true := by
  induction t generalizing path with
  | leaf y =>
    rw [existsPath] at h
    split at h
    · rename_i hf
      cases h
      exact ⟨y, rfl, hf⟩
    · cases h
  | node a b size full iha ihb =>
    rw [existsPath] at h
    cases ha : a.existsPath f with
    | some path' =>
      rw [ha] at h
      cases h
      exact iha ha
    | none =>
      rw [ha] at h
      cases hb : b.existsPath f with
      -- nothing on the left, so the path goes right
      | some path' =>
        rw [hb] at h
        cases h
        exact ihb hb
      | none =>
        rw [hb] at h
        cases h

/-- A predicate that holds of a leaf has a path. -/
theorem existsPath_isSome {f : α → Bool} {t : AppendTree α} {x : α} (hx : x ∈ t.toList)
    (hf : f x = true) : ∃ path, t.existsPath f = some path := by
  induction t with
  | leaf y =>
    rw [toList, List.mem_singleton] at hx
    subst hx
    exact ⟨[], by rw [existsPath, if_pos hf]⟩
  | node a b size full iha ihb =>
    rw [toList, List.mem_append] at hx
    rw [existsPath]
    cases ha : a.existsPath f with
    | some path => exact ⟨_, rfl⟩
    | none =>
      -- the left part has no such leaf, so `x` is one of the right part
      have hxb : x ∈ b.toList := by
        refine hx.resolve_left fun hxa => ?_
        obtain ⟨path, hpath⟩ := iha hxa
        rw [ha] at hpath
        cases hpath
      obtain ⟨path, hpath⟩ := ihb hxb
      rw [hpath]
      exact ⟨_, rfl⟩

/-! ### Trees of families -/

/-- The tree of `n + 1` elements; its leaves are their positions. -/
def overFin (n : ℕ) : AppendTree (Fin (n + 1)) :=
  (ofList (List.finRange (n + 1))).get <| by
    obtain ⟨t, ht⟩ := @ofList_isSome (Fin (n + 1)) (List.finRange (n + 1)) (by
      rw [List.finRange_succ]
      exact List.cons_ne_nil _ _)
    rw [ht]
    rfl

/-- The tree over the first numbers. -/
theorem ofList_finRange (n : ℕ) : ofList (List.finRange (n + 1)) = some (overFin n) :=
  (Option.some_get _).symm

theorem toList_overFin (n : ℕ) : (overFin n).toList = List.finRange (n + 1) :=
  toList_ofList (ofList_finRange n)

/-- The tree of a family is the one of its positions, with the elements at the leaves. -/
theorem ofList_ofFn {n : ℕ} (f : Fin (n + 1) → α) :
    ofList (List.ofFn f) = some ((overFin n).map f) := by
  rw [List.ofFn_eq_map, ofList_map, ofList_finRange, Option.map_some]

end AppendTree

end Ligo
