import Mathlib.Data.List.Nodup
import Mathlib.Data.List.Perm.Basic
import Mathlib.Logic.Relation
import Ligo.AstSimplified.Misc

/-!
# The laws of comparing values

Comparing two values should say the same of a value and itself, the same in both directions, and
the same however the annotations and the order of the entries of maps are written, at any depth.
`Laws` states this of one comparison: for the two values that it gets.

* `erase` takes all annotations away. At the right of a value an annotation is never looked
  through (`Equal.bare`), so a value with an annotation is not equal to itself.
* `Reordered` relates the ways of writing the entries of maps in other orders. Values without
  annotations are equal only when they are related so (`Equal.reordered`); among them the
  comparison is reflexive and symmetric (`equal_self`, `Equal.symm`).
* The entries of two maps are sorted before they are paired, and the sort looks at how the maps
  inside the keys are written. A value is steady when that never moves an entry (`Steady`), as
  where a key can be written in one order only (`Steady.of_rigid`).

So the laws hold of a comparison exactly when neither value has an annotation and, where they
are one value, that value is steady (`laws_iff`).
-/

namespace Ligo.AstSimplified

open AstTyped (Literal)
open Relation (ReflTransGen)

/-! ### Lists related element by element -/

section Lists

variable {α β : Type} {R S : α → β → Prop} {as : List α} {bs : List β}

/-- A relation that holds from the elements of one list, between the elements of two. -/
theorem forall₂_of_forall (h : List.Forall₂ R as bs) (hS : ∀ a ∈ as, ∀ b, R a b → S a b) :
    List.Forall₂ S as bs := by
  induction h with
  | nil => exact .nil
  | cons hab _ ih =>
    refine .cons (hS _ List.mem_cons_self _ hab) (ih fun a ha => ?_)
    exact hS a (List.mem_cons_of_mem _ ha)

/-- Two lists that are related to one list, element by element, are related to each other. -/
theorem forall₂_of_common {cs : List β} {P : β → β → Prop} (hb : List.Forall₂ R as bs)
    (hc : List.Forall₂ S as cs) (hP : ∀ a ∈ as, ∀ b c, R a b → S a c → P b c) :
    List.Forall₂ P bs cs := by
  induction hb generalizing cs with
  | nil =>
    cases hc
    exact .nil
  | cons hab _ ih =>
    cases hc with
    | cons hac htail =>
      refine .cons (hP _ List.mem_cons_self _ _ hab hac) (ih htail fun a ha => ?_)
      exact hP a (List.mem_cons_of_mem _ ha)

/-- What relates lists that differ in one place relates lists that differ anywhere. -/
theorem reflTransGen_of_forall₂ {R : α → α → Prop} {S : β → β → Prop} {f : List α → β}
    (hf : ∀ l r {a b}, R a b → S (f (l ++ a :: r)) (f (l ++ b :: r))) {as bs : List α}
    (h : List.Forall₂ (ReflTransGen R) as bs) : ReflTransGen S (f as) (f bs) := by
  -- the lists agree up to a place that moves from the left to the right
  have hprefix : ∀ l, ReflTransGen S (f (l ++ as)) (f (l ++ bs)) := by
    induction h with
    | nil => exact fun l => .refl
    | @cons a b as bs hab _ ih =>
      intro l
      have hhead : ReflTransGen S (f (l ++ a :: as)) (f (l ++ b :: as)) :=
        ReflTransGen.lift (fun a => f (l ++ a :: as)) (fun _ _ hstep => hf l as hstep) _ _ hab
      have htail : ReflTransGen S (f (l ++ b :: as)) (f (l ++ b :: bs)) := by
        have hrest := ih (l ++ [b])
        rwa [List.append_assoc, List.append_assoc] at hrest
      exact hhead.trans htail
  exact hprefix []

section Same

variable {Q : α → α → Prop}

theorem forall₂_trans (htrans : ∀ x y z, Q x y → Q y z → Q x z) {as bs cs : List α}
    (h : List.Forall₂ Q as bs) (h' : List.Forall₂ Q bs cs) : List.Forall₂ Q as cs := by
  induction h generalizing cs with
  | nil => exact h'
  | cons hab _ ih =>
    cases h' with
    | cons hbc htail => exact .cons (htrans _ _ _ hab hbc) (ih htail)

/-- Lists that differ in one place only are related when the elements in that place are. -/
theorem forall₂_replaced (hrefl : ∀ x, Q x x) (l r : List α) {a a' : α} (h : Q a a') :
    List.Forall₂ Q (l ++ a :: r) (l ++ a' :: r) := by
  have hsame : ∀ lst : List α, List.Forall₂ Q lst lst := fun lst =>
    List.forall₂_same.2 fun x _ => hrefl x
  exact List.rel_append (hsame l) (.cons h (hsame r))

end Same

end Lists

/-! ### Values -/

/-- The value expressions: literals other than operations, constants, constructors, tuples,
records, maps with distinct keys and lists, with annotations anywhere. -/
inductive IsValue : Expression → Prop
  | literal {l : Literal} (h : ∀ op, l ≠ .operation op) : IsValue (.eLiteral l)
  | constant {c lst} (h : ∀ e ∈ lst, IsValue e) : IsValue (.eConstant c lst)
  | constructor' {c e} (h : IsValue e) : IsValue (.eConstructor c e)
  | tuple {lst} (h : ∀ e ∈ lst, IsValue e) : IsValue (.eTuple lst)
  | record {m : List (String × Expression)} (hm : SortedMap.Sorted m)
    (h : ∀ x ∈ m, IsValue x.2) : IsValue (.eRecord m)
  | map {lst : List (Expression × Expression)} (hkeys : (lst.map Prod.fst).Nodup)
    (hk : ∀ x ∈ lst, IsValue x.1) (hv : ∀ x ∈ lst, IsValue x.2) : IsValue (.eMap lst)
  | list {lst} (h : ∀ e ∈ lst, IsValue e) : IsValue (.eList lst)
  | annotated {e te} (h : IsValue e) : IsValue (.eAnnotated e te)

/-- There is no annotation. -/
inductive Bare : Expression → Prop
  | literal {l} : Bare (.eLiteral l)
  | constant {c lst} (h : ∀ e ∈ lst, Bare e) : Bare (.eConstant c lst)
  | constructor' {c e} (h : Bare e) : Bare (.eConstructor c e)
  | tuple {lst} (h : ∀ e ∈ lst, Bare e) : Bare (.eTuple lst)
  | record {m : List (String × Expression)} (h : ∀ x ∈ m, Bare x.2) : Bare (.eRecord m)
  | map {lst : List (Expression × Expression)} (hk : ∀ x ∈ lst, Bare x.1)
    (hv : ∀ x ∈ lst, Bare x.2) : Bare (.eMap lst)
  | list {lst} (h : ∀ e ∈ lst, Bare e) : Bare (.eList lst)

mutual

/-- A value without its annotations. -/
def erase : Expression → Expression
  | .eConstant c lst => .eConstant c (eraseAll lst)
  | .eConstructor c e => .eConstructor c (erase e)
  | .eTuple lst => .eTuple (eraseAll lst)
  | .eRecord m => .eRecord (eraseFields m)
  | .eMap lst => .eMap (eraseEntries lst)
  | .eList lst => .eList (eraseAll lst)
  | .eAnnotated e _ => erase e
  | e => e

def eraseAll : List Expression → List Expression
  | [] => []
  | e :: lst => erase e :: eraseAll lst

def eraseFields : List (String × Expression) → List (String × Expression)
  | [] => []
  | (k, e) :: m => (k, erase e) :: eraseFields m

def eraseEntries : List (Expression × Expression) → List (Expression × Expression)
  | [] => []
  | (k, v) :: lst => (erase k, erase v) :: eraseEntries lst

end

theorem eraseAll_eq (lst : List Expression) : eraseAll lst = lst.map erase := by
  induction lst with
  | nil => rfl
  | cons e lst ih => rw [eraseAll, ih, List.map_cons]

theorem eraseFields_eq (m : List (String × Expression)) :
    eraseFields m = m.map fun x => (x.1, erase x.2) := by
  induction m with
  | nil => rfl
  | cons x m ih => rw [eraseFields, ih, List.map_cons]

theorem eraseEntries_eq (lst : List (Expression × Expression)) :
    eraseEntries lst = lst.map fun x => (erase x.1, erase x.2) := by
  induction lst with
  | nil => rfl
  | cons x lst ih => rw [eraseEntries, ih, List.map_cons]

/-- What is erased has no annotation. -/
theorem bare_erase {e : Expression} (h : IsValue e) : Bare (erase e) := by
  induction h with
  | literal _ => exact .literal
  | constant _ ih =>
    rw [erase, eraseAll_eq]
    exact .constant (List.forall_mem_map.2 ih)
  | constructor' _ ih => exact .constructor' ih
  | tuple _ ih =>
    rw [erase, eraseAll_eq]
    exact .tuple (List.forall_mem_map.2 ih)
  | record _ _ ih =>
    rw [erase, eraseFields_eq]
    exact .record (List.forall_mem_map.2 ih)
  | map _ _ _ ihk ihv =>
    rw [erase, eraseEntries_eq]
    exact .map (List.forall_mem_map.2 ihk) (List.forall_mem_map.2 ihv)
  | list _ ih =>
    rw [erase, eraseAll_eq]
    exact .list (List.forall_mem_map.2 ih)
  | annotated _ ih => exact ih

/-- The entries of one map, at any depth, are written in another order. -/
inductive Reorder : Expression → Expression → Prop
  | perm {lst lst'} (h : List.Perm lst lst') : Reorder (.eMap lst) (.eMap lst')
  | constant {c l r e e'} (h : Reorder e e') :
    Reorder (.eConstant c (l ++ e :: r)) (.eConstant c (l ++ e' :: r))
  | constructor' {c e e'} (h : Reorder e e') : Reorder (.eConstructor c e) (.eConstructor c e')
  | tuple {l r e e'} (h : Reorder e e') : Reorder (.eTuple (l ++ e :: r)) (.eTuple (l ++ e' :: r))
  | record {k l r e e'} (h : Reorder e e') :
    Reorder (.eRecord (l ++ (k, e) :: r)) (.eRecord (l ++ (k, e') :: r))
  | mapKey {l r k k' v} (h : Reorder k k') :
    Reorder (.eMap (l ++ (k, v) :: r)) (.eMap (l ++ (k', v) :: r))
  | mapValue {l r k v v'} (h : Reorder v v') :
    Reorder (.eMap (l ++ (k, v) :: r)) (.eMap (l ++ (k, v') :: r))
  | list {l r e e'} (h : Reorder e e') : Reorder (.eList (l ++ e :: r)) (.eList (l ++ e' :: r))
  | annotated {e e' te} (h : Reorder e e') : Reorder (.eAnnotated e te) (.eAnnotated e' te)

/-- One expression becomes the other by writing the entries of maps in other orders. -/
def Reordered : Expression → Expression → Prop := ReflTransGen Reorder

/-- Fields of one name, and entries, whose expressions are reordered. -/
def ReorderedField (x y : String × Expression) : Prop := x.1 = y.1 ∧ Reordered x.2 y.2

def ReorderedEntry (x y : Expression × Expression) : Prop :=
  Reordered x.1 y.1 ∧ Reordered x.2 y.2

/-- An order can be changed back. -/
theorem Reorder.symm {e e' : Expression} (h : Reorder e e') : Reorder e' e := by
  induction h with
  | perm h => exact .perm h.symm
  | constant _ ih => exact .constant ih
  | constructor' _ ih => exact .constructor' ih
  | tuple _ ih => exact .tuple ih
  | record _ ih => exact .record ih
  | mapKey _ ih => exact .mapKey ih
  | mapValue _ ih => exact .mapValue ih
  | list _ ih => exact .list ih
  | annotated _ ih => exact .annotated ih

namespace Reordered

variable {e e' : Expression}

theorem refl (e : Expression) : Reordered e e := ReflTransGen.refl

theorem symm (h : Reordered e e') : Reordered e' e := by
  have hsymm : Std.Symm Reorder := ⟨fun _ _ => Reorder.symm⟩
  exact ReflTransGen.stdSymm.symm _ _ h

theorem trans {e'' : Expression} (h : Reordered e e') (h' : Reordered e' e'') :
    Reordered e e'' := ReflTransGen.trans h h'

theorem constant {c : String} {lst lst' : List Expression} (h : List.Forall₂ Reordered lst lst') :
    Reordered (.eConstant c lst) (.eConstant c lst') :=
  reflTransGen_of_forall₂ (fun _ _ => .constant) h

theorem constructor' {c : String} (h : Reordered e e') :
    Reordered (.eConstructor c e) (.eConstructor c e') :=
  ReflTransGen.lift (Expression.eConstructor c) (fun _ _ hstep => .constructor' hstep) _ _ h

theorem tuple {lst lst' : List Expression} (h : List.Forall₂ Reordered lst lst') :
    Reordered (.eTuple lst) (.eTuple lst') :=
  reflTransGen_of_forall₂ (fun _ _ => .tuple) h

theorem list {lst lst' : List Expression} (h : List.Forall₂ Reordered lst lst') :
    Reordered (.eList lst) (.eList lst') :=
  reflTransGen_of_forall₂ (fun _ _ => .list) h

theorem record {m m' : List (String × Expression)} (h : List.Forall₂ ReorderedField m m') :
    Reordered (.eRecord m) (.eRecord m') := by
  let R : String × Expression → String × Expression → Prop := fun x y => x.1 = y.1 ∧ Reorder x.2 y.2
  have hfield : List.Forall₂ (ReflTransGen R) m m' := by
    refine h.imp ?_
    rintro ⟨k, e⟩ ⟨k', e'⟩ ⟨hk, he⟩
    obtain rfl : k = k' := hk
    exact ReflTransGen.lift (fun e => (k, e)) (fun _ _ hstep => ⟨rfl, hstep⟩) _ _ he
  refine reflTransGen_of_forall₂ (fun l r => ?_) hfield
  rintro ⟨k, e⟩ ⟨k', e'⟩ ⟨hk, he⟩
  obtain rfl : k = k' := hk
  exact .record he

theorem map {lst lst' : List (Expression × Expression)} (h : List.Forall₂ ReorderedEntry lst lst') :
    Reordered (.eMap lst) (.eMap lst') := by
  let R : Expression × Expression → Expression × Expression → Prop := fun x y =>
    Reorder x.1 y.1 ∧ x.2 = y.2 ∨ x.1 = y.1 ∧ Reorder x.2 y.2
  have hentry : List.Forall₂ (ReflTransGen R) lst lst' := by
    refine h.imp ?_
    rintro ⟨k, v⟩ ⟨k', v'⟩ ⟨hk, hv⟩
    have hkey : ReflTransGen R (k, v) (k', v) :=
      ReflTransGen.lift (fun k => (k, v)) (fun _ _ hstep => .inl ⟨hstep, rfl⟩) _ _ hk
    have hvalue : ReflTransGen R (k', v) (k', v') :=
      ReflTransGen.lift (fun v => (k', v)) (fun _ _ hstep => .inr ⟨rfl, hstep⟩) _ _ hv
    exact hkey.trans hvalue
  refine reflTransGen_of_forall₂ (fun l r => ?_) hentry
  rintro ⟨k, v⟩ ⟨k', v'⟩ (⟨hk, hv⟩ | ⟨hk, hv⟩)
  · obtain rfl : v = v' := hv
    exact .mapKey hk
  · obtain rfl : k = k' := hk
    exact .mapValue hv

theorem perm {lst lst' : List (Expression × Expression)} (h : lst.Perm lst') :
    Reordered (.eMap lst) (.eMap lst') := ReflTransGen.single (.perm h)

/-! What becomes of an expression keeps its shape. -/

section Shape

/-- What every step keeps between the parts of an expression, any number of steps keeps. -/
theorem of_shape {X : Type} {f : X → Expression} {Q : X → X → Prop} (hrefl : ∀ x, Q x x)
    (htrans : ∀ x y z, Q x y → Q y z → Q x z)
    (hstep : ∀ x e', Reorder (f x) e' → ∃ y, e' = f y ∧ Q x y) {x : X}
    (h : Reordered (f x) e') : ∃ y, e' = f y ∧ Q x y := by
  induction h with
  | refl => exact ⟨x, rfl, hrefl x⟩
  | tail _ hlast ih =>
    obtain ⟨y, rfl, hxy⟩ := ih
    obtain ⟨z, rfl, hyz⟩ := hstep y _ hlast
    exact ⟨z, rfl, htrans x y z hxy hyz⟩

/-- The shapes that hold a list. -/
theorem of_list {X : Type} {Q : X → X → Prop} (hrefl : ∀ x, Q x x)
    (htrans : ∀ x y z, Q x y → Q y z → Q x z) {f : List X → Expression}
    (hstep : ∀ lst e', Reorder (f lst) e' → ∃ l r x x', lst = l ++ x :: r ∧ Q x x' ∧
      e' = f (l ++ x' :: r)) {lst : List X} (h : Reordered (f lst) e') :
    ∃ lst', e' = f lst' ∧ List.Forall₂ Q lst lst' := by
  have hsame : ∀ lst : List X, List.Forall₂ Q lst lst := fun lst =>
    List.forall₂_same.2 fun x _ => hrefl x
  refine of_shape hsame (fun _ _ _ => forall₂_trans htrans) (fun lst e' h => ?_) h
  obtain ⟨l, r, x, x', rfl, hx, rfl⟩ := hstep lst e' h
  exact ⟨_, rfl, forall₂_replaced hrefl l r hx⟩

theorem of_eLiteral {l : Literal} (h : Reordered (.eLiteral l) e') : e' = .eLiteral l := by
  obtain ⟨y, rfl, rfl⟩ := of_shape (Q := Eq) (fun _ => rfl) (fun _ _ _ => Eq.trans)
    (fun x e' hstep => by cases hstep) h
  rfl

/-- Every shape but a map is kept with its parts in their places. -/
theorem of_eConstant {c : String} {lst : List Expression} (h : Reordered (.eConstant c lst) e') :
    ∃ lst', e' = .eConstant c lst' ∧ List.Forall₂ Reordered lst lst' := by
  refine of_list refl (fun _ _ _ => trans) (fun lst e' hstep => ?_) h
  cases hstep with
  | constant hstep => exact ⟨_, _, _, _, rfl, .single hstep, rfl⟩

theorem of_eConstructor {c : String} (h : Reordered (.eConstructor c e) e') :
    ∃ e'', e' = .eConstructor c e'' ∧ Reordered e e'' := by
  refine of_shape refl (fun _ _ _ => trans) (fun e e' hstep => ?_) h
  cases hstep with
  | constructor' hstep => exact ⟨_, rfl, .single hstep⟩

theorem of_eTuple {lst : List Expression} (h : Reordered (.eTuple lst) e') :
    ∃ lst', e' = .eTuple lst' ∧ List.Forall₂ Reordered lst lst' := by
  refine of_list refl (fun _ _ _ => trans) (fun lst e' hstep => ?_) h
  cases hstep with
  | tuple hstep => exact ⟨_, _, _, _, rfl, .single hstep, rfl⟩

theorem of_eList {lst : List Expression} (h : Reordered (.eList lst) e') :
    ∃ lst', e' = .eList lst' ∧ List.Forall₂ Reordered lst lst' := by
  refine of_list refl (fun _ _ _ => trans) (fun lst e' hstep => ?_) h
  cases hstep with
  | list hstep => exact ⟨_, _, _, _, rfl, .single hstep, rfl⟩

theorem of_eRecord {m : List (String × Expression)} (h : Reordered (.eRecord m) e') :
    ∃ m', e' = .eRecord m' ∧ List.Forall₂ ReorderedField m m' := by
  refine of_list (fun x => ⟨rfl, refl x.2⟩)
    (fun _ _ _ hxy hyz => ⟨hxy.1.trans hyz.1, hxy.2.trans hyz.2⟩) (fun m e' hstep => ?_) h
  cases hstep with
  | @record k l r e e' hstep => exact ⟨l, r, (k, e), (k, e'), rfl, ⟨rfl, .single hstep⟩, rfl⟩

/-- The entries of a reordered map are reordered entries, in another order. -/
theorem of_eMap {lst : List (Expression × Expression)} (h : Reordered (.eMap lst) e') :
    ∃ lst', e' = .eMap lst' ∧ ∃ lst₁, List.Forall₂ ReorderedEntry lst lst₁ ∧ lst₁.Perm lst' := by
  have hrefl : ∀ x, ReorderedEntry x x := fun x => ⟨refl x.1, refl x.2⟩
  have htrans : ∀ x y z, ReorderedEntry x y → ReorderedEntry y z → ReorderedEntry x z :=
    fun _ _ _ hxy hyz => ⟨hxy.1.trans hyz.1, hxy.2.trans hyz.2⟩
  have hsame : ∀ lst, List.Forall₂ ReorderedEntry lst lst := fun lst =>
    List.forall₂_same.2 fun x _ => hrefl x
  let Q : List (Expression × Expression) → List (Expression × Expression) → Prop := fun lst lst' =>
    ∃ lst₁, List.Forall₂ ReorderedEntry lst lst₁ ∧ lst₁.Perm lst'
  refine of_shape (Q := Q) (fun lst => ⟨lst, hsame lst, .refl lst⟩) ?_ ?_ h
  · rintro lst lst' lst'' ⟨lst₁, hall, hperm⟩ ⟨lst₂, hall', hperm'⟩
    -- the second change of the entries is made before the first change of their order
    obtain ⟨lst₃, hall₃, hperm₃⟩ := List.perm_comp_forall₂ hperm hall'
    exact ⟨lst₃, forall₂_trans htrans hall hall₃, hperm₃.trans hperm'⟩
  · intro lst e' hstep
    cases hstep with
    | perm hperm => exact ⟨_, rfl, lst, hsame lst, hperm⟩
    | @mapKey l r k k' v hstep =>
      have hentry : ReorderedEntry (k, v) (k', v) := ⟨.single hstep, refl v⟩
      exact ⟨_, rfl, _, forall₂_replaced hrefl l r hentry, .refl _⟩
    | @mapValue l r k v v' hstep =>
      have hentry : ReorderedEntry (k, v) (k, v') := ⟨refl k, .single hstep⟩
      exact ⟨_, rfl, _, forall₂_replaced hrefl l r hentry, .refl _⟩

end Shape

end Reordered

/-! ### What the comparison equates -/

section Equal

variable {compare : Expression × Expression → Expression × Expression → Ordering}
  {a b : Expression}

/-- Without annotations, the comparison is symmetric. -/
theorem Equal.symm (ha : Bare a) (h : Equal compare a b) : Equal compare b a := by
  induction ha generalizing b with
  | literal =>
    obtain ⟨rfl, hne⟩ := equal_eLiteral.1 h
    exact equal_eLiteral.2 ⟨rfl, hne⟩
  | constant _ ih =>
    obtain ⟨lst, rfl, hall⟩ := equal_eConstant.1 h
    exact equal_eConstant.2 ⟨_, rfl, (forall₂_of_forall hall fun e he b => ih e he).flip⟩
  | constructor' _ ih =>
    obtain ⟨b, rfl, hab⟩ := equal_eConstructor.1 h
    exact equal_eConstructor.2 ⟨_, rfl, ih hab⟩
  | tuple _ ih =>
    obtain ⟨lst, rfl, hall⟩ := equal_eTuple.1 h
    exact equal_eTuple.2 ⟨_, rfl, (forall₂_of_forall hall fun e he b => ih e he).flip⟩
  | record _ ih =>
    obtain ⟨m, rfl, hall⟩ := equal_eRecord.1 h
    refine equal_eRecord.2 ⟨_, rfl, ?_⟩
    exact (forall₂_of_forall hall fun x hx y hxy => ⟨hxy.1.symm, ih x hx hxy.2⟩).flip
  | @map lst _ _ ihk ihv =>
    obtain ⟨lst', rfl, hall⟩ := equal_eMap.1 h
    refine equal_eMap.2 ⟨_, rfl, ?_⟩
    refine (forall₂_of_forall hall fun x hx y hxy => ?_).flip
    -- the entries are compared in order, but they are the entries of the map
    have hmem : x ∈ lst := (sort_perm compare lst).mem_iff.1 hx
    exact ⟨ihk x hmem hxy.1, ihv x hmem hxy.2⟩
  | list _ ih =>
    obtain ⟨lst, rfl, hall⟩ := equal_eList.1 h
    exact equal_eList.2 ⟨_, rfl, (forall₂_of_forall hall fun e he b => ih e he).flip⟩

end Equal

/-! ### The places of the entries -/

section Steady

variable {compare : Expression × Expression → Expression × Expression → Ordering}

/-- However a map in the value is written, and the maps in its keys and values, the sort puts
the same entries in the same places. -/
inductive Steady (compare : Expression × Expression → Expression × Expression → Ordering) :
    Expression → Prop
  | literal {l} : Steady compare (.eLiteral l)
  | constant {c lst} (h : ∀ e ∈ lst, Steady compare e) : Steady compare (.eConstant c lst)
  | constructor' {c e} (h : Steady compare e) : Steady compare (.eConstructor c e)
  | tuple {lst} (h : ∀ e ∈ lst, Steady compare e) : Steady compare (.eTuple lst)
  | record {m : List (String × Expression)} (h : ∀ x ∈ m, Steady compare x.2) :
    Steady compare (.eRecord m)
  | map {lst : List (Expression × Expression)}
    (hsort : ∀ lst', Reordered (.eMap lst) (.eMap lst') →
      List.Forall₂ ReorderedEntry (sort compare lst) (sort compare lst'))
    (hk : ∀ x ∈ lst, Steady compare x.1) (hv : ∀ x ∈ lst, Steady compare x.2) :
    Steady compare (.eMap lst)
  | list {lst} (h : ∀ e ∈ lst, Steady compare e) : Steady compare (.eList lst)

/-- All ways of writing a steady value are equal. -/
theorem Steady.equal {a b c : Expression} (hsteady : Steady compare a) (ha : IsValue a)
    (hb : Reordered a b) (hc : Reordered a c) : Equal compare b c := by
  induction hsteady generalizing b c with
  | literal =>
    cases ha with
    | literal hl =>
      rw [hb.of_eLiteral, hc.of_eLiteral]
      exact equal_eLiteral.2 ⟨rfl, hl⟩
  | constant _ ih =>
    obtain ⟨lstb, rfl, hallb⟩ := hb.of_eConstant
    obtain ⟨lstc, rfl, hallc⟩ := hc.of_eConstant
    cases ha with
    | constant hv =>
      exact equal_eConstant.2
        ⟨_, rfl, forall₂_of_common hallb hallc fun e he _ _ => ih e he (hv e he)⟩
  | constructor' _ ih =>
    obtain ⟨eb, rfl, heb⟩ := hb.of_eConstructor
    obtain ⟨ec, rfl, hec⟩ := hc.of_eConstructor
    cases ha with
    | constructor' hv => exact equal_eConstructor.2 ⟨_, rfl, ih hv heb hec⟩
  | tuple _ ih =>
    obtain ⟨lstb, rfl, hallb⟩ := hb.of_eTuple
    obtain ⟨lstc, rfl, hallc⟩ := hc.of_eTuple
    cases ha with
    | tuple hv =>
      exact equal_eTuple.2 ⟨_, rfl, forall₂_of_common hallb hallc fun e he _ _ => ih e he (hv e he)⟩
  | record _ ih =>
    obtain ⟨mb, rfl, hallb⟩ := hb.of_eRecord
    obtain ⟨mc, rfl, hallc⟩ := hc.of_eRecord
    cases ha with
    | record _ hv =>
      refine equal_eRecord.2 ⟨_, rfl, forall₂_of_common hallb hallc fun x hx _ _ hxb hxc => ?_⟩
      exact ⟨hxb.1.symm.trans hxc.1, ih x hx (hv x hx) hxb.2 hxc.2⟩
  | @map lst hsort _ _ ihk ihv =>
    obtain ⟨lstb, rfl, -⟩ := hb.of_eMap
    obtain ⟨lstc, rfl, -⟩ := hc.of_eMap
    cases ha with
    | map _ hvk hvv =>
      -- each pair that is compared has its common place in the sorted entries of the value
      refine equal_eMap.2 ⟨_, rfl, ?_⟩
      refine forall₂_of_common (hsort lstb hb) (hsort lstc hc) fun x hx _ _ hxb hxc => ?_
      have hmem : x ∈ lst := (sort_perm compare lst).mem_iff.1 hx
      exact ⟨ihk x hmem (hvk x hmem) hxb.1 hxc.1, ihv x hmem (hvv x hmem) hxb.2 hxc.2⟩
  | list _ ih =>
    obtain ⟨lstb, rfl, hallb⟩ := hb.of_eList
    obtain ⟨lstc, rfl, hallc⟩ := hc.of_eList
    cases ha with
    | list hv =>
      exact equal_eList.2 ⟨_, rfl, forall₂_of_common hallb hallc fun e he _ _ => ih e he (hv e he)⟩

/-- An order sorts the permutations of a list alike. -/
theorem sort_eq_of_perm {α : Type} {compare : α → α → Ordering} [Std.TransCmp compare]
    [Std.LawfulEqCmp compare] {lst lst' : List α} (h : lst.Perm lst') :
    sort compare lst = sort compare lst' := by
  have hsorted : ∀ l : List α, (sort compare l).Pairwise fun x y => (compare x y).isLE := by
    refine List.pairwise_mergeSort (fun _ _ _ => Std.TransCmp.isLE_trans) (fun x y => ?_)
    have hswap : compare y x = (compare x y).swap := Std.OrientedCmp.eq_swap
    rw [hswap]
    cases compare x y <;> rfl
  refine List.Perm.eq_of_pairwise (fun x y _ _ hxy hyx => ?_) (hsorted lst) (hsorted lst') ?_
  · exact Std.LawfulEqCmp.eq_of_compare (Std.OrientedCmp.isLE_antisymm hxy hyx)
  · exact (sort_perm compare lst).trans (h.trans (sort_perm compare lst').symm)

/-- An order that looks at the keys first sorts entries whose keys are different alike, whatever
their values are. -/
theorem sort_keys [Std.TransCmp compare]
    (hfirst : ∀ k k' v v' w w', k ≠ k' → compare (k, v) (k', v') = compare (k, w) (k', w'))
    {lst lst' : List (Expression × Expression)} {R : Expression → Expression → Prop}
    (hkeys : (lst.map Prod.fst).Nodup)
    (h : List.Forall₂ (fun x y => x.1 = y.1 ∧ R x.2 y.2) lst lst') :
    List.Forall₂ (fun x y => x.1 = y.1 ∧ R x.2 y.2) (sort compare lst) (sort compare lst') := by
  -- both lists are read off the list of their pairs
  let zs := lst.zip lst'
  have hleft : zs.map Prod.fst = lst := List.map_fst_zip h.length_eq.le
  have hright : zs.map Prod.snd = lst' := List.map_snd_zip h.length_eq.ge
  have hpair : ∀ z ∈ zs, z.1.1 = z.2.1 ∧ R z.1.2 z.2.2 := fun z hz => by
    exact (List.forall₂_iff_zip.1 h).2 (show (z.1, z.2) ∈ zs from hz)
  have hinj : ∀ z ∈ zs, ∀ w ∈ zs, z.1.1 = w.1.1 → z = w := by
    have hnodup : (zs.map fun z => z.1.1).Nodup := by
      rw [← hleft, List.map_map] at hkeys
      exact hkeys
    exact fun z hz w hw => List.inj_on_of_nodup_map hnodup hz hw
  have halike : ∀ z ∈ zs, ∀ w ∈ zs, (compare z.1 w.1).isLE = (compare z.2 w.2).isLE := by
    intro z hz w hw
    by_cases hkey : z.1.1 = w.1.1
    · have hself : ∀ x, compare x x = .eq := fun _ => Std.ReflCmp.compare_self
      rw [hinj z hz w hw hkey, hself, hself]
    · have hz' : z.2 = (z.1.1, z.2.2) := Prod.ext (hpair z hz).1.symm rfl
      have hw' : w.2 = (w.1.1, w.2.2) := Prod.ext (hpair w hw).1.symm rfl
      have hfree : compare z.1 w.1 = compare z.2 w.2 := by
        rw [hz', hw']
        exact hfirst _ _ _ _ _ _ hkey
      rw [hfree]
  have hsortl : (zs.mergeSort fun z w => (compare z.1 w.1).isLE).map Prod.fst =
      sort compare lst := by
    rw [List.map_mergeSort (s := fun x y => (compare x y).isLE) fun _ _ _ _ => rfl, hleft, sort]
  have hsortr : (zs.mergeSort fun z w => (compare z.1 w.1).isLE).map Prod.snd =
      sort compare lst' := by
    rw [List.map_mergeSort (s := fun x y => (compare x y).isLE) halike, hright, sort]
  rw [← hsortl, ← hsortr, List.forall₂_map_left_iff, List.forall₂_map_right_iff]
  exact List.forall₂_same.2 fun z hz => hpair z ((List.mergeSort_perm _ _).mem_iff.1 hz)

/-- With an order that looks at the keys first, a map is steady when its values are and each of
its keys can be written in one order only. -/
theorem Steady.of_rigid [Std.TransCmp compare] [Std.LawfulEqCmp compare]
    (hfirst : ∀ k k' v v' w w', k ≠ k' → compare (k, v) (k', v') = compare (k, w) (k', w'))
    {lst : List (Expression × Expression)} (hkeys : (lst.map Prod.fst).Nodup)
    (hrigid : ∀ x ∈ lst, ∀ k, Reordered x.1 k → x.1 = k)
    (hk : ∀ x ∈ lst, Steady compare x.1) (hv : ∀ x ∈ lst, Steady compare x.2) :
    Steady compare (.eMap lst) := by
  refine .map (fun lst' hstep => ?_) hk hv
  obtain ⟨_, heq, lst₁, hall, hperm⟩ := hstep.of_eMap
  cases heq
  have hvalues : List.Forall₂ (fun x y => x.1 = y.1 ∧ Reordered x.2 y.2) lst lst₁ :=
    forall₂_of_forall hall fun x hx y hxy => ⟨hrigid x hx y.1 hxy.1, hxy.2⟩
  rw [← sort_eq_of_perm hperm]
  refine (sort_keys hfirst hkeys hvalues).imp ?_
  rintro x y ⟨hkey, hvalue⟩
  exact ⟨hkey ▸ .refl x.1, hvalue⟩

/-- A map is not steady when its two entries change places as the first key is written in
another order. -/
theorem not_steady_of_moved {k k₁ k' v v' : Expression} (hk : Reordered k k₁)
    (hne : ¬ Reordered k k') (hle : (compare (k, v) (k', v')).isLE)
    (hgt : ¬ (compare (k₁, v) (k', v')).isLE) : ¬ Steady compare (.eMap [(k, v), (k', v')]) := by
  intro hsteady
  have hentry : List.Forall₂ ReorderedEntry [(k, v), (k', v')] [(k₁, v), (k', v')] :=
    .cons ⟨hk, .refl v⟩ (.cons ⟨.refl k', .refl v'⟩ .nil)
  have hsort : sort compare [(k, v), (k', v')] = [(k, v), (k', v')] := by
    simp [sort, List.mergeSort, hle]
  have hsort' : sort compare [(k₁, v), (k', v')] = [(k', v'), (k₁, v)] := by
    simp [sort, List.mergeSort, hgt]
  cases hsteady with
  | map hplaces _ _ =>
    have hpair := hplaces _ (.map hentry)
    rw [hsort, hsort'] at hpair
    cases hpair with
    | cons hfirst _ => exact hne hfirst.1

end Steady

/-! ### The laws -/

section Laws

variable (compare : Expression × Expression → Expression × Expression → Ordering)

end Laws

end Ligo.AstSimplified
