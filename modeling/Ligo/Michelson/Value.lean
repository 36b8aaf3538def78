import Ligo.Michelson.Atom
import Ligo.Library.SortedMap
import Ligo.Library.Fuel

/-!
# Michelson values

`Value F` is the type of Michelson values whose functions are represented by `F`.
The interpreter runs on `Value Node`, where a function is its code; the reference
semantics of the source language runs on the same values with the functions of the
source, so that the two can be compared by translating the functions alone
(`Value.mapFn`).

Every operation of this file treats a function as a token. That is the content of
the `mapFn` lemmas: an operation on translated values is the translation of the
operation's result (`Outcome.mapFn`), whatever the translation of functions is.
-/

namespace Michelson

/-- Michelson values over a representation `F` of functions. -/
inductive Value (F : Type) where
  | unit
  | atom (a : Atom)
  | pair (a b : Value F)
  | left (a : Value F)
  | right (b : Value F)
  | some (a : Value F)
  | none
  | list (vs : List (Value F))
  | map (entries : List (Atom × Value F))
  | lambda (f : F)
  | contract (t : Ty) (address : Address)
  | operation (destination : Address) (amount : Mutez) (parameter : Value F)
  deriving Repr

/-- Induction on a value, with the hypothesis for each element and each entry. -/
@[elab_as_elim]
theorem Value.ind {F : Type} {P : Value F → Prop} (unit : P .unit) (atom : ∀ a, P (.atom a))
    (pair : ∀ a b, P a → P b → P (.pair a b)) (left : ∀ a, P a → P (.left a))
    (right : ∀ b, P b → P (.right b)) (some : ∀ a, P a → P (.some a)) (none : P .none)
    (list : ∀ vs, (∀ v ∈ vs, P v) → P (.list vs))
    (map : ∀ entries : List (Atom × Value F), (∀ e ∈ entries, P e.2) → P (.map entries))
    (lambda : ∀ f, P (.lambda f)) (contract : ∀ t a, P (.contract t a))
    (operation : ∀ d m p, P p → P (.operation d m p)) (v : Value F) : P v :=
  @Value.rec F P (fun vs => ∀ v ∈ vs, P v) (fun entries => ∀ e ∈ entries, P e.2)
    (fun e => P e.2) unit atom pair left right some none list map lambda contract operation
    (by simp) (fun _ _ h hs => List.forall_mem_cons.2 ⟨h, hs⟩)
    (by simp) (fun _ _ h hs => List.forall_mem_cons.2 ⟨h, hs⟩) (fun _ _ h => h) v

namespace Value

@[match_pattern] abbrev bool {F : Type} (b : Bool) : Value F := .atom (.bool b)
@[match_pattern] abbrev int {F : Type} (z : Int) : Value F := .atom (.int z)
@[match_pattern] abbrev nat {F : Type} (n : Nat) : Value F := .atom (.nat n)
@[match_pattern] abbrev mutez {F : Type} (m : Mutez) : Value F := .atom (.mutez m)
@[match_pattern] abbrev string {F : Type} (s : String) : Value F := .atom (.string s)
@[match_pattern] abbrev address {F : Type} (a : Address) : Value F := .atom (.address a)

end Value

/-- Why a run stops before its end. `failed` is `FAILWITH` with its argument,
`timeout` means that the fuel ran out, and `fault` covers overflows and the
operations that the typing rules exclude. -/
inductive Stop (F : Type) where
  | timeout
  | fault (f : Fault)
  | failed (v : Value F)
  deriving Repr

/-- The result of a run. -/
abbrev Outcome (F α : Type) := Except (Stop F) α

/-- No typing rule lets this happen. -/
abbrev stuck {F α : Type} : Outcome F α := .error (.fault .stuck)

/-- An operation on atoms as a step of a run. -/
def ofFault {F α : Type} : Except Fault α → Outcome F α
  | .ok a => .ok a
  | .error f => .error (.fault f)

/-! ### Translating functions -/

section MapFn

variable {F G H : Type}

mutual

/-- Translate the functions in a value. -/
@[simp] def Value.mapFn (g : F → G) : Value F → Value G
  | .unit => .unit
  | .atom a => .atom a
  | .pair a b => .pair (a.mapFn g) (b.mapFn g)
  | .left a => .left (a.mapFn g)
  | .right b => .right (b.mapFn g)
  | .some a => .some (a.mapFn g)
  | .none => .none
  | .list vs => .list (mapFnList g vs)
  | .map entries => .map (mapFnEntries g entries)
  | .lambda f => .lambda (g f)
  | .contract t a => .contract t a
  | .operation d m p => .operation d m (p.mapFn g)

/-- `Value.mapFn` on the elements of a list. -/
def mapFnList (g : F → G) : List (Value F) → List (Value G)
  | [] => []
  | v :: vs => v.mapFn g :: mapFnList g vs

/-- `Value.mapFn` on the values of a map. -/
def mapFnEntries (g : F → G) : List (Atom × Value F) → List (Atom × Value G)
  | [] => []
  | (k, v) :: entries => (k, v.mapFn g) :: mapFnEntries g entries

end

/-- The recursion on the elements of a list is a map. -/
@[simp] theorem mapFnList_eq (g : F → G) (vs : List (Value F)) :
    mapFnList g vs = vs.map (Value.mapFn g) := by
  induction vs with
  | nil => rfl
  | cons v vs ih => rw [mapFnList, ih, List.map_cons]

@[simp] theorem mapFnEntries_eq (g : F → G) (entries : List (Atom × Value F)) :
    mapFnEntries g entries = SortedMap.mapVal (Value.mapFn g) entries := by
  induction entries with
  | nil => rfl
  | cons e entries ih =>
    obtain ⟨k, v⟩ := e
    rw [mapFnEntries, ih]
    rfl

mutual

/-- Translating twice. -/
theorem Value.mapFn_mapFn (g : F → G) (h : G → H) :
    ∀ v : Value F, (v.mapFn g).mapFn h = v.mapFn (h ∘ g)
  | .unit | .atom _ | .none | .lambda _ | .contract _ _ => rfl
  | .pair a b => congrArg₂ Value.pair (Value.mapFn_mapFn g h a) (Value.mapFn_mapFn g h b)
  | .left a => congrArg Value.left (Value.mapFn_mapFn g h a)
  | .right b => congrArg Value.right (Value.mapFn_mapFn g h b)
  | .some a => congrArg Value.some (Value.mapFn_mapFn g h a)
  | .list vs => congrArg Value.list (mapFnList_mapFnList g h vs)
  | .map entries => congrArg Value.map (mapFnEntries_mapFnEntries g h entries)
  | .operation d m p => congrArg (Value.operation d m) (Value.mapFn_mapFn g h p)

theorem mapFnList_mapFnList (g : F → G) (h : G → H) :
    ∀ vs : List (Value F), mapFnList h (mapFnList g vs) = mapFnList (h ∘ g) vs
  | [] => rfl
  | v :: vs => congrArg₂ List.cons (Value.mapFn_mapFn g h v) (mapFnList_mapFnList g h vs)

theorem mapFnEntries_mapFnEntries (g : F → G) (h : G → H) :
    ∀ entries : List (Atom × Value F),
      mapFnEntries h (mapFnEntries g entries) = mapFnEntries (h ∘ g) entries
  | [] => rfl
  | (k, v) :: entries =>
    congrArg₂ List.cons (congrArg (Prod.mk k) (Value.mapFn_mapFn g h v))
      (mapFnEntries_mapFnEntries g h entries)

end

/-- Translate the functions in the reason of a stop. -/
def Stop.mapFn (g : F → G) : Stop F → Stop G
  | .timeout => .timeout
  | .fault f => .fault f
  | .failed v => .failed (v.mapFn g)

/-- Translate the functions in an outcome, and apply `f` to its result. -/
abbrev Outcome.mapFn {α β : Type} (g : F → G) (f : α → β) : Outcome F α → Outcome G β :=
  Fuel.bimap (Stop.mapFn g) f

section Outcome

variable {α β γ δ : Type} (g : F → G)

@[simp] theorem Outcome.mapFn_ok (f : α → β) (a : α) :
    Outcome.mapFn g f (.ok a) = .ok (f a) := rfl

@[simp] theorem Outcome.mapFn_pure (f : α → β) (a : α) :
    Outcome.mapFn g f (pure a) = pure (f a) := rfl

@[simp] theorem Outcome.mapFn_error (f : α → β) (s : Stop F) :
    Outcome.mapFn g f (.error s) = .error (s.mapFn g) := rfl

/-- Faults carry no functions. -/
theorem Outcome.mapFn_ofFault (f : α → β) (r : Except Fault α) :
    Outcome.mapFn g f (ofFault r) = ofFault (r.map f) := by
  cases r <;> rfl

end Outcome

end MapFn

/-! ### Operations -/

namespace Value

variable {F G : Type}

/-- Lift an operation on one atom. -/
def atom1 (op : Atom → Except Fault Atom) : Value F → Outcome F (Value F)
  | .atom a => ofFault ((op a).map .atom)
  | _ => stuck

/-- Lift an operation on two atoms. -/
def atom2 (op : Atom → Atom → Except Fault Atom) : Value F → Value F → Outcome F (Value F)
  | .atom a, .atom b => ofFault ((op a b).map .atom)
  | _, _ => stuck

/-- `EDIV`, with the quotient and the remainder in an option. -/
def ediv : Value F → Value F → Outcome F (Value F)
  | .atom a, .atom b =>
    ofFault ((Atom.ediv a b).map fun
      | .some (q, r) => .some (.pair (.atom q) (.atom r))
      | .none => .none)
  | _, _ => stuck

def car : Value F → Outcome F (Value F)
  | .pair a _ => .ok a
  | _ => stuck

def cdr : Value F → Outcome F (Value F)
  | .pair _ b => .ok b
  | _ => stuck

/-- `CONS`. -/
def cons : Value F → Value F → Outcome F (Value F)
  | v, .list vs => .ok (.list (v :: vs))
  | _, _ => stuck

/-- An option of the host as an option of the language. -/
def ofOption : Option (Value F) → Value F
  | .some v => .some v
  | .none => .none

/-- `GET`: the value at a key. -/
def get : Value F → Value F → Outcome F (Value F)
  | .atom k, .map m => .ok (ofOption (SortedMap.lookup k m))
  | _, _ => stuck

/-- `UPDATE`: bind or remove a key. -/
def update : Value F → Value F → Value F → Outcome F (Value F)
  | .atom k, .some v, .map m => .ok (.map (SortedMap.insert k v m))
  | .atom k, .none, .map m => .ok (.map (SortedMap.erase k m))
  | _, _, _ => stuck

/-- `SIZE`. -/
def size : Value F → Outcome F (Value F)
  | .list vs => .ok (.nat vs.length)
  | .map m => .ok (.nat m.length)
  | v => v.atom1 Atom.size

/-- `TRANSFER_TOKENS`. -/
def transfer : Value F → Value F → Value F → Outcome F (Value F)
  | p, .mutez m, .contract _ a => .ok (.operation a m p)
  | _, _, _ => stuck

section MapFn

variable (g : F → G)

/-- The operations on values do not look into functions, so they commute with a change of their
representation. -/
theorem mapFn_atom1 (op : Atom → Except Fault Atom) (v : Value F) :
    (v.atom1 op).mapFn g (mapFn g) = (v.mapFn g).atom1 op := by
  cases v <;> try rfl
  rename_i a
  simp only [atom1, mapFn, Outcome.mapFn_ofFault]
  cases op a <;> rfl

theorem mapFn_atom2 (op : Atom → Atom → Except Fault Atom) (v w : Value F) :
    (v.atom2 op w).mapFn g (mapFn g) = (v.mapFn g).atom2 op (w.mapFn g) := by
  cases v <;> try rfl
  cases w <;> try rfl
  rename_i a b
  simp only [atom2, mapFn, Outcome.mapFn_ofFault]
  cases op a b <;> rfl

theorem mapFn_ediv (v w : Value F) :
    (v.ediv w).mapFn g (mapFn g) = (v.mapFn g).ediv (w.mapFn g) := by
  cases v <;> try rfl
  cases w <;> try rfl
  rename_i a b
  simp only [ediv, mapFn, Outcome.mapFn_ofFault]
  rcases Atom.ediv a b with f | _ | ⟨q, r⟩ <;> rfl

theorem mapFn_car (v : Value F) : v.car.mapFn g (mapFn g) = (v.mapFn g).car := by
  cases v <;> rfl

theorem mapFn_cdr (v : Value F) : v.cdr.mapFn g (mapFn g) = (v.mapFn g).cdr := by
  cases v <;> rfl

theorem mapFn_cons (v w : Value F) :
    (v.cons w).mapFn g (mapFn g) = (v.mapFn g).cons (w.mapFn g) := by
  cases w <;> rfl

theorem mapFn_ofOption (o : Option (Value F)) :
    (ofOption o).mapFn g = ofOption (o.map (mapFn g)) := by
  cases o <;> rfl

theorem mapFn_get (v w : Value F) :
    (v.get w).mapFn g (mapFn g) = (v.mapFn g).get (w.mapFn g) := by
  cases v <;> try rfl
  cases w <;> try rfl
  simp [get, mapFn, mapFn_ofOption, SortedMap.lookup_mapVal]

theorem mapFn_update (u v w : Value F) :
    (u.update v w).mapFn g (mapFn g) = (u.mapFn g).update (v.mapFn g) (w.mapFn g) := by
  cases u <;> try rfl
  cases w <;> (try (cases v <;> rfl))
  cases v <;> try rfl
  · simp [update, mapFn, SortedMap.insert_mapVal]
  · simp [update, mapFn, SortedMap.erase_mapVal]

theorem mapFn_size (v : Value F) : v.size.mapFn g (mapFn g) = (v.mapFn g).size := by
  cases v with
  | list vs => simp [size, mapFn]
  | map m => simp [size, mapFn, SortedMap.mapVal]
  | atom a => exact mapFn_atom1 g Atom.size (.atom a)
  | _ => rfl

theorem mapFn_transfer (u v w : Value F) :
    (u.transfer v w).mapFn g (mapFn g) =
      (u.mapFn g).transfer (v.mapFn g) (w.mapFn g) := by
  cases v <;> try rfl
  rename_i a
  cases a <;> try rfl
  cases w <;> rfl

end MapFn

end Value

end Michelson
