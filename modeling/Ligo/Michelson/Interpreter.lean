import Ligo.Michelson.Value
import Ligo.Library.Fuel
import Mathlib.Data.PNat.Defs

/-!
# The Michelson interpreter

The instructions run on a stack of values (`step`, `steps`). The code of a called
function runs one level deeper: `step` takes the meaning of calls as an argument,
and `run d` ties the knot for `d` nested levels, a loop being allowed as many
rounds as there are levels left. Code ends with a stack when some depth suffices
(`Ends`); since a larger depth never changes a result (`run_grows`), the stack
it ends with is unique.

The protocol interprets typed instructions. Here the types are gone and an
instruction that does not fit its stack is stuck; code that the checker accepts
never gets there. Gas, the logs and the nonces of operations are left out.
-/

namespace Michelson

/-- What the code can ask the chain. -/
structure Context where
  /-- The account that signed the transaction, read by `SOURCE`. -/
  payer : Address
  /-- The account that called this contract, read by `SENDER`. -/
  source : Address
  amount : Mutez
  /-- The parameter type of an existing contract; `unit` for an account without
  a script. -/
  contractTy : Address → Option Ty
  /-- `Contract.of_b58check`. -/
  ofB58check : String → Option Address
  /-- `Contract.to_b58check`. -/
  toB58check : Address → String
  /-- Reading a handle does not forget how it is written. -/
  ofB58check_toB58check : ∀ a, ofB58check (toB58check a) = some a
  /-- The binary form of a contract handle. -/
  ofBytes : List UInt8 → Option Address
  /-- The protocol constant `michelson_maximum_type_size`; where there is none, the types
  that code makes may have any size. -/
  maximumTypeSize : Option ℕ+

/-- A handle as one character for its kind and one for each byte. -/
def Address.toText (a : Address) : String :=
  String.ofList ((if a.originated then 'K' else 't') :: a.hash.map fun b => Char.ofNat b.toNat)

def Address.ofText (s : String) : Option Address :=
  match s.toList with
  | 'K' :: cs => some { originated := true, hash := cs.map fun c => UInt8.ofNat c.toNat }
  | 't' :: cs => some { originated := false, hash := cs.map fun c => UInt8.ofNat c.toNat }
  | _ => none

theorem Address.ofText_toText (a : Address) : Address.ofText a.toText = some a := by
  have hbytes : (a.hash.map fun b => Char.ofNat b.toNat).map (fun c => UInt8.ofNat c.toNat) =
      a.hash := by
    rw [List.map_map, List.map_congr_left (g := id), List.map_id]
    intro b _
    have hvalid : b.toNat.isValidChar := Or.inl (by have := b.toNat_lt; omega)
    have hchar : Char.ofNat b.toNat = Char.ofNatAux b.toNat hvalid := dif_pos hvalid
    rw [Function.comp_apply, hchar]
    exact UInt8.ofNat_toNat
  obtain ⟨_ | _, hash⟩ := a
  · simp only [Address.ofText, Address.toText, String.toList_ofList]
    simp [hbytes]
  · simp only [Address.ofText, Address.toText, String.toList_ofList]
    simp [hbytes]

/-- A chain without contracts and with the default constants, where the caller and the
signer are one account. -/
def Context.empty : Context where
  payer := { originated := false, hash := [] }
  source := { originated := false, hash := [] }
  amount := Mutez.zero
  contractTy _ := none
  ofB58check := Address.ofText
  toB58check := Address.toText
  ofB58check_toB58check := Address.ofText_toText
  ofBytes _ := none
  maximumTypeSize := some ⟨1000, Nat.succ_pos 999⟩

/-- Without the limit on the size of types. -/
def Context.unlimited (ctx : Context) : Context := { ctx with maximumTypeSize := none }

variable (ctx : Context)

/-! ### Data -/

/-- Strings on the chain are printable ASCII and newlines. -/
def printableAscii (s : String) : Bool :=
  s.toList.all fun c => c = '\n' || (' ' ≤ c && c ≤ '~')

/-- A contract handle, when a contract with that parameter exists there. -/
def readContract (t : Ty) (a : Address) : Option (Value Node) :=
  if ctx.contractTy a = some t then some (.contract t a) else none

mutual

/-- Read a datum at a type (`parse_data`). The body of a function is taken as it
stands: the checker looks at it separately. -/
def readData : Ty → Node → Option (Value Node)
  | .unit, .prim .dUnit [] _ => some .unit
  | .comparable .bool, .prim .dTrue [] _ => some (.bool true)
  | .comparable .bool, .prim .dFalse [] _ => some (.bool false)
  | .comparable .string, .string s => if printableAscii s then some (.string s) else none
  | .comparable .bytes, .bytes b => some (.atom (.bytes b))
  | .comparable .int, .int z => some (.int z)
  | .comparable .nat, .int z => if 0 ≤ z then some (.nat z.toNat) else none
  | .comparable .mutez, .int z =>
    if h : 0 ≤ z ∧ z.toNat < 2 ^ 63 then some (.mutez ⟨z.toNat, h.2⟩) else none
  | .comparable .address, .string s => (ctx.ofB58check s).map .address
  | .comparable .address, .bytes b => (ctx.ofBytes b).map .address
  | .contract t, .string s => (ctx.ofB58check s).bind (readContract ctx t)
  | .contract t, .bytes b => (ctx.ofBytes b).bind (readContract ctx t)
  | .pair s t, .prim .dPair [a, b] _ => do return .pair (← readData s a) (← readData t b)
  | .or s _, .prim .dLeft [a] _ => do return .left (← readData s a)
  | .or _ t, .prim .dRight [b] _ => do return .right (← readData t b)
  | .lambda _ _, .seq code => some (.lambda (.seq code))
  | .option t, .prim .dSome [a] _ => do return .some (← readData t a)
  | .option _, .prim .dNone [] _ => some .none
  | .list t, .seq items => do return .list (← readItems t items)
  | .map k t, .seq items => do
    let entries ← readEntries k t items
    if SortedMap.Sorted entries then some (.map entries) else none
  | _, _ => none

/-- `readData` on the elements of a list. -/
def readItems : Ty → List Node → Option (List (Value Node))
  | _, [] => some []
  | t, n :: ns => do return (← readData t n) :: (← readItems t ns)

/-- `readData` on the entries of a map; the keys have to ascend. -/
def readEntries : ComparableTy → Ty → List Node → Option (List (Atom × Value Node))
  | _, _, [] => some []
  | k, t, .prim .dElt [a, b] _ :: ns =>
    match readData (.comparable k) a with
    | some (.atom a) => do return (a, ← readData t b) :: (← readEntries k t ns)
    | _ => none
  | _, _, _ => none

end

/-! ### Instructions -/

/-- A stack of values. -/
abbrev Stack := List (Value Node)

/-- Push the result of an operation. -/
def push (r : Outcome Node (Value Node)) (s : Stack) : Outcome Node Stack := do
  return (← r) :: s

/-- `CONTRACT`: the handle, if a contract with that parameter exists there. -/
def Value.toContract {F : Type} (t : Ty) : Value F → Outcome F (Value F)
  | .address a =>
    .ok (if ctx.contractTy a = Option.some t then .some (.contract t a) else .none)
  | _ => stuck

/-- The instructions without arguments, apart from `EXEC`. -/
def simple : Prim → Stack → Outcome Node Stack
  | .iNop, s => .ok s
  | .iDup, v :: s => .ok (v :: v :: s)
  | .iDrop, _ :: s => .ok s
  | .iSwap, v :: w :: s => .ok (w :: v :: s)
  | .iUnit, s => .ok (.unit :: s)
  | .iSome, v :: s => .ok (.some v :: s)
  | .iPair, v :: w :: s => .ok (.pair v w :: s)
  | .iCar, v :: s => push v.car s
  | .iCdr, v :: s => push v.cdr s
  | .iCons, v :: w :: s => push (v.cons w) s
  | .iSize, v :: s => push v.size s
  | .iGet, k :: m :: s => push (k.get m) s
  | .iUpdate, k :: v :: m :: s => push (k.update v m) s
  | .iFailwith, v :: _ => .error (.failed v)
  | .iAdd, v :: w :: s => push (v.atom2 Atom.add w) s
  | .iSub, v :: w :: s => push (v.atom2 Atom.sub w) s
  | .iMul, v :: w :: s => push (v.atom2 Atom.mul w) s
  | .iEdiv, v :: w :: s => push (v.ediv w) s
  | .iNeg, v :: s => push (v.atom1 Atom.neg) s
  | .iAbs, v :: s => push (v.atom1 Atom.abs) s
  | .iInt, v :: s => push (v.atom1 Atom.toInt) s
  | .iOr, v :: w :: s => push (v.atom2 Atom.or w) s
  | .iAnd, v :: w :: s => push (v.atom2 Atom.and w) s
  | .iCompare, v :: w :: s => push (v.atom2 Atom.compare w) s
  | .iEq, v :: s => push (v.atom1 (Atom.test (· == 0))) s
  | .iNeq, v :: s => push (v.atom1 (Atom.test (· != 0))) s
  | .iLt, v :: s => push (v.atom1 (Atom.test (decide <| · < 0))) s
  | .iLe, v :: s => push (v.atom1 (Atom.test (decide <| · ≤ 0))) s
  | .iGt, v :: s => push (v.atom1 (Atom.test (decide <| · > 0))) s
  | .iGe, v :: s => push (v.atom1 (Atom.test (decide <| · ≥ 0))) s
  | .iTransferTokens, p :: m :: c :: s => push (p.transfer m c) s
  | .iAmount, s => .ok (.mutez ctx.amount :: s)
  | .iSource, s => .ok (.address ctx.payer :: s)
  | .iSender, s => .ok (.address ctx.source :: s)
  | _, _ => stuck

/-- The head of a stack as the condition of a loop. -/
def popBool : Stack → Outcome Node (Bool × Stack)
  | .bool b :: s => .ok (b, s)
  | _ => stuck

mutual

/-- Run one instruction. `exec` is the meaning of a call, `rounds` bounds the
rounds of a loop. -/
def step (exec : Node → Value Node → Outcome Node (Value Node)) (rounds : ℕ) :
    Node → Stack → Outcome Node Stack
  | .seq code, s => steps exec rounds code s
  | .prim .iPush [t, d] _, s =>
    match (readTy t).bind fun t => readData ctx t d with
    | some v => .ok (v :: s)
    | none => stuck
  | .prim .iNone [_] _, s => .ok (.none :: s)
  | .prim .iNil [_] _, s => .ok (.list [] :: s)
  | .prim .iEmptyMap [_, _] _, s => .ok (.map [] :: s)
  | .prim .iLeft [_] _, v :: s => .ok (.left v :: s)
  | .prim .iRight [_] _, v :: s => .ok (.right v :: s)
  | .prim .iContract [t] _, v :: s =>
    match readTy t with
    | some t => push (v.toContract ctx t) s
    | none => stuck
  | .prim .iDip [.seq code] _, v :: s => do return v :: (← steps exec rounds code s)
  | .prim .iIf [.seq a, .seq b] _, .bool t :: s =>
    if t then steps exec rounds a s else steps exec rounds b s
  | .prim .iIfNone [.seq a, .seq b] _, v :: s =>
    match v with
    | .none => steps exec rounds a s
    | .some w => steps exec rounds b (w :: s)
    | _ => stuck
  | .prim .iIfLeft [.seq a, .seq b] _, v :: s =>
    match v with
    | .left w => steps exec rounds a (w :: s)
    | .right w => steps exec rounds b (w :: s)
    | _ => stuck
  | .prim .iLoop [.seq body] _, s =>
    Fuel.iterate popBool (steps exec rounds body) .timeout rounds s
  | .prim .iExec [] _, v :: .lambda f :: s => push (exec f v) s
  | .prim p [] _, s => simple ctx p s
  | _, _ => stuck

/-- Run a sequence of instructions. -/
def steps (exec : Node → Value Node → Outcome Node (Value Node)) (rounds : ℕ) :
    List Node → Stack → Outcome Node Stack
  | [], s => .ok s
  | n :: ns, s => do steps exec rounds ns (← step exec rounds n s)

end

/-- The only value of a stack. -/
def singleton : Stack → Outcome Node (Value Node)
  | [v] => .ok v
  | _ => stuck

/-- The meaning of a call when `d` levels are left: the code of the function runs
on a stack that holds the argument alone. -/
def call : ℕ → Node → Value Node → Outcome Node (Value Node)
  | 0, _, _ => .error .timeout
  | d + 1, code, v => do singleton (← step ctx (call d) d code [v])

/-- Run code at depth `d`. -/
def run (d : ℕ) (code : Node) (s : Stack) : Outcome Node Stack :=
  step ctx (call ctx d) d code s

/-- Running `code` on `s` ends with the stack `s'`. -/
def Ends (code : Node) (s s' : Stack) : Prop :=
  ∃ d, run ctx d code s = .ok s'

/-! ### More levels -/

section Extends

open Fuel

variable {exec exec' : Node → Value Node → Outcome Node (Value Node)}
  (hexec : ∀ f v, Extends .timeout (exec f v) (exec' f v)) {n n' : ℕ} (hn : n ≤ n')

theorem push_extends {r r' : Outcome Node (Value Node)} (h : Extends .timeout r r')
    (s : Stack) : Extends .timeout (push r s) (push r' s) :=
  h.bind fun _ => .refl _ _

theorem steps_extends_of {code : List Node}
    (h : ∀ i ∈ code, ∀ s, Extends .timeout (step ctx exec n i s) (step ctx exec' n' i s))
    (s : Stack) : Extends .timeout (steps ctx exec n code s) (steps ctx exec' n' code s) := by
  induction code generalizing s with
  | nil => exact .refl _ _
  | cons i code ih =>
    exact (h i (by simp) s).bind (ih fun j hj => h j (List.mem_cons_of_mem _ hj))

include hexec hn in
/-- A call that is defined more often, and more rounds, extend an instruction. -/
theorem step_extends (i : Node) : ∀ s,
    Extends .timeout (step ctx exec n i s) (step ctx exec' n' i s) := by
  induction i using Node.ind with
  | int | string | bytes =>
    intro s
    unfold step
    exact .refl _ _
  | seq code ih =>
    intro s
    unfold step
    exact steps_extends_of ctx ih s
  | prim p children annots ih =>
    -- the code that an instruction runs is a sequence among its arguments
    have hcode : ∀ code, .seq code ∈ children → ∀ s,
        Extends .timeout (steps ctx exec n code s) (steps ctx exec' n' code s) := by
      intro code hmem s
      have h := ih _ hmem s
      unfold step at h
      exact h
    intro s
    unfold step
    split <;> try exact .refl _ _
    · rename_i heq
      cases heq
    · rename_i heq
      cases heq
      exact (hcode _ (by simp) _).bind fun _ => .refl _ _
    · rename_i heq
      cases heq
      split
      · exact hcode _ (by simp) _
      · exact hcode _ (by simp) _
    · rename_i heq
      cases heq
      split
      · exact hcode _ (by simp) _
      · exact hcode _ (by simp) _
      · exact .refl _ _
    · rename_i heq
      cases heq
      split
      · exact hcode _ (by simp) _
      · exact hcode _ (by simp) _
      · exact .refl _ _
    · rename_i heq
      cases heq
      exact iterate_extends (fun _ => .refl _ _) (hcode _ (by simp)) hn _
    · exact push_extends (hexec _ _) _

end Extends

theorem call_grows (code : Node) (v : Value Node) :
    Fuel.Grows .timeout fun d => call ctx d code v := by
  refine Fuel.grows_of_succ fun d => ?_
  induction d generalizing code v with
  | zero => exact Fuel.Extends.out _ _
  | succ d ih =>
    exact (step_extends ctx (fun f v => ih f v) (Nat.le_succ d) code [v]).bind
      fun _ => .refl _ _

/-- A larger depth never changes a result. -/
theorem run_grows (code : Node) (s : Stack) :
    Fuel.Grows .timeout fun d => run ctx d code s :=
  fun d d' h => step_extends ctx (fun f v => call_grows ctx f v d d' h) h code s

/-- Code ends with at most one stack. -/
theorem Ends.unique {code : Node} {s s₁ s₂ : Stack} (h₁ : Ends ctx code s s₁)
    (h₂ : Ends ctx code s s₂) : s₁ = s₂ := by
  obtain ⟨d₁, h₁⟩ := h₁
  obtain ⟨d₂, h₂⟩ := h₂
  exact (run_grows ctx code s).unique h₁ h₂

end Michelson
