import Ligo.Michelson.Interpreter

/-!
# The Michelson type checker

`typeInstr` is the protocol's `parse_instr`: it checks an instruction against the
types of the stack and answers the types it leaves, or that the instruction never
returns (`Judgement.failed`). An instruction that never returns may only stand at
the end of a sequence. `parseMichelson` is the check the compiler makes of every
piece of code it generates.

A type that an instruction makes has to be within the limit on the size of types
(`grow`). In a context without a limit, what is left are the typing rules. The gas of
the check is left out.
-/

namespace Michelson

/-- The types of a stack. -/
abbrev StackTy := List Ty

/-- What the check of an instruction finds. -/
inductive Judgement where
  | typed (aft : StackTy)
  | failed
  deriving DecidableEq, Repr

/-! ### Types within the limit -/

/-- Push a type. -/
def ret (t : Ty) (s : StackTy) : Option Judgement := some (.typed (t :: s))

/-- The type is not too large. -/
def Context.admits (ctx : Context) (t : Ty) : Bool :=
  ctx.maximumTypeSize.all fun n : ℕ+ => t.size ≤ n

/-- The `return` of `parse_instr` for an instruction that makes a type
(`number_of_generated_growing_types`): it is `Type_too_large` or pushed. -/
def grow (ctx : Context) (t : Ty) (s : StackTy) : Option Judgement :=
  if ctx.admits t then ret t s else none

theorem grow_of_admits {ctx : Context} {t : Ty} {s : StackTy} (h : ctx.admits t = true) :
    grow ctx t s = ret t s := if_pos h

theorem grow_eq_some {ctx : Context} {t : Ty} {s : StackTy} {j : Judgement} :
    grow ctx t s = some j ↔ ctx.admits t = true ∧ ret t s = some j := by
  unfold grow
  split <;> simp [*]

/-- A type that is no larger than one that the limit admits. -/
theorem Context.admits_of_size_le {ctx : Context} {t u : Ty} (h : ctx.admits u = true)
    (hsize : t.size ≤ u.size) : ctx.admits t = true := by
  simp only [Context.admits, Option.all_eq_true, decide_eq_true_eq] at h ⊢
  exact fun n hn => hsize.trans (h n hn)

theorem Context.admits_fst {ctx : Context} {t u : Ty} (h : ctx.admits (.pair t u) = true) :
    ctx.admits t = true :=
  admits_of_size_le h (by simp only [Ty.size]; omega)

theorem Context.admits_snd {ctx : Context} {t u : Ty} (h : ctx.admits (.pair t u) = true) :
    ctx.admits u = true :=
  admits_of_size_le h (by simp only [Ty.size]; omega)

/-- Every limit admits the types of one node. -/
theorem Context.admits_of_size_eq_one {ctx : Context} {t : Ty} (hsize : t.size = 1) :
    ctx.admits t = true := by
  simp only [Context.admits, Option.all_eq_true, decide_eq_true_eq]
  exact fun n _ => hsize ▸ n.pos

theorem Context.admits_unlimited (ctx : Context) (t : Ty) : ctx.unlimited.admits t = true := rfl

/-! ### Operators on comparable types -/

/-- `ADD`. -/
def ComparableTy.add : ComparableTy → ComparableTy → Option ComparableTy
  | .int, .int | .int, .nat | .nat, .int => some .int
  | .nat, .nat => some .nat
  | .mutez, .mutez => some .mutez
  | _, _ => none

/-- `SUB`. -/
def ComparableTy.sub : ComparableTy → ComparableTy → Option ComparableTy
  | .int, .int | .int, .nat | .nat, .int | .nat, .nat => some .int
  | .mutez, .mutez => some .mutez
  | _, _ => none

/-- `MUL`. -/
def ComparableTy.mul : ComparableTy → ComparableTy → Option ComparableTy
  | .int, .int | .int, .nat | .nat, .int => some .int
  | .nat, .nat => some .nat
  | .mutez, .nat | .nat, .mutez => some .mutez
  | _, _ => none

/-- `EDIV`: the types of the quotient and the remainder. -/
def ComparableTy.ediv : ComparableTy → ComparableTy → Option (ComparableTy × ComparableTy)
  | .int, .int | .int, .nat | .nat, .int => some (.int, .nat)
  | .nat, .nat => some (.nat, .nat)
  | .mutez, .nat => some (.mutez, .mutez)
  | .mutez, .mutez => some (.nat, .mutez)
  | _, _ => none

/-- `NEG`. -/
def ComparableTy.neg : ComparableTy → Option ComparableTy
  | .int | .nat => some .int
  | _ => none

/-- `OR`. -/
def ComparableTy.or : ComparableTy → ComparableTy → Option ComparableTy
  | .bool, .bool => some .bool
  | .nat, .nat => some .nat
  | _, _ => none

/-- `AND`. -/
def ComparableTy.and : ComparableTy → ComparableTy → Option ComparableTy
  | .bool, .bool => some .bool
  | .nat, .nat | .int, .nat => some .nat
  | _, _ => none

/-- The type an operation on two comparable types leaves. -/
def typeBinop (op : ComparableTy → ComparableTy → Option ComparableTy) :
    StackTy → Option Judgement
  | .comparable a :: .comparable b :: s => (op a b).bind fun c => ret (.comparable c) s
  | _ => none

/-! ### Instructions -/

/-- The instructions without arguments. -/
def typeSimple (ctx : Context) : Prim → StackTy → Option Judgement
  | .iDup, t :: s => some (.typed (t :: t :: s))
  | .iDrop, _ :: s => some (.typed s)
  | .iSwap, t :: u :: s => some (.typed (u :: t :: s))
  | .iUnit, s => grow ctx .unit s
  | .iSome, t :: s => grow ctx (.option t) s
  | .iPair, t :: u :: s => grow ctx (.pair t u) s
  | .iCar, .pair t _ :: s => ret t s
  | .iCdr, .pair _ u :: s => ret u s
  | .iCons, t :: .list u :: s => if t = u then grow ctx (.list u) s else none
  | .iSize, .list _ :: s | .iSize, .map _ _ :: s | .iSize, .comparable .string :: s
  | .iSize, .comparable .bytes :: s => ret (.comparable .nat) s
  | .iGet, k :: .map k' t :: s => if k = .comparable k' then ret (.option t) s else none
  | .iUpdate, k :: .option t :: .map k' t' :: s =>
    if k = .comparable k' ∧ t = t' then ret (.map k' t') s else none
  | .iExec, t :: .lambda a b :: s => if t = a then ret b s else none
  | .iFailwith, _ :: _ => some .failed
  | .iAdd, s => typeBinop ComparableTy.add s
  | .iSub, s => typeBinop ComparableTy.sub s
  | .iMul, s => typeBinop ComparableTy.mul s
  | .iEdiv, .comparable a :: .comparable b :: s =>
    (ComparableTy.ediv a b).bind fun c =>
      ret (.option (.pair (.comparable c.1) (.comparable c.2))) s
  | .iNeg, .comparable a :: s => a.neg.bind fun c => ret (.comparable c) s
  | .iAbs, .comparable .int :: s => ret (.comparable .nat) s
  | .iInt, .comparable .nat :: s => ret (.comparable .int) s
  | .iOr, s => typeBinop ComparableTy.or s
  | .iAnd, s => typeBinop ComparableTy.and s
  | .iCompare, .comparable a :: .comparable b :: s =>
    if a = b then grow ctx (.comparable .int) s else none
  | .iEq, .comparable .int :: s | .iNeq, .comparable .int :: s
  | .iLt, .comparable .int :: s | .iLe, .comparable .int :: s
  | .iGt, .comparable .int :: s | .iGe, .comparable .int :: s => ret (.comparable .bool) s
  | .iTransferTokens, t :: .comparable .mutez :: .contract u :: s =>
    if t = u then grow ctx .operation s else none
  | .iAmount, s => ret (.comparable .mutez) s
  | .iSource, s => ret (.comparable .address) s
  | .iSender, s => ret (.comparable .address) s
  | _, _ => none

/-- `merge_branches`: two branches that return leave the same stack. -/
def merge : Judgement → Judgement → Option Judgement
  | .typed s, .typed s' => if s = s' then some (.typed s) else none
  | .typed s, .failed => some (.typed s)
  | .failed, .typed s => some (.typed s)
  | .failed, .failed => some .failed

/-- `parse_returning`: the body of a function leaves its result alone, or never
returns. -/
def returns (t : Ty) : Option Judgement → Bool
  | some (.typed s) => s == [t]
  | some .failed => true
  | none => false

variable (ctx : Context)

mutual

/-- Check an instruction. -/
def typeInstr : Node → StackTy → Option Judgement
  | .seq code, s => typeSeq code s
  | .prim .iPush [t, d] _, s => do
    let t ← parseTy false t
    if (readData ctx t d).isSome && typeBodies t d then grow ctx t s else none
  | .prim .iNone [t] _, s => do grow ctx (.option (← parseTy true t)) s
  | .prim .iNil [t] _, s => do grow ctx (.list (← parseTy true t)) s
  | .prim .iEmptyMap [k, t] _, s => do
    grow ctx (.map (← parseComparableTy k) (← parseTy true t)) s
  | .prim .iLeft [u] _, t :: s => do ret (.or t (← parseTy true u)) s
  | .prim .iRight [t] _, u :: s => do ret (.or (← parseTy true t) u) s
  | .prim .iContract [t] _, .comparable .address :: s => do
    grow ctx (.option (.contract (← parseTy false t))) s
  | .prim .iDip [.seq code] _, t :: s =>
    match typeSeq code s with
    | some (.typed s') => some (.typed (t :: s'))
    | _ => none
  | .prim .iIf [.seq a, .seq b] _, .comparable .bool :: s => do
    merge (← typeSeq a s) (← typeSeq b s)
  | .prim .iIfNone [.seq a, .seq b] _, .option t :: s => do
    merge (← typeSeq a s) (← typeSeq b (t :: s))
  | .prim .iIfLeft [.seq a, .seq b] _, .or t u :: s => do
    merge (← typeSeq a (t :: s)) (← typeSeq b (u :: s))
  | .prim .iLoop [.seq body] _, .comparable .bool :: s =>
    match typeSeq body s with
    | some (.typed s') => if s' = .comparable .bool :: s then some (.typed s) else none
    | some .failed => some (.typed s)
    | none => none
  | .prim p [] _, s => typeSimple ctx p s
  | _, _ => none

/-- Check a sequence: only its last instruction may never return. -/
def typeSeq : List Node → StackTy → Option Judgement
  | [], s => some (.typed s)
  | [i], s => typeInstr i s
  | i :: is, s =>
    match typeInstr i s with
    | some (.typed s') => typeSeq is s'
    | _ => none

/-- Check the functions in a datum. -/
def typeBodies : Ty → Node → Bool
  | .pair s t, .prim .dPair [a, b] _ => typeBodies s a && typeBodies t b
  | .or s _, .prim .dLeft [a] _ => typeBodies s a
  | .or _ t, .prim .dRight [b] _ => typeBodies t b
  | .option t, .prim .dSome [a] _ => typeBodies t a
  | .lambda s t, .seq code => returns t (typeSeq code [s])
  | .list t, .seq items => typeBodiesAll t items
  | .map _ t, .seq items => typeBodiesEntries t items
  | _, _ => true

/-- `typeBodies` on the elements of a list. -/
def typeBodiesAll : Ty → List Node → Bool
  | _, [] => true
  | t, n :: ns => typeBodies t n && typeBodiesAll t ns

/-- `typeBodies` on the values of a map. -/
def typeBodiesEntries : Ty → List Node → Bool
  | _, [] => true
  | t, .prim .dElt [_, b] _ :: ns => typeBodies t b && typeBodiesEntries t ns
  | t, _ :: ns => typeBodiesEntries t ns

end

variable {ctx} in
/-- There are no functions in a key. -/
theorem typeBodies_comparable (c : ComparableTy) (n : Node) :
    typeBodies ctx (.comparable c) n = true := by
  cases n <;> rw [typeBodies] <;> exact nofun

/-- `parse_michelson`: the code takes the one stack to the other. -/
def parseMichelson (code : Node) (bef aft : StackTy) : Bool :=
  match typeInstr ctx (strip code) bef with
  | some (.typed s) => s == aft
  | _ => false

end Michelson
