import Mathlib.Data.List.Basic

/-!
# Micheline code

A Michelson program, a Michelson type and a Michelson datum are all trees of one
shape, `Node`: an integer, a string, a byte sequence, a primitive applied to
children, or a sequence. The code generators build their output with the helpers
of this file (`seq`, `dip`, `iUnpair`, …); source locations are left out.

Only the primitives that some generator emits are listed in `Prim`. The comment
instruction `NOP` is no instruction of the protocol: `strip` turns it into an
empty sequence before the checker reads the code, and the interpreter runs it as
one.
-/

namespace Michelson

/-- The primitives: types (`t…`), data constructors (`d…`), instructions (`i…`)
and the three sections of a contract (`k…`). -/
inductive Prim where
  | tUnit | tBool | tInt | tNat | tMutez | tString | tBytes | tAddress | tOperation
  | tPair | tOr | tLambda | tMap | tList | tOption | tContract
  | dUnit | dTrue | dFalse | dPair | dLeft | dRight | dSome | dNone | dElt
  | iNop | iDup | iDrop | iSwap | iDip | iPush | iUnit
  | iPair | iCar | iCdr | iLeft | iRight | iIfLeft
  | iSome | iNone | iIfNone | iNil | iCons | iSize
  | iEmptyMap | iGet | iUpdate
  | iIf | iLoop | iExec | iFailwith
  | iAdd | iSub | iMul | iEdiv | iNeg | iAbs | iInt | iOr | iAnd
  | iCompare | iEq | iNeq | iLt | iLe | iGt | iGe
  | iContract | iTransferTokens | iAmount | iSource | iSender
  | kParameter | kStorage | kCode
  deriving DecidableEq, Repr

/-- A Micheline tree. -/
inductive Node where
  | int (z : Int)
  | string (s : String)
  | bytes (b : List UInt8)
  | prim (p : Prim) (children : List Node) (annots : List String)
  | seq (items : List Node)
  deriving Repr

/-- Induction on a tree, with the hypothesis for each child. -/
@[elab_as_elim]
theorem Node.ind {P : Node → Prop} (int : ∀ z, P (.int z)) (string : ∀ s, P (.string s))
    (bytes : ∀ b, P (.bytes b))
    (prim : ∀ p children annots, (∀ n ∈ children, P n) → P (.prim p children annots))
    (seq : ∀ items, (∀ n ∈ items, P n) → P (.seq items)) (n : Node) : P n :=
  @Node.rec P (fun ns => ∀ n ∈ ns, P n) int string bytes prim seq (by simp)
    (fun _ _ h hs => List.forall_mem_cons.2 ⟨h, hs⟩) n

/-- A primitive without annotations. -/
def prim (p : Prim) (children : List Node) : Node := .prim p children []

/-- A sequence. -/
def seq (s : List Node) : Node := .seq s

/-- A comment in the code: a `NOP` annotated with the text. -/
def iComment (s : String) : Node := .prim .iNop [] ["\"" ++ s ++ "\""]

/-- The three sections of a contract. -/
def contract (parameter storage code : Node) : Node :=
  seq [prim .kParameter [parameter], prim .kStorage [storage], prim .kCode [code]]

/-! ### Types and data -/

def tUnit : Node := prim .tUnit []
def tString : Node := prim .tString []
def tPair (a b : Node) : Node := prim .tPair [a, b]
def tLambda (a b : Node) : Node := prim .tLambda [a, b]
def dUnit : Node := prim .dUnit []

/-! ### Instructions -/

def iDup : Node := prim .iDup []
def iCar : Node := prim .iCar []
def iCdr : Node := prim .iCdr []
def iPair : Node := prim .iPair []
def iSwap : Node := prim .iSwap []
def iSome : Node := prim .iSome []
def iDrop : Node := prim .iDrop []
def iExec : Node := prim .iExec []
def iFailwith : Node := prim .iFailwith []

/-- Pair the two top values with the second one on the left. -/
def iPiar : Node := seq [iSwap, iPair]

def iPush (ty code : Node) : Node := prim .iPush [ty, code]
def iPushUnit : Node := iPush tUnit dUnit
def iPushString (str : String) : Node := iPush tString (.string str)
def iNone (ty : Node) : Node := prim .iNone [ty]
def iNil (ty : Node) : Node := prim .iNil [ty]
def iEmptyMap (src dst : Node) : Node := prim .iEmptyMap [src, dst]
def iIf (a b : Node) : Node := prim .iIf [seq [a], seq [b]]
def iIfNone (a b : Node) : Node := prim .iIfNone [seq [a], seq [b]]
def iIfLeft (a b : Node) : Node := prim .iIfLeft [seq [a], seq [b]]

/-- Unwrap an option, failing with the pushed message on `None`. -/
def iAssertSomeMsg (msg : Node) : Node := iIfNone (seq [msg, iFailwith]) (seq [])

/-- Run `code` below the top of the stack. -/
def dip (code : Node) : Node := prim .iDip [seq [code]]

def iUnpair : Node := seq [iDup, iCar, dip iCdr]

/-- Unpair with the right component on top. -/
def iUnpiar : Node := seq [iDup, iCdr, dip iCar]

/-! ### Stripping -/

mutual

/-- Remove the annotations. -/
def stripAnnots : Node → Node
  | .seq s => .seq (stripAnnotsAll s)
  | .prim p children _ => .prim p (stripAnnotsAll children) []
  | n => n

/-- `stripAnnots` on every node of a list. -/
def stripAnnotsAll : List Node → List Node
  | [] => []
  | n :: ns => stripAnnots n :: stripAnnotsAll ns

end

mutual

/-- Replace the comments by empty sequences. -/
def stripNops : Node → Node
  | .seq s => .seq (stripNopsAll s)
  | .prim .iNop _ _ => .seq []
  | .prim p children annots => .prim p (stripNopsAll children) annots
  | n => n

/-- `stripNops` on every node of a list. -/
def stripNopsAll : List Node → List Node
  | [] => []
  | n :: ns => stripNops n :: stripNopsAll ns

end

/-- The code as the protocol reads it. -/
def strip (n : Node) : Node := stripNops (stripAnnots n)

end Michelson
