import Ligo.Michelson.Syntax

/-!
# Constants of the language

The Michelson code of the constants (`Operators.Compiler.predicates`), with the
number of arguments it takes from the stack. The first argument is on top.
-/

namespace Ligo.Operators

open Michelson

/-- The code of a constant, by its arity. -/
inductive Predicate where
  | constant (code : Node)
  | unary (code : Node)
  | binary (code : Node)
  | ternary (code : Node)

/-- `Map.String.find_opt s predicates`. -/
def predicates : String → Option Predicate
  | "ADD" => some (.binary (prim .iAdd []))
  | "SUB" => some (.binary (prim .iSub []))
  | "TIMES" => some (.binary (prim .iMul []))
  | "DIV" => some (.binary
      (seq [prim .iEdiv [], iAssertSomeMsg (iPushString "DIV by 0"), iCar]))
  | "MOD" => some (.binary
      (seq [prim .iEdiv [], iAssertSomeMsg (iPushString "MOD by 0"), iCdr]))
  | "NEG" => some (.unary (prim .iNeg []))
  | "OR" => some (.binary (prim .iOr []))
  | "AND" => some (.binary (prim .iAnd []))
  | "PAIR" => some (.binary (prim .iPair []))
  | "CAR" => some (.unary (prim .iCar []))
  | "CDR" => some (.unary (prim .iCdr []))
  | "EQ" => some (.binary (seq [prim .iCompare [], prim .iEq []]))
  | "NEQ" => some (.binary (seq [prim .iCompare [], prim .iNeq []]))
  | "LT" => some (.binary (seq [prim .iCompare [], prim .iLt []]))
  | "LE" => some (.binary (seq [prim .iCompare [], prim .iLe []]))
  | "GT" => some (.binary (seq [prim .iCompare [], prim .iGt []]))
  | "GE" => some (.binary (seq [prim .iCompare [], prim .iGe []]))
  | "UPDATE" => some (.ternary (prim .iUpdate []))
  | "SOME" => some (.unary (prim .iSome []))
  | "MAP_GET_FORCE" => some (.binary
      (seq [prim .iGet [], iAssertSomeMsg (iPushString "GET_FORCE")]))
  | "MAP_GET" => some (.binary (prim .iGet []))
  | "SIZE" => some (.unary (prim .iSize []))
  | "FAILWITH" => some (.unary (prim .iFailwith []))
  | "ASSERT" => some (.binary (iIf (seq [iFailwith]) (seq [iDrop, iPushUnit])))
  | "INT" => some (.unary (prim .iInt []))
  | "ABS" => some (.unary (prim .iAbs []))
  | "CONS" => some (.binary (prim .iCons []))
  | "UNIT" => some (.constant (prim .iUnit []))
  | "AMOUNT" => some (.constant (prim .iAmount []))
  | "CALL" => some (.ternary (prim .iTransferTokens []))
  | "SOURCE" => some (.constant (prim .iSource []))
  | "SENDER" => some (.constant (prim .iSender []))
  | "MAP_UPDATE" => some (.ternary (seq [dip iSome, prim .iUpdate []]))
  | _ => none

end Ligo.Operators
