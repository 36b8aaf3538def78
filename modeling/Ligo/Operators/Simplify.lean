import Mathlib.Data.List.Basic

/-!
# Reserved names of the front ends

Each front end has names of its own for the constants: the name in the language beside the
name of the constant (`Operators.Simplify`).
-/

namespace Ligo.Operators.Simplify

def typeConstants : List (String × String) :=
  [("unit", "unit"), ("string", "string"), ("bytes", "bytes"), ("nat", "nat"), ("int", "int"),
    ("tez", "tez"), ("bool", "bool"), ("operation", "operation"), ("address", "address"),
    ("contract", "contract"), ("list", "list"), ("option", "option"), ("set", "set"),
    ("map", "map"), ("big_map", "big_map")]

namespace Pascaligo

def constants : List (String × String) :=
  [("get_force", "MAP_GET_FORCE"), ("transaction", "CALL"), ("get_contract", "CONTRACT"),
    ("size", "SIZE"), ("int", "INT"), ("abs", "ABS"), ("amount", "AMOUNT"), ("unit", "UNIT"),
    ("source", "SOURCE")]

end Pascaligo

namespace Camligo

def constants : List (String × String) :=
  [("Bytes.pack", "PACK"), ("Crypto.hash", "HASH"), ("Operation.transaction", "CALL"),
    ("Operation.get_contract", "GET_CONTRACT"), ("sender", "SENDER"), ("unit", "UNIT"),
    ("source", "SOURCE")]

end Camligo

end Ligo.Operators.Simplify
