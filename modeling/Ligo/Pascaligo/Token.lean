import Ligo.Library.Regex
import Ligo.Pascaligo.Region

/-!
# Tokens

The tokens of PascaLIGO with their lexemes, the smart constructors that the lexer calls on a
lexeme, and the markup between tokens. The source has one constructor for each symbol and
each keyword; here these are enumerations, so that the three tables that list them (the
lexemes, the symbols and the lexicon) are functions and lists over them.

`Hex.of_string` and the decoder of `Uutf` belong to third-party libraries and are
parameters (`Libraries`).
-/

namespace Ligo.Pascaligo

open Lexing

/-- What the decoder says after a byte. -/
inductive Decoded where
  | uchar
  | malformed
  | await
  | end_
  deriving DecidableEq

/-- The third-party libraries: the conversion to hexadecimal, and a decoder that is fed
one byte at a time. -/
structure Libraries where
  Hex : Type
  hexOfString : Text → Hex
  Decoder : Type
  decoder : Decoder
  decode : Decoder → UInt8 → Decoder × Decoded

/-- The decoder does not report the end of the input while there is input. -/
def Libraries.NeverEnds (lib : Libraries) : Prop := ∀ d c, (lib.decode d c).2 ≠ .end_

/-! ### Tokens -/

inductive Symbol where
  | SEMI | COMMA | LPAR | RPAR | LBRACE | RBRACE | LBRACKET | RBRACKET | CONS | VBAR
  | ARROW | ASS | EQUAL | COLON | LT | LEQ | GT | GEQ | NEQ | PLUS | MINUS | SLASH
  | TIMES | DOT | WILD | CAT
  deriving DecidableEq

inductive Keyword where
  | And | Begin | Block | Case | Const | Contains | Down | Else | End | Entrypoint | Fail
  | For | From | Function | If | In | Is | List | Map | Mod | Nil | Not | Of | Or | Patch
  | Procedure | Record | Remove | Set | Skip | Step | Storage | Then | To | Type | Var
  | While | With
  deriving DecidableEq

/-- Data constructors with a token of their own. -/
inductive DataConstructor where
  | C_False | C_None | C_Some | C_True | C_Unit
  deriving DecidableEq

/-- A token, with `H` for the hexadecimal values of the third-party library. -/
inductive Token (H : Type) where
  | String (s : Reg Text)
  | Bytes (b : Reg (Text × H))
  | Int (i : Reg (Text × ℤ))
  | Nat (i : Reg (Text × ℤ))
  | Mtz (i : Reg (Text × ℤ))
  | Ident (id : Reg Text)
  | Constr (id : Reg Text)
  | symbol (s : Symbol) (region : Region)
  | keyword (k : Keyword) (region : Region)
  | data (c : DataConstructor) (region : Region)
  | EOF (region : Region)

def Symbol.lexeme : Symbol → Text
  | .SEMI => ascii [';']
  | .COMMA => ascii [',']
  | .LPAR => ascii ['(']
  | .RPAR => ascii [')']
  | .LBRACE => ascii ['{']
  | .RBRACE => ascii ['}']
  | .LBRACKET => ascii ['[']
  | .RBRACKET => ascii [']']
  | .CONS => ascii ['#']
  | .VBAR => ascii ['|']
  | .ARROW => ascii ['-', '>']
  | .ASS => ascii [':', '=']
  | .EQUAL => ascii ['=']
  | .COLON => ascii [':']
  | .LT => ascii ['<']
  | .LEQ => ascii ['<', '=']
  | .GT => ascii ['>']
  | .GEQ => ascii ['>', '=']
  | .NEQ => ascii ['=', '/', '=']
  | .PLUS => ascii ['+']
  | .MINUS => ascii ['-']
  | .SLASH => ascii ['/']
  | .TIMES => ascii ['*']
  | .DOT => ascii ['.']
  | .WILD => ascii ['_']
  | .CAT => ascii ['^']

def Keyword.lexeme : Keyword → Text
  | .And => ascii ['a', 'n', 'd']
  | .Begin => ascii ['b', 'e', 'g', 'i', 'n']
  | .Block => ascii ['b', 'l', 'o', 'c', 'k']
  | .Case => ascii ['c', 'a', 's', 'e']
  | .Const => ascii ['c', 'o', 'n', 's', 't']
  | .Contains => ascii ['c', 'o', 'n', 't', 'a', 'i', 'n', 's']
  | .Down => ascii ['d', 'o', 'w', 'n']
  | .Else => ascii ['e', 'l', 's', 'e']
  | .End => ascii ['e', 'n', 'd']
  | .Entrypoint => ascii ['e', 'n', 't', 'r', 'y', 'p', 'o', 'i', 'n', 't']
  | .Fail => ascii ['f', 'a', 'i', 'l']
  | .For => ascii ['f', 'o', 'r']
  | .From => ascii ['f', 'r', 'o', 'm']
  | .Function => ascii ['f', 'u', 'n', 'c', 't', 'i', 'o', 'n']
  | .If => ascii ['i', 'f']
  | .In => ascii ['i', 'n']
  | .Is => ascii ['i', 's']
  | .List => ascii ['l', 'i', 's', 't']
  | .Map => ascii ['m', 'a', 'p']
  | .Mod => ascii ['m', 'o', 'd']
  | .Nil => ascii ['n', 'i', 'l']
  | .Not => ascii ['n', 'o', 't']
  | .Of => ascii ['o', 'f']
  | .Or => ascii ['o', 'r']
  | .Patch => ascii ['p', 'a', 't', 'c', 'h']
  | .Procedure => ascii ['p', 'r', 'o', 'c', 'e', 'd', 'u', 'r', 'e']
  | .Record => ascii ['r', 'e', 'c', 'o', 'r', 'd']
  | .Remove => ascii ['r', 'e', 'm', 'o', 'v', 'e']
  | .Set => ascii ['s', 'e', 't']
  | .Skip => ascii ['s', 'k', 'i', 'p']
  | .Step => ascii ['s', 't', 'e', 'p']
  | .Storage => ascii ['s', 't', 'o', 'r', 'a', 'g', 'e']
  | .Then => ascii ['t', 'h', 'e', 'n']
  | .To => ascii ['t', 'o']
  | .Type => ascii ['t', 'y', 'p', 'e']
  | .Var => ascii ['v', 'a', 'r']
  | .While => ascii ['w', 'h', 'i', 'l', 'e']
  | .With => ascii ['w', 'i', 't', 'h']

def DataConstructor.lexeme : DataConstructor → Text
  | .C_False => ascii ['F', 'a', 'l', 's', 'e']
  | .C_None => ascii ['N', 'o', 'n', 'e']
  | .C_Some => ascii ['S', 'o', 'm', 'e']
  | .C_True => ascii ['T', 'r', 'u', 'e']
  | .C_Unit => ascii ['U', 'n', 'i', 't']

namespace Token

variable {H : Type}

def toLexeme : Token H → Text
  | .String s => s.value
  | .Bytes b => b.value.1
  | .Int i | .Nat i | .Mtz i => i.value.1
  | .Ident id | .Constr id => id.value
  | .symbol s _ => s.lexeme
  | .keyword k _ => k.lexeme
  | .data c _ => c.lexeme
  | .EOF _ => []

def toRegion : Token H → Region
  | .String r | .Ident r | .Constr r => r.region
  | .Bytes r => r.region
  | .Int r | .Nat r | .Mtz r => r.region
  | .symbol _ region | .keyword _ region | .data _ region | .EOF region => region

def isString : Token H → Bool
  | .String _ => true
  | _ => false

def isBytes : Token H → Bool
  | .Bytes _ => true
  | _ => false

def isInt : Token H → Bool
  | .Int _ => true
  | _ => false

def isIdent : Token H → Bool
  | .Ident _ => true
  | _ => false

def isEof : Token H → Bool
  | .EOF _ => true
  | _ => false

/-! ### The lexicon -/

def keywords : List Keyword :=
  [.And, .Begin, .Block, .Case, .Const, .Contains, .Down, .Else, .End, .Entrypoint, .For,
    .From, .Function, .Fail, .If, .In, .Is, .List, .Map, .Mod, .Nil, .Not, .Of, .Or, .Patch,
    .Procedure, .Record, .Remove, .Set, .Skip, .Step, .Storage, .Then, .To, .Type, .Var,
    .While, .With]

def reserved : List Text := [ascii ['a', 'r', 'g', 's']]

def constructors : List DataConstructor := [.C_False, .C_None, .C_Some, .C_True, .C_Unit]

/-- Looking up a lexeme in the map that `mk_map` builds: a later binding of a key replaces
an earlier one. -/
def findKey {α : Type} (key : α → Text) (list : List α) (lexeme : Text) : Option α :=
  list.foldl (fun found a => if key a = lexeme then some a else found) none

/-! ### Numbers -/

def isDigit (c : UInt8) : Bool := ord '0' ≤ c && c ≤ ord '9'

/-- The number that decimal digits denote. -/
def digitsValue (ds : Text) : ℕ := ds.foldl (fun n d => 10 * n + (d.toNat - 48)) 0

/-- `Z.of_string` on decimal numbers. -/
def zOfString : Text → Except Exn ℤ
  | [] => .error (.invalidArgument "Z.of_substring_base: invalid digit")
  | c :: ds =>
    if c = ord '-' then
      if ds ≠ [] ∧ ds.all isDigit then .ok (-(digitsValue ds : ℤ))
      else .error (.invalidArgument "Z.of_substring_base: invalid digit")
    else if (c :: ds).all isDigit then .ok (digitsValue (c :: ds))
    else .error (.invalidArgument "Z.of_substring_base: invalid digit")

/-- `Str.global_replace (regexp w) ""`, for a word `w`; the number counts what is left to
drop of an occurrence. -/
def globalRemove (w : Text) : ℕ → Text → Text
  | _, [] => []
  | n + 1, _ :: s => globalRemove w n s
  | 0, c :: s =>
    if w.isPrefixOf (c :: s) then globalRemove w (w.length - 1) s
    else c :: globalRemove w 0 s

end Token

/-! ### Named regular expressions

`ident` and `constr` are declared in both lexer specifications, with the same text. -/

/-- One given character. -/
def chr (c : Char) : Regex UInt8 := .char (ord c)

/-- One character of a range. -/
def range (first last : Char) : Regex UInt8 := .one fun c => ord first ≤ c && c ≤ ord last

def small : Regex UInt8 := range 'a' 'z'

def capital : Regex UInt8 := range 'A' 'Z'

def letter : Regex UInt8 := .alt small capital

def digit : Regex UInt8 := range '0' '9'

def ident : Regex UInt8 := .seq small (.star (.any [letter, chr '_', digit]))

def constr : Regex UInt8 := .seq capital (.star (.any [letter, chr '_', digit]))

/-! ### Smart constructors -/

namespace Token

section

variable {H : Type}

/-- The rule `scan_ident`, `none` for a reserved name. -/
def scanIdent (region : Region) (lexeme : Text) : Except Exn (Option (Token H)) :=
  match lex [(.eof ident, ())] lexeme with
  | none => .error (.failure "lexing: empty token")
  | some (_, value, _) =>
    if value ∈ reserved then .ok none
    else
      match findKey Keyword.lexeme keywords value with
      | some k => .ok (some (.keyword k region))
      | none => .ok (some (.Ident ⟨region, value⟩))

/-- The rule `scan_constr`. -/
def scanConstr (region : Region) (lexeme : Text) : Except Exn (Token H) :=
  match lex [(.eof constr, ())] lexeme with
  | none => .error (.failure "lexing: empty token")
  | some (_, value, _) =>
    match findKey DataConstructor.lexeme constructors value with
    | some c => .ok (.data c region)
    | none => .ok (.Constr ⟨region, value⟩)

def mkString (lexeme : Text) (region : Region) : Token H := .String ⟨region, lexeme⟩

/-- `none` for a zero that is not canonical. -/
def mkInt (lexeme : Text) (region : Region) : Except Exn (Option (Token H)) := do
  let z ← zOfString (globalRemove (ascii ['_']) 0 lexeme)
  if z = 0 ∧ lexeme ≠ ascii ['0'] then .ok none
  else .ok (some (.Int ⟨region, lexeme, z⟩))

def mkNat (lexeme : Text) (region : Region) : Except Exn (Option (Token H)) := do
  let z ← zOfString (globalRemove (ascii ['n']) 0 (globalRemove (ascii ['_']) 0 lexeme))
  if z = 0 ∧ lexeme ≠ ascii ['0', 'n'] then .ok none
  else .ok (some (.Nat ⟨region, lexeme, z⟩))

def mkMtz (lexeme : Text) (region : Region) : Except Exn (Option (Token H)) := do
  let z ← zOfString
    (globalRemove (ascii ['m', 't', 'z']) 0 (globalRemove (ascii ['_']) 0 lexeme))
  if z = 0 ∧ lexeme ≠ ascii ['0', 'm', 't', 'z'] then .ok none
  else .ok (some (.Mtz ⟨region, lexeme, z⟩))

def eof (region : Region) : Token H := .EOF region

/-- The cases of `mk_sym`, in its order. -/
def symbols : List (Text × Symbol) :=
  [(ascii [';'], .SEMI), (ascii [','], .COMMA), (ascii ['('], .LPAR), (ascii [')'], .RPAR),
    (ascii ['{'], .LBRACE), (ascii ['}'], .RBRACE), (ascii ['['], .LBRACKET),
    (ascii [']'], .RBRACKET), (ascii ['#'], .CONS), (ascii ['|'], .VBAR),
    (ascii ['-', '>'], .ARROW), (ascii [':', '='], .ASS), (ascii ['='], .EQUAL),
    (ascii [':'], .COLON), (ascii ['<'], .LT), (ascii ['<', '='], .LEQ), (ascii ['>'], .GT),
    (ascii ['>', '='], .GEQ), (ascii ['=', '/', '='], .NEQ), (ascii ['+'], .PLUS),
    (ascii ['-'], .MINUS), (ascii ['/'], .SLASH), (ascii ['*'], .TIMES), (ascii ['.'], .DOT),
    (ascii ['_'], .WILD), (ascii ['^'], .CAT)]

def mkSym (lexeme : Text) (region : Region) : Except Exn (Token H) :=
  match symbols.lookup lexeme with
  | some s => .ok (.symbol s region)
  | none => .error .assertFalse

def mkIdent (lexeme : Text) (region : Region) : Except Exn (Option (Token H)) :=
  scanIdent region lexeme

def mkConstr (lexeme : Text) (region : Region) : Except Exn (Token H) :=
  scanConstr region lexeme

end

def mkBytes (lib : Libraries) (lexeme : Text) (region : Region) : Token lib.Hex :=
  let norm := globalRemove (ascii ['_']) 0 lexeme
  .Bytes ⟨region, lexeme, lib.hexOfString norm⟩

end Token

/-! ### Markup -/

inductive Markup where
  | Tabs (n : Reg ℕ)
  | Space (n : Reg ℕ)
  | Newline (s : Reg Text)
  | LineCom (s : Reg Text)
  | BlockCom (s : Reg Text)
  | BOM (s : Reg Text)

namespace Markup

def toLexeme : Markup → Text
  | .Tabs n => List.replicate n.value (ord '\t')
  | .Space n => List.replicate n.value (ord ' ')
  | .Newline s | .LineCom s | .BlockCom s | .BOM s => s.value

def region : Markup → Region
  | .Tabs n | .Space n => n.region
  | .Newline s | .LineCom s | .BlockCom s | .BOM s => s.region

end Markup

end Ligo.Pascaligo
