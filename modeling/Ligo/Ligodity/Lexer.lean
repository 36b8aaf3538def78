import Mathlib.Algebra.Order.Field.Rat
import Ligo.Ligodity.Ast
import Ligo.Pascaligo.Lexer

/-!
# The numbers of the Ligodity lexer

The rule `scan` chooses a case by its patterns (`Lexing.lex`). The cases of the numbers have
their actions here (`scanNumber`): the other ones make no number, so that a case is all that
is kept of them. The regular expressions that PascaLIGO has too are the ones of its lexer.

An amount of tez with a decimal point is converted to mutez by way of a rational number
(`formatTz`), and refused when it is not a whole number of mutez.
-/

namespace Ligo.Ligodity

open Lexing
open Pascaligo (Text ord ascii chr digit small capital letter)
open Pascaligo.Lexer (oneOf noneOf wild word blank integer byte bytes)

/-- The exceptions: `error` is `Lexer.Error`, of which the message is kept. -/
inductive Exn where
  | error (value : String)
  | library (exn : Pascaligo.Exn)

/-- The tokens of numbers. -/
inductive Token where
  | Int (n : Text × ℤ)
  | Nat (n : Text × ℤ)
  | Mtz (n : Text × ℤ)

namespace Lexer

/-- `Z.of_string` on the lexemes of numbers, where underscores are skipped. -/
def zOfString (s : Text) : Except Exn ℤ :=
  (Pascaligo.Token.zOfString (s.filter (· != ord '_'))).mapError .library

/-- Making a natural from its decimal notation (for Tez). -/
def formatTz (s : Text) : Except Exn (Option ℤ) :=
  match s.idxOf? (ord '.') with
  | some index => do
    let len := s.length
    let integral := s.take index
    let fractional := s.drop (len - (len - index - 1))
    let num ← zOfString (integral ++ fractional)
    let den ← zOfString (ascii ['1'] ++ List.replicate (len - index - 1) (ord '0'))
    let million : ℚ := 1000000
    let mtz := million * (num / den)
    let shouldBe1 := mtz.den
    if shouldBe1 = 1 then .ok (some mtz.num) else .ok none
  | none => .error (.library .assertFalse)

/-! ### Named regular expressions -/

def nl : Regex UInt8 := oneOf ['\n', '\r']

def decimal : Regex UInt8 := .seq (.plus digit) (.seq (chr '.') (.plus digit))

def ichar : Regex UInt8 := .any [letter, digit, oneOf ['_', '\'']]

def ident : Regex UInt8 := .alt (.seq small (.star ichar)) (.seq (chr '_') (.plus ichar))

def uident : Regex UInt8 := .seq capital (.star ichar)

def esc : Regex UInt8 :=
  .any [word ['\\', 'n'], word ['\\', '\\'], word ['\\', 'b'], word ['\\', 'r'], word ['\\', 't']]

def schar : Regex UInt8 :=
  .any [noneOf ['"', '\\', '\n', '\r'], word ['\\', '"'], esc, .seq (word ['\\', 'x']) byte,
    .seq (word ['\\', '0']) (.seq digit digit)]

def string : Regex UInt8 := .seq (chr '"') (.seq (.star schar) (chr '"'))

/-- The pattern of line directives. -/
def lineDirective : Regex UInt8 :=
  .seq (chr '#') (.seq (.star blank) (.seq (.opt (.seq (word ['l', 'i', 'n', 'e']) (.plus blank)))
    (.seq integer (.seq (.plus blank) (.seq (chr '"') (.seq string (chr '"')))))))

/-- The words of the symbols. -/
def symbolWords : List (List Char) :=
  [['-', '>'], [':', ':'], ['^'], ['='], ['<', '>'], ['<'], ['>'], ['<', '='], ['>', '='],
    ['&', '&'], ['|', '|'], ['-'], ['+'], ['/'], ['*'], ['('], [')'], ['['], [']'], ['{'], ['}'],
    [','], [';'], [':'], ['|'], ['.'], ['_']]

/-! ### The rule `scan` -/

inductive ScanCase where
  | nl | blanks | symbol | eof | int | nat | mtz | decimalMtz | constr | bytes | keyword | ident
  | quote | comment | directive | wild
  deriving DecidableEq

def scanRules : List (Pattern UInt8 × ScanCase) :=
  [(.regex nl, .nl), (.regex (.plus blank), .blanks)] ++
    symbolWords.map (fun cs => (.regex (word cs), .symbol)) ++
    [(.eof .empty, .eof), (.regex integer, .int), (.regex (.seq integer (chr 'p')), .nat),
      (.regex (.seq integer (word ['t', 'z'])), .mtz),
      (.regex (.seq decimal (word ['t', 'z'])), .decimalMtz), (.regex uident, .constr),
      (.regex bytes, .bytes), (.regex (word ['l', 'e', 't', '%', 'i', 'n', 'i', 't']), .keyword),
      (.regex (word ['l', 'e', 't', '%', 'e', 'n', 't', 'r', 'y']), .keyword),
      (.regex (word ['m', 'a', 't', 'c', 'h', '%', 'n', 'a', 't']), .keyword),
      (.regex ident, .ident), (.regex (chr '"'), .quote), (.regex (word ['(', '*']), .comment),
      (.regex lineDirective, .directive), (.regex wild, .wild)]

/-- The token of the number at the start of a text, with the text after it. -/
def scanNumber (buf : Text) : Except Exn (Option (Token × Text)) :=
  match lex scanRules buf with
  | some (.int, n, rest) => do
    let z ← zOfString n
    .ok (some (.Int (n, z), rest))
  | some (.nat, lexeme, rest) => do
    let n := lexeme.dropLast
    let z ← zOfString n
    .ok (some (.Nat (n ++ ascii ['p'], z), rest))
  | some (.mtz, lexeme, rest) => do
    let tz := lexeme.dropLast.dropLast
    let z ← zOfString tz
    .ok (some (.Mtz (tz ++ ascii ['t', 'z'], z), rest))
  | some (.decimalMtz, lexeme, rest) => do
    let tz := lexeme.dropLast.dropLast
    match ← formatTz tz with
    | some z => .ok (some (.Mtz (tz ++ ascii ['t', 'z'], z), rest))
    | none => .error (.error "Invalid tez amount.")
  | _ => .ok none

end Lexer

end Ligo.Ligodity
