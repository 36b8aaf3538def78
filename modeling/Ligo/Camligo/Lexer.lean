import Ligo.Camligo.Ast
import Ligo.Pascaligo.Lexer

/-!
# The numbers of the Camligo lexer

The rule `token` of the generated lexer specification. As for Ligodity, the cases of the
numbers have their actions here (`tokenNumber`), and a case is all that is kept of the other
ones. A number is an integer of the host, and arithmetic on these wraps around.
-/

namespace Ligo

/-- The integer of 63 bits that agrees with `z` in its last 63 bits. -/
def OInt.bmod (z : ℤ) : OInt := by
  refine ⟨z.bmod (2 ^ 63), ?_, ?_⟩
  · have h := Int.le_bmod (x := z) (m := 2 ^ 63) (by decide)
    omega
  · have h := Int.bmod_lt (x := z) (m := 2 ^ 63) (by decide)
    omega

def OInt.add (a b : OInt) : OInt := bmod (a.val + b.val)

def OInt.mul (a b : OInt) : OInt := bmod (a.val * b.val)

namespace Camligo

open Lexing
open Pascaligo (Text Exn chr digit small capital letter)
open Pascaligo.Lexer (oneOf wild word)

/-- The tokens of numbers. -/
inductive Token where
  | INT (n : OInt)
  | NAT (n : OInt)
  | TZ (n : OInt)

namespace Lexer

/-- `int_of_string` on digits. -/
def intOfString (s : Text) : Except Exn OInt := do
  let n ← Pascaligo.Lexer.intOfString s
  match OInt.ofInt n with
  | some n => .ok n
  | none => .error (.failure "int_of_string")

def newline : Regex UInt8 := .seq (.opt (chr '\r')) (.seq (chr '\n') (.opt (chr '\r')))

/-- The words of the keywords and symbols. -/
def tokenWords : List (List Char) :=
  [['l', 'e', 't', '%', 'i', 'n', 'i', 't'], ['l', 'e', 't', '%', 'e', 'n', 't', 'r', 'y'],
    ['l', 'e', 't'], ['t', 'y', 'p', 'e'], ['i', 'n'], ['i', 'f'], ['t', 'h', 'e', 'n'],
    ['e', 'l', 's', 'e'], ['f', 'u', 'n'], ['m', 'a', 't', 'c', 'h'], ['w', 'i', 't', 'h'],
    ['(', ')'], ['+'], ['~'], ['-', '>'], ['<', '-'], ['<', '='], ['<', '>'], ['<'], ['>'], ['-'],
    ['*'], ['/'], ['='], ['|'], ['['], [']'], ['('], [')'], ['{'], ['}'], [';', ';'], [';'],
    [':', ':'], [':'], [','], ['.']]

def alphanumeric : Regex UInt8 := .any [letter, digit, chr '_']

/-! ### The rule `token` -/

inductive TokenCase where
  | newline | quote | blank | nat | tz | int | word | name | constructorName | eof | comment | wild
  deriving DecidableEq

def tokenRules : List (Pattern UInt8 × TokenCase) :=
  [(.regex newline, .newline), (.regex (chr '"'), .quote), (.regex (oneOf [' ', '\t']), .blank),
    (.regex (.seq (.plus digit) (chr 'p')), .nat),
    (.regex (.seq (.plus digit) (.seq (chr '.') (.seq (.seq digit digit) (word ['t', 'z'])))), .tz),
    (.regex (.plus digit), .int)] ++
    tokenWords.map (fun cs => (.regex (word cs), .word)) ++
    [(.regex (.seq (.alt small (chr '_')) (.star alphanumeric)), .name),
      (.regex (.seq capital (.star alphanumeric)), .constructorName), (.eof .empty, .eof),
      (.regex (word ['(', '*']), .comment), (.regex wild, .wild)]

/-- The token of the number at the start of a text, with the text after it. -/
def tokenNumber (buf : Text) : Except Exn (Option (Token × Text)) :=
  match lex tokenRules buf with
  | some (.nat, lexeme, rest) => do
    let i ← intOfString lexeme.dropLast
    .ok (some (.NAT i, rest))
  | some (.tz, lexeme, rest) => do
    let n ← intOfString (lexeme.takeWhile Pascaligo.Token.isDigit)
    let d ← intOfString (((lexeme.dropWhile Pascaligo.Token.isDigit).drop 1).take 2)
    .ok (some (.TZ ((n.mul ⟨100, by decide⟩).add d), rest))
  | some (.int, i, rest) => do
    let i ← intOfString i
    .ok (some (.INT i, rest))
  | _ => .ok none

end Lexer

end Camligo

end Ligo
