import Ligo.Pascaligo.FQueue
import Ligo.Pascaligo.Token

/-!
# The scanning rules

The lexer specification: the state of the lexer, the functions that make tokens and markup,
and the rules. A rule chooses a case by its patterns (`Lexing.lex`) and its action continues
with the bytes that are left, so the lexing buffer is the text that is left, and rolling back
a lexeme is going on with the text before it.

The part of the state that the rules for strings and comments change, the position and the
decoder, is a record of its own (`Cursor`): by its type such a rule leaves the units and the
markup alone. The rule `scan` is a loop over the actions of its cases (`scanStep`). The rules
recurse on a number that the length of the text bounds.
-/

namespace Ligo.Pascaligo.Lexer

open Lexing

/-! ### Strings -/

/-- Writing the characters from position `i` downwards. -/
def fill : ℤ → Text → List UInt8 → Except Exn Text
  | _, bytes, [] => .ok bytes
  | i, bytes, c :: l =>
    if 0 ≤ i ∧ i < bytes.length then fill (i - 1) (bytes.set i.toNat c) l
    else .error (.invalidArgument "index out of bounds")

/-- The characters of `p` in reverse order. -/
def mkStr (len : ℕ) (p : List UInt8) : Except Exn Text :=
  fill (len - 1) (List.replicate len (ord ' ')) p

/-- Pushing the characters of `s` on top of `acc`. -/
def explode (s : Text) (acc : List UInt8) : List UInt8 := s.reverse ++ acc

/-- `int_of_string` on decimal numbers, for integers of 63 bits. -/
def intOfString (s : Text) : Except Exn ℤ :=
  let sign := s.head?.filter fun c => c = ord '-' || c = ord '+'
  let ds := s.drop sign.toList.length
  match ds with
  | [] => .error (.failure "int_of_string")
  | d :: ds' =>
    if Token.isDigit d && ds'.all fun c => Token.isDigit c || c == ord '_' then
      let n : ℤ := Token.digitsValue (ds.filter Token.isDigit)
      if sign = some (ord '-') then
        if n ≤ 2 ^ 62 then .ok (-n) else .error (.failure "int_of_string")
      else if n < 2 ^ 62 then .ok n
      else .error (.failure "int_of_string")
    else .error (.failure "int_of_string")

/-- `Filename.basename`. -/
def basename (name : Text) : Text :=
  match name.reverse.dropWhile (· == ord '/') with
  | [] => if name = [] then ascii ['.'] else ascii ['/']
  | s => (s.takeWhile (· != ord '/')).reverse

/-! ### Threads and states -/

/-- What has been read of a string or comment, in reverse, with the region of its opening. -/
structure Thread where
  opening : Region
  len : ℕ
  acc : List UInt8

def pushChar (char : UInt8) (thread : Thread) : Thread :=
  { thread with len := thread.len + 1, acc := char :: thread.acc }

def pushString (str : Text) (thread : Thread) : Thread :=
  { thread with len := thread.len + str.length, acc := explode str thread.acc }

variable (lib : Libraries)

/-- A token with the markup at its left, the newest first. -/
abbrev LexUnit := List Markup × Token lib.Hex

/-- The position and the decoder. -/
structure Cursor where
  pos : Pos
  decoder : lib.Decoder

structure State extends Cursor lib where
  units : FQueue (LexUnit lib)
  markup : List Markup
  last : Region

variable {lib}

def enqueue (token : Token lib.Hex) (state : State lib) : State lib :=
  { state with units := state.units.enq (state.markup, token), markup := [] }

def sync (state : Cursor lib) (lexeme : Text) : Except Exn (Region × Cursor lib) := do
  let start := state.pos
  let stop := start.shiftBytes lexeme.length
  let region ← Region.make start stop
  .ok (region, { state with pos := stop })

/-! ### Markup -/

def pushNewline (state : State lib) (value : Text) : Except Exn (State lib) := do
  let start := state.pos
  let stop := start.newLine value
  let region ← Region.make start stop
  .ok { state with pos := stop, markup := .Newline ⟨region, value⟩ :: state.markup }

/-- `push_line` and `push_block`, which differ in the constructor of the unit. -/
def pushComment (unit : Reg Text → Markup) (thread : Thread) (state : State lib) :
    Except Exn (State lib) := do
  let start := thread.opening.start
  let region ← Region.make start state.pos
  let value ← mkStr thread.len thread.acc
  .ok { state with markup := unit ⟨region, value⟩ :: state.markup }

def pushLine : Thread → State lib → Except Exn (State lib) := pushComment .LineCom

def pushBlock : Thread → State lib → Except Exn (State lib) := pushComment .BlockCom

/-- `push_space`, `push_tabs` and `push_bom`: a unit with the lexeme or its length. -/
def pushLexeme (unit : Region → Text → Markup) (state : State lib) (lexeme : Text) :
    Except Exn (State lib) := do
  let (region, cursor) ← sync state.toCursor lexeme
  .ok { state with toCursor := cursor, markup := unit region lexeme :: state.markup }

def pushSpace : State lib → Text → Except Exn (State lib) :=
  pushLexeme fun region lexeme => .Space ⟨region, lexeme.length⟩

def pushTabs : State lib → Text → Except Exn (State lib) :=
  pushLexeme fun region lexeme => .Tabs ⟨region, lexeme.length⟩

def pushBom : State lib → Text → Except Exn (State lib) :=
  pushLexeme fun region lexeme => .BOM ⟨region, lexeme⟩

/-! ### Making tokens -/

def mkString (thread : Thread) (state : Cursor lib) :
    Except Exn (Token lib.Hex × Cursor lib) := do
  let start := thread.opening.start
  let stop := state.pos
  let region ← Region.make start stop
  let lexeme ← mkStr thread.len thread.acc
  .ok (Token.mkString lexeme region, state)

def mkBytes (bytes : Text) (state : Cursor lib) (lexeme : Text) :
    Except Exn (Token lib.Hex × Cursor lib) := do
  let (region, state) ← sync state lexeme
  .ok (Token.mkBytes lib bytes region, state)

/-- A token whose constructor can refuse the lexeme. -/
def mkOrFail (mk : Text → Region → Except Exn (Option (Token lib.Hex))) (err : LexError)
    (state : Cursor lib) (lexeme : Text) : Except Exn (Token lib.Hex × Cursor lib) := do
  let (region, state) ← sync state lexeme
  match ← mk lexeme region with
  | some token => .ok (token, state)
  | none => fail region err

def mkInt : Cursor lib → Text → Except Exn (Token lib.Hex × Cursor lib) :=
  mkOrFail Token.mkInt .nonCanonicalZero

def mkNat : Cursor lib → Text → Except Exn (Token lib.Hex × Cursor lib) :=
  mkOrFail Token.mkNat .nonCanonicalZero

def mkMtz : Cursor lib → Text → Except Exn (Token lib.Hex × Cursor lib) :=
  mkOrFail Token.mkMtz .nonCanonicalZero

def mkIdent : Cursor lib → Text → Except Exn (Token lib.Hex × Cursor lib) :=
  mkOrFail Token.mkIdent .reservedName

/-- A token whose constructor is total on the lexemes of its case. -/
def mkToken (mk : Text → Region → Except Exn (Token lib.Hex)) (state : Cursor lib)
    (lexeme : Text) : Except Exn (Token lib.Hex × Cursor lib) := do
  let (region, state) ← sync state lexeme
  let token ← mk lexeme region
  .ok (token, state)

def mkConstr : Cursor lib → Text → Except Exn (Token lib.Hex × Cursor lib) :=
  mkToken Token.mkConstr

def mkSym : Cursor lib → Text → Except Exn (Token lib.Hex × Cursor lib) :=
  mkToken Token.mkSym

def mkEof : Cursor lib → Text → Except Exn (Token lib.Hex × Cursor lib) :=
  mkToken fun _ region => .ok (Token.eof region)

/-! ### Named regular expressions -/

/-- One of the given characters. -/
def oneOf (cs : List Char) : Regex UInt8 := .one fun c => (ascii cs).contains c

/-- Any character but the given ones. -/
def noneOf (cs : List Char) : Regex UInt8 := .one fun c => !(ascii cs).contains c

/-- The pattern `_`. -/
def wild : Regex UInt8 := .one fun _ => true

/-- A given word. -/
def word (cs : List Char) : Regex UInt8 := .word (ascii cs)

def utf8Bom : Regex UInt8 := .word [0xEF, 0xBB, 0xBF]

def nl : Regex UInt8 := .alt (oneOf ['\n', '\r']) (word ['\r', '\n'])

def blank : Regex UInt8 := .alt (chr ' ') (chr '\t')

def natural : Regex UInt8 := .alt digit (.seq digit (.seq (.star (.alt digit (chr '_'))) digit))

def integer : Regex UInt8 := .seq (.opt (chr '-')) natural

def hexaDigit : Regex UInt8 := .alt digit (range 'A' 'F')

def byte : Regex UInt8 := .seq hexaDigit hexaDigit

def byteSeq : Regex UInt8 := .alt byte (.seq byte (.seq (.star (.alt byte (chr '_'))) byte))

def bytes : Regex UInt8 := .seq (word ['0', 'x']) (.opt byteSeq)

def esc : Regex UInt8 :=
  .any [word ['\\', 'n'], word ['\\', '"'], word ['\\', '\\'], word ['\\', 'b'],
    word ['\\', 'r'], word ['\\', 't'], .seq (word ['\\', 'x']) byte]

/-- The words of `symbol`. -/
def symbolWords : List (List Char) :=
  [[';'], [','], ['('], [')'], ['['], [']'], ['{'], ['}'], ['#'], ['|'], ['-', '>'],
    [':', '='], ['='], [':'], ['<'], ['<', '='], ['>'], ['>', '='], ['=', '/', '='], ['+'],
    ['-'], ['*'], ['/'], ['.'], ['_'], ['^']]

def symbol : Regex UInt8 := .any (symbolWords.map word)

def string : Regex UInt8 := .star (noneOf ['"', '\\', '\n'])

/-- The pattern of line directives. -/
def lineDirective : Regex UInt8 :=
  .seq (chr '#') (.seq (.star blank) (.seq (.opt (.seq (word ['l', 'i', 'n', 'e']) (.plus blank)))
    (.seq integer (.seq (.plus blank) (.seq (chr '"') (.seq string (chr '"')))))))

def isBlank (c : UInt8) : Bool := c == ord ' ' || c == ord '\t'

/-- The parts `line` and `file` of a line directive: the number ends at the first blank after
it, and the file is what the double quotes enclose. -/
def directiveParts (lexeme : Text) : Text × Text :=
  let s := (lexeme.drop 1).dropWhile isBlank
  let s := if (ascii ['l', 'i', 'n', 'e']).isPrefixOf s then (s.drop 4).dropWhile isBlank else s
  let quoted := (s.dropWhile fun c => !isBlank c).dropWhile isBlank
  (s.takeWhile fun c => !isBlank c, (quoted.drop 1).dropLast)

/-- The failure of a rule that has no case for the text. -/
def emptyToken : Exn := .failure "lexing: empty token"

/-! ### Flags of line directives -/

inductive FlagsCase where
  | blanks | code | nl | eof
  deriving DecidableEq

def flagsRules : List (Pattern UInt8 × FlagsCase) :=
  [(.regex (.plus blank), .blanks), (.regex integer, .code), (.regex nl, .nl),
    (.eof .empty, .eof)]

def scanFlags : ℕ → State lib → List ℤ → Text → Except Exn (List ℤ × State lib × Text)
  | 0, _, _, _ => .error .outOfFuel
  | fuel + 1, state, acc, buf =>
    match lex flagsRules buf with
    | none => .error emptyToken
    | some (.blanks, lexeme, rest) => do
      let (_, cursor) ← sync state.toCursor lexeme
      scanFlags fuel { state with toCursor := cursor } acc rest
    | some (.code, lexeme, rest) => do
      let (_, cursor) ← sync state.toCursor lexeme
      let code ← intOfString lexeme
      scanFlags fuel { state with toCursor := cursor } (code :: acc) rest
    | some (.nl, lexeme, rest) => do
      let state ← pushNewline state lexeme
      .ok (acc.reverse, state, rest)
    | some (.eof, lexeme, rest) => do
      let (_, cursor) ← sync state.toCursor lexeme
      .ok (acc.reverse, { state with toCursor := cursor }, rest)

/-! ### Strings -/

inductive StringCase where
  | nl | eof | control | quote | esc | undefined | char
  deriving DecidableEq

def stringRules : List (Pattern UInt8 × StringCase) :=
  [(.regex nl, .nl), (.eof .empty, .eof), (.regex (oneOf ['\t', '\r', '\x08']), .control),
    (.regex (chr '"'), .quote), (.regex esc, .esc), (.regex (.seq (chr '\\') wild), .undefined),
    (.regex wild, .char)]

def scanString : ℕ → Thread → Cursor lib → Text → Except Exn (Thread × Cursor lib × Text)
  | 0, _, _, _ => .error .outOfFuel
  | fuel + 1, thread, state, buf =>
    match lex stringRules buf with
    | none => .error emptyToken
    | some (.nl, _, _) => fail thread.opening .brokenString
    | some (.eof, _, _) => fail thread.opening .unterminatedString
    | some (.control, lexeme, _) => do
      let (region, _) ← sync state lexeme
      fail region .invalidCharacterInString
    | some (.quote, lexeme, rest) => do
      let (_, state) ← sync state lexeme
      .ok (pushChar (ord '"') thread, state, rest)
    | some (.esc, lexeme, rest) => do
      let (_, state) ← sync state lexeme
      scanString fuel (pushString lexeme thread) state rest
    | some (.undefined, lexeme, _) => do
      let (region, _) ← sync state lexeme
      fail region .undefinedEscapeSequence
    | some (.char, lexeme, rest) => do
      let (_, state) ← sync state lexeme
      scanString fuel (pushChar (lexeme.headD 0) thread) state rest

/-! ### Comments -/

/-- The bytes of one character: the thread, the error, the decoder and the text left. -/
def scanUtf8 : Thread → lib.Decoder → Text →
    Except Exn (Thread × Option LexError × lib.Decoder × Text)
  | thread, _, [] => fail thread.opening .unterminatedComment
  | thread, decoder, c :: rest =>
    let thread := pushChar c thread
    match lib.decode decoder c with
    | (decoder, .uchar) => .ok (thread, none, decoder, rest)
    | (decoder, .malformed) => .ok (thread, some .invalidUtf8Sequence, decoder, rest)
    | (decoder, .await) => scanUtf8 thread decoder rest
    | (_, .end_) => .error .assertFalse

/-- The last case of `scan_block` and of `scan_line`, up to the recursive call: a character of
the comment. -/
def scanUchar (thread : Thread) (state : Cursor lib) (buf : Text) :
    Except Exn (Thread × Cursor lib × Text) := do
  let len := thread.len
  let (thread, status, decoder, rest) ← scanUtf8 thread state.decoder buf
  let delta := thread.len - len
  let pos := state.pos.shiftOneUchar delta
  match status with
  | none => .ok (thread, ⟨pos, decoder⟩, rest)
  | some err => do
    let region ← Region.make state.pos pos
    fail region err

inductive BlockCase where
  | opening | closing | nl | eof | char
  deriving DecidableEq

def blockRules : List (Pattern UInt8 × BlockCase) :=
  [(.regex (.alt (chr '"') (word ['(', '*'])), .opening), (.regex (word ['*', ')']), .closing),
    (.regex nl, .nl), (.eof .empty, .eof), (.regex wild, .char)]

def scanBlock : ℕ → Thread → Cursor lib → Text → Except Exn (Thread × Cursor lib × Text)
  | 0, _, _, _ => .error .outOfFuel
  | fuel + 1, thread, state, buf =>
    match lex blockRules buf with
    | none => .error emptyToken
    | some (.opening, lexeme, rest) => do
      let opening := thread.opening
      let (opening', state) ← sync state lexeme
      let thread := pushString lexeme thread
      let thread := { thread with opening := opening' }
      let (thread, state, rest) ←
        if lexeme = ascii ['"'] then scanString (rest.length + 1) thread state rest
        else scanBlock fuel thread state rest
      let thread := { thread with opening := opening }
      scanBlock fuel thread state rest
    | some (.closing, lexeme, rest) => do
      let (_, state) ← sync state lexeme
      .ok (pushString lexeme thread, state, rest)
    | some (.nl, lexeme, rest) =>
      scanBlock fuel (pushString lexeme thread)
        { state with pos := state.pos.newLine lexeme } rest
    | some (.eof, _, _) => fail thread.opening .unterminatedComment
    | some (.char, _, _) => do
      let (thread, state, rest) ← scanUchar thread state buf
      scanBlock fuel thread state rest

inductive LineCase where
  | nl | eof | char
  deriving DecidableEq

def lineRules : List (Pattern UInt8 × LineCase) :=
  [(.regex nl, .nl), (.eof .empty, .eof), (.regex wild, .char)]

def scanLine : ℕ → Thread → Cursor lib → Text → Except Exn (Thread × Cursor lib × Text)
  | 0, _, _, _ => .error .outOfFuel
  | fuel + 1, thread, state, buf =>
    match lex lineRules buf with
    | none => .error emptyToken
    | some (.nl, lexeme, rest) =>
      .ok (pushString lexeme thread, { state with pos := state.pos.newLine lexeme }, rest)
    | some (.eof, _, _) => fail thread.opening .unterminatedComment
    | some (.char, _, _) => do
      let (thread, state, rest) ← scanUchar thread state buf
      scanLine fuel thread state rest

/-! ### Tokens and markup -/

/-- The cases of the rule `scan`. -/
inductive ScanCase where
  | newline | space | tabs | ident | constr | bytes | nat | mtz | int | symbol | eof
  | string | block | line | directive | minus | negativeBytes | other
  deriving DecidableEq

def scanRules : List (Pattern UInt8 × ScanCase) :=
  [(.regex nl, .newline), (.regex (.plus (chr ' ')), .space), (.regex (.plus (chr '\t')), .tabs),
    (.regex Pascaligo.ident, .ident), (.regex Pascaligo.constr, .constr), (.regex bytes, .bytes),
    (.regex (.seq natural (chr 'n')), .nat), (.regex (.seq natural (word ['m', 't', 'z'])), .mtz),
    (.regex integer, .int), (.regex symbol, .symbol), (.eof .empty, .eof),
    (.regex (chr '"'), .string), (.regex (word ['(', '*']), .block),
    (.regex (word ['/', '/']), .line), (.regex lineDirective, .directive),
    (.regex (chr '-'), .minus),
    (.regex (.seq (chr '-') (.seq (word ['0', 'x']) (.opt byteSeq))), .negativeBytes),
    (.regex wild, .other)]

variable (lib) in
/-- How the action of a case goes on: with the rule `scan`, with a token to enqueue, or with
`scan` and then an error about a minus sign. -/
inductive Next where
  | again (state : State lib) (rest : Text)
  | token (token : Token lib.Hex) (state : State lib) (rest : Text)
  | minus (region : Region) (state : State lib) (rest : Text)

/-- The token of a case without markup or recursion. -/
def finish (mk : Cursor lib → Text → Except Exn (Token lib.Hex × Cursor lib))
    (state : State lib) (lexeme rest : Text) : Except Exn (Next lib) := do
  let (token, cursor) ← mk state.toCursor lexeme
  .ok (.token token { state with toCursor := cursor } rest)

/-- The actions of the cases of `scan`. -/
def scanAction (case : ScanCase) (state : State lib) (lexeme rest : Text) :
    Except Exn (Next lib) :=
  match case with
  | .newline => do
    let state ← pushNewline state lexeme
    .ok (.again state rest)
  | .space => do
    let state ← pushSpace state lexeme
    .ok (.again state rest)
  | .tabs => do
    let state ← pushTabs state lexeme
    .ok (.again state rest)
  | .ident => finish mkIdent state lexeme rest
  | .constr => finish mkConstr state lexeme rest
  | .bytes => finish (mkBytes (lexeme.drop 2)) state lexeme rest
  | .nat => finish mkNat state lexeme rest
  | .mtz => finish mkMtz state lexeme rest
  | .int => finish mkInt state lexeme rest
  | .symbol => finish mkSym state lexeme rest
  | .eof => finish mkEof state lexeme rest
  | .string => do
    let (opening, cursor) ← sync state.toCursor lexeme
    let thread : Thread := { opening := opening, len := 1, acc := ascii ['"'] }
    let (thread, cursor, rest) ← scanString (rest.length + 1) thread cursor rest
    let (token, cursor) ← mkString thread cursor
    .ok (.token token { state with toCursor := cursor } rest)
  | .block => do
    let (opening, cursor) ← sync state.toCursor lexeme
    let thread : Thread := { opening := opening, len := 2, acc := ascii ['*', '('] }
    let (thread, cursor, rest) ← scanBlock (rest.length + 1) thread cursor rest
    let state ← pushBlock thread { state with toCursor := cursor }
    .ok (.again state rest)
  | .line => do
    let (opening, cursor) ← sync state.toCursor lexeme
    let thread : Thread := { opening := opening, len := 2, acc := ascii ['/', '/'] }
    let (thread, cursor, rest) ← scanLine (rest.length + 1) thread cursor rest
    let state ← pushLine thread { state with toCursor := cursor }
    .ok (.again state rest)
  | .directive => do
    let (_, cursor) ← sync state.toCursor lexeme
    let (_, state, rest) ←
      scanFlags (rest.length + 1) { state with toCursor := cursor } [] rest
    let line ← intOfString (directiveParts lexeme).1
    let file := basename (directiveParts lexeme).2
    let pos := state.pos.set file line 0
    .ok (.again { state with pos := pos } rest)
  | .minus => do
    let (region, cursor) ← sync state.toCursor lexeme
    .ok (.minus region { state with toCursor := cursor } rest)
  | .negativeBytes => do
    let (region, _) ← sync state.toCursor lexeme
    fail region .negativeByteSequence
  | .other => do
    let (region, _) ← sync state.toCursor lexeme
    fail region (.unexpectedCharacter (lexeme.headD 0))

/-- One case of `scan`. -/
def scanStep (state : State lib) (buf : Text) : Except Exn (Next lib) :=
  match lex scanRules buf with
  | none => .error emptyToken
  | some (case, lexeme, rest) => scanAction case state lexeme rest

/-- The error about a minus sign, when the next token is known. -/
def minusError {α : Type} (region : Region) (state : State lib) : Except Exn α :=
  match state.units.peek with
  | none => .error .assertFalse
  | some (_, (.Space _ :: _, token)) | some (_, (.Tabs _ :: _, token)) =>
    if token.isInt then fail region .orphanMinus else fail region .unterminatedInteger
  | some _ => fail region .unterminatedInteger

def scan : ℕ → State lib → Text → Except Exn (State lib × Text)
  | 0, _, _ => .error .outOfFuel
  | fuel + 1, state, buf => do
    match ← scanStep state buf with
    | .again state rest => scan fuel state rest
    | .token token state rest => .ok (enqueue token state, rest)
    | .minus region state rest => do
      let (state, _) ← scan fuel state rest
      minusError region state

/-- The cases of the rule `init`: a byte order mark or not. -/
def initRules : List (Pattern UInt8 × Bool) := [(.regex utf8Bom, true), (.regex wild, false)]

def init (state : State lib) (buf : Text) : Except Exn (State lib × Text) :=
  match lex initRules buf with
  | none => .error emptyToken
  | some (true, lexeme, rest) => do
    let state ← pushBom state lexeme
    scan (rest.length + 1) state rest
  | some (false, _, _) => scan (buf.length + 1) state buf

end Ligo.Pascaligo.Lexer
