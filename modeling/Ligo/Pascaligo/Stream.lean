import Ligo.Pascaligo.Lexer

/-!
# Token streams

The instance of the lexer that a parser reads from: the state behind a reference, the flag
of the first call and the text that is left. Reading a token may scan one unit more, to
check what follows the token; such units wait in the queue of the state.

The regions that are patched into the lexing buffer for the parser are left out.
-/

namespace Ligo.Pascaligo

open Lexer

variable (lib : Libraries)

structure Stream where
  state : State lib
  firstCall : Bool
  buffer : Text

/-- The instance for a file, or for the standard input, whose content is `source`. -/
def openTokenStream (filePathOpt : Option Text) (source : Text) : Stream lib :=
  let filePath :=
    match filePathOpt with
    | none => []
    | some filePath => if filePath = ascii ['-'] then [] else filePath
  let pos := Pos.min.setFile filePath
  { state :=
      { pos := pos, decoder := lib.decoder, units := .empty, markup := [], last := .ghost }
    firstCall := true
    buffer := source }

variable {lib}

namespace Stream

def scan (s : Stream lib) : Except Exn (Stream lib) := do
  let (state, rest) ←
    if s.firstCall then init s.state s.buffer
    else Lexer.scan (s.buffer.length + 1) s.state s.buffer
  .ok { state := state, firstCall := false, buffer := rest }

def nextToken (s : Stream lib) : Except Exn (Option (LexUnit lib) × Stream lib) := do
  let s ← s.scan
  match s.state.units.peek with
  | none => .error .assertFalse
  | some (units, extToken) =>
    .ok (some extToken, { s with state := { s.state with units := units } })

def checkRightContext (token : Token lib.Hex) (s : Stream lib) : Except Exn (Stream lib) :=
  if token.isInt || token.isBytes then do
    match ← s.nextToken with
    | (some ([], next), s) => do
      let pos := token.toRegion.stop
      let region ← Region.make pos pos
      if token.isBytes && next.isInt then fail region .oddLengthedBytes
      else if next.isIdent || next.isString || next.isBytes || next.isInt then
        fail region .missingBreak
      else .ok s
    | (_, s) => .ok s
  else if token.isIdent || token.isString then do
    match ← s.nextToken with
    | (some ([], next), s) =>
      if next.isIdent || next.isString || next.isBytes || next.isInt then do
        let pos := token.toRegion.stop
        let region ← Region.make pos pos
        fail region .missingBreak
      else .ok s
    | (_, s) => .ok s
  else .ok s

/-- The token with the markup that is logged with it. -/
def readToken : ℕ → Stream lib → Except Exn (LexUnit lib × Stream lib)
  | 0, _ => .error .outOfFuel
  | fuel + 1, s =>
    match s.state.units.deq with
    | none => do
      let s ← s.scan
      readToken fuel s
    | some (units, (leftMark, token)) => do
      let state := { s.state with units := units, last := token.toRegion }
      let s ← checkRightContext token { s with state := state }
      .ok ((leftMark, token), s)

/-- `read_token`: after one call of `scan` the queue is not empty. -/
def read (s : Stream lib) : Except Exn (LexUnit lib × Stream lib) := readToken 2 s

end Stream

/-! ### Tracing -/

/-- `output_token` in the mode `Copy`. -/
def outputToken (unit : LexUnit lib) : Text :=
  (unit.1.foldl (fun acc markup => markup.toLexeme :: acc) [unit.2.toLexeme]).flatten

/-- The loop of `trace`: the units that are logged, up to the end of the file. -/
def iter : ℕ → Stream lib → Except Exn (List (LexUnit lib))
  | 0, _ => .error .outOfFuel
  | fuel + 1, s => do
    let (unit, s) ← s.read
    if unit.2.isEof then .ok [unit]
    else do
      let units ← iter fuel s
      .ok (unit :: units)

variable (lib) in
/-- Reading the source up to the end raises no exception, and gives these units. -/
def Lexes (filePathOpt : Option Text) (source : Text) (units : List (LexUnit lib)) : Prop :=
  ∃ fuel, iter fuel (openTokenStream lib filePathOpt source) = .ok units

/-- The output in the mode `Copy`. -/
def copy (units : List (LexUnit lib)) : Text := units.flatMap outputToken

end Ligo.Pascaligo
