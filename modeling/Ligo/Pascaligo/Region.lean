import Mathlib.Algebra.Order.Ring.Int

/-!
# Positions, regions and exceptions of the lexer

Positions in a source text with their byte and point counters, regions between two
positions of one file, and the exceptions that the lexer of PascaLIGO can raise: its own
error with a region, and those of the functions it calls.

The printers of positions and regions are left out, and so are the texts of the errors.
-/

namespace Ligo.Pascaligo

/-- The bytes of a text. -/
abbrev Text := List UInt8

/-- The byte of an ASCII character. -/
def ord (c : Char) : UInt8 := c.toUInt8

/-- The bytes of an ASCII text. -/
def ascii (cs : List Char) : Text := cs.map ord

/-! ### Positions -/

/-- A position of the generated lexing engine. -/
structure LexingPosition where
  posFname : Text
  posLnum : ℤ
  posBol : ℤ
  posCnum : ℤ
  deriving DecidableEq

/-- A position, with the counters of code points beside those of bytes. -/
structure Pos where
  byte : LexingPosition
  pointNum : ℤ
  pointBol : ℤ
  deriving DecidableEq

namespace Pos

variable (p : Pos)

def setFile (file : Text) : Pos := { p with byte := { p.byte with posFname := file } }

def setLine (line : ℤ) : Pos := { p with byte := { p.byte with posLnum := line } }

def setOffset (offset : ℤ) : Pos :=
  { p with byte := { p.byte with posCnum := p.byte.posBol + offset } }

def set (file : Text) (line offset : ℤ) : Pos := ((p.setFile file).setLine line).setOffset offset

def shiftBytes (len : ℤ) : Pos :=
  { p with byte := { p.byte with posCnum := p.byte.posCnum + len }
           pointNum := p.pointNum + len }

def shiftOneUchar (len : ℤ) : Pos :=
  { p with byte := { p.byte with posCnum := p.byte.posCnum + len }
           pointNum := p.pointNum + 1 }

def addNl : Pos :=
  { p with byte := { p.byte with posLnum := p.byte.posLnum + 1, posBol := p.byte.posCnum }
           pointBol := p.pointNum }

def newLine (string : Text) : Pos := (p.shiftBytes string.length).addNl

def file : Text := p.byte.posFname

def byteOffset : ℤ := p.byte.posCnum

def ghost : Pos := ⟨⟨[], 0, 0, -1⟩, -1, -1⟩

def min : Pos := ⟨⟨[], 1, 0, 0⟩, 0, 0⟩

@[simp] theorem file_shiftBytes (len : ℤ) : (p.shiftBytes len).file = p.file := rfl

@[simp] theorem file_shiftOneUchar (len : ℤ) : (p.shiftOneUchar len).file = p.file := rfl

@[simp] theorem file_newLine (string : Text) : (p.newLine string).file = p.file := rfl

/-- The three ways of moving a position move its offset in bytes by what was read. -/
@[simp] theorem byteOffset_shiftBytes (len : ℤ) :
    (p.shiftBytes len).byteOffset = p.byteOffset + len := rfl

@[simp] theorem byteOffset_shiftOneUchar (len : ℤ) :
    (p.shiftOneUchar len).byteOffset = p.byteOffset + len := rfl

@[simp] theorem byteOffset_newLine (string : Text) :
    (p.newLine string).byteOffset = p.byteOffset + string.length := rfl

end Pos

/-! ### Regions and exceptions -/

/-- A region of a file. -/
structure Region where
  start : Pos
  stop : Pos
  deriving DecidableEq

/-- A value with its region. -/
structure Reg (α : Type) where
  region : Region
  value : α

/-- The errors of the lexer. -/
inductive LexError where
  | invalidUtf8Sequence
  | unexpectedCharacter (c : UInt8)
  | undefinedEscapeSequence
  | missingBreak
  | unterminatedString
  | unterminatedInteger
  | oddLengthedBytes
  | unterminatedComment
  | orphanMinus
  | nonCanonicalZero
  | negativeByteSequence
  | brokenString
  | invalidCharacterInString
  | reservedName
  deriving DecidableEq

/-- The exceptions. `error` is `Lexer.Error` and `invalid` is `Region.Invalid`; `outOfFuel`
belongs to the model and is never raised. -/
inductive Exn where
  | error (region : Region) (value : LexError)
  | failure (message : String)
  | invalidArgument (message : String)
  | assertFalse
  | invalid
  | outOfFuel
  deriving DecidableEq

/-- The exception is the lexer's own. -/
def Exn.IsError (e : Exn) : Prop := ∃ region value, e = .error region value

namespace Region

def make (start stop : Pos) : Except Exn Region :=
  if start.file ≠ stop.file ∨ start.byteOffset > stop.byteOffset then .error .invalid
  else .ok ⟨start, stop⟩

def ghost : Region := ⟨Pos.ghost, Pos.ghost⟩

/-- A region is made when it does not end before it starts, in one file. -/
theorem make_eq_ok {start stop : Pos} (hfile : start.file = stop.file)
    (hle : start.byteOffset ≤ stop.byteOffset) : make start stop = .ok ⟨start, stop⟩ := by
  unfold make
  rw [if_neg]
  rintro (h | h)
  · exact h hfile
  · omega

end Region

/-- Raising an error of the lexer. -/
def fail {α : Type} (region : Region) (value : LexError) : Except Exn α :=
  .error (.error region value)

end Ligo.Pascaligo
