import Ligo.Pascaligo.LookAhead
import Ligo.Simplify.Pascaligo

/-!
# Byte literals of PascaLIGO

A byte literal `0x…` should denote the bytes of its pairs of digits, however it is spelt
(`Denotes`). The lexer keeps the text of the digits beside their value, and the simplifier
takes the text: the literal consists of the characters of the spelling, underscores included
(`byteLiteral_eq`). So it denotes its bytes exactly when there are none (`denotes_iff`).
-/

namespace Ligo.Simplify.Pascaligo

open Ligo.Pascaligo Lexing
open Ligo.Pascaligo.Lexer (State byteSeq scanRules scanStep scanAction finish)
open AstSimplified (Expression)

/-! ### The value of a literal -/

/-- The value of a hexadecimal digit. -/
def hexaValue (c : UInt8) : UInt8 := if Token.isDigit c then c - ord '0' else c - ord 'A' + 10

/-- The values of the pairs of digits. -/
def digitPairs : Text → List UInt8
  | a :: b :: seq => (16 * hexaValue a + hexaValue b) :: digitPairs seq
  | _ => []

/-- The bytes of a sequence of digits with underscores. -/
def byteSeqValue (seq : Text) : List UInt8 := digitPairs (seq.filter (· != ord '_'))

theorem two_mul_length_digitPairs (seq : Text) : 2 * (digitPairs seq).length ≤ seq.length := by
  induction seq using digitPairs.induct with
  | case1 a b seq ih =>
    rw [digitPairs, List.length_cons, List.length_cons, List.length_cons]
    omega
  | case2 seq h =>
    rw [digitPairs]
    · exact Nat.zero_le _
    · exact h

/-- There are fewer bytes than characters. -/
theorem eq_nil_of_byteSeqValue {seq : Text} (h : byteSeqValue seq = seq) : seq = [] := by
  have hpairs := two_mul_length_digitPairs (seq.filter (· != ord '_'))
  have hfilter := List.length_filter_le (· != ord '_') seq
  have hlen : (digitPairs (seq.filter (· != ord '_'))).length = seq.length := congrArg List.length h
  exact List.eq_nil_of_length_eq_zero (by omega)

example : byteSeqValue (ascii ['0', 'A', '_', 'F', 'F']) = [10, 255] := by decide

/-! ### What the front end makes of it -/

/-- The lexeme of the digits. -/
def byteLexeme (seq : Text) : Text := ascii ['0', 'x'] ++ seq

/-- The simplification of the byte literal at the start of a text. -/
def byteLiteral {lib : Libraries} (state : State lib) (buf : Text) : Raising (Option Expression) :=
  match scanStep state buf with
  | .ok (.token (.Bytes b) _ _) => some <$> simplExpression (.eBytes b.value.1)
  | _ => pure none

/-- A text from which the lexer takes the lexeme of the digits. -/
def TakesBytes (seq rest : Text) : Prop :=
  lex scanRules (byteLexeme seq ++ rest) = some (.bytes, byteLexeme seq, rest)

section Literal

variable {seq rest : Text}

/-- The literal consists of the characters of the digits. -/
theorem byteLiteral_eq {lib : Libraries} (state : State lib) (h : TakesBytes seq rest) :
    byteLiteral state (byteLexeme seq ++ rest) = pure (some (.eLiteral (.bytes seq))) := by
  rw [byteLiteral, scanStep, h]
  dsimp only
  rw [scanAction, finish, Lexer.mkBytes, Lexer.sync_eq]
  rfl

/-- Neither `0x` nor a text that starts with it matches. -/
def excludes : Pattern UInt8 → Prop
  | .regex r => (r.deriv (ord '0')).deriv (ord 'x') = .never
  | .eof r => (r.deriv (ord '0')).deriv (ord 'x') = .never

theorem not_matches_of_excludes {p : Pattern UInt8} (h : excludes p) (v : Text) :
    ¬ p.Matches (byteLexeme seq) v := by
  have hregex : ∀ r : Regex UInt8, (r.deriv (ord '0')).deriv (ord 'x') = .never →
      ¬ Matches r (byteLexeme seq) := by
    intro r hr hmatch
    have hderiv := matches_deriv.2 (matches_deriv.2 hmatch)
    rw [hr] at hderiv
    exact matches_never hderiv
  cases p with
  | regex r => exact hregex r h
  | eof r => exact fun hmatch => hregex r h hmatch.2

theorem scanRules_exclude : ∀ x ∈ scanRules, x.2 = .bytes ∨ excludes x.1 := by
  simp only [scanRules, List.forall_mem_cons]
  refine ⟨.inr rfl, .inr rfl, .inr rfl, .inr rfl, .inr rfl, .inl trivial, .inr rfl, .inr rfl, .inr rfl,
    .inr rfl, .inr rfl, .inr rfl, .inr rfl, .inr rfl, .inr rfl, .inr rfl, .inr rfl, .inr rfl,
    List.forall_mem_nil _⟩

/-- Every well-formed lexeme is taken. -/
theorem takesBytes (h : Matches (.opt byteSeq) seq) : TakesBytes seq [] := by
  have hbytes : Matches Lexer.bytes (byteLexeme seq) := matches_seq.2 ⟨_, _, rfl, matches_word.2 rfl, h⟩
  have hmem : (.regex Lexer.bytes, .bytes) ∈ scanRules := by simp [scanRules]
  have hmatch : (Pattern.regex Lexer.bytes).Matches (byteLexeme seq) [] := hbytes
  rw [TakesBytes, List.append_nil]
  refine lex_all hmem hmatch fun x hx hx' => ?_
  rcases scanRules_exclude x hx with hcase | hexcludes
  · exact hcase
  · exact (not_matches_of_excludes hexcludes [] hx').elim

theorem matches_hexaDigit {w : Text} (h : Matches Lexer.hexaDigit w) :
    ∃ a, w = [a] ∧ (a != ord '_') = true := by
  rcases matches_alt.1 h with h | h
  · obtain ⟨a, rfl, ha⟩ := matches_one.1 h
    refine ⟨a, rfl, bne_iff_ne.2 ?_⟩
    rintro rfl
    exact absurd ha (by decide)
  · obtain ⟨a, rfl, ha⟩ := matches_one.1 h
    refine ⟨a, rfl, bne_iff_ne.2 ?_⟩
    rintro rfl
    exact absurd ha (by decide)

/-- A sequence starts with a pair of digits. -/
theorem byteSeqValue_ne_nil (h : Matches byteSeq seq) : byteSeqValue seq ≠ [] := by
  obtain ⟨w, tl, rfl, hw⟩ : ∃ w tl, seq = w ++ tl ∧ Matches Lexer.byte w := by
    rcases matches_alt.1 h with h | h
    · exact ⟨seq, [], (List.append_nil seq).symm, h⟩
    · obtain ⟨w, tl, rfl, hw, -⟩ := matches_seq.1 h
      exact ⟨w, tl, rfl, hw⟩
  obtain ⟨u, v, rfl, hu, hv⟩ := matches_seq.1 hw
  obtain ⟨a, rfl, ha⟩ := matches_hexaDigit hu
  obtain ⟨b, rfl, hb⟩ := matches_hexaDigit hv
  have hfilter : (a :: b :: tl).filter (· != ord '_') = a :: b :: tl.filter (· != ord '_') := by
    simp only [List.filter_cons, ha, hb, if_true]
  rw [byteSeqValue, show [a] ++ [b] ++ tl = a :: b :: tl from rfl, hfilter]
  exact List.cons_ne_nil _ _

/-- The literal of a sequence denotes its bytes, and every spelling of the bytes gives the
same literal. -/
structure Denotes (seq : Text) : Prop where
  value : ∀ lib (state : State lib) rest, TakesBytes seq rest →
    byteLiteral state (byteLexeme seq ++ rest) = pure (some (.eLiteral (.bytes (byteSeqValue seq))))
  spelling : ∀ seq', Matches (.opt byteSeq) seq' → byteSeqValue seq' = byteSeqValue seq →
    ∀ lib (state state' : State lib) rest rest', TakesBytes seq rest → TakesBytes seq' rest' →
      byteLiteral state (byteLexeme seq ++ rest) = byteLiteral state' (byteLexeme seq' ++ rest')

/-- A literal denotes its bytes exactly when there are none. -/
theorem denotes_iff (h : Matches (.opt byteSeq) seq) : Denotes seq ↔ seq = [] := by
  constructor
  · intro hdenotes
    have htakes := takesBytes h
    -- the value is the one that a lexer over ASCII gives
    let state := (openTokenStream asciiLibraries none []).state
    have hvalue := (byteLiteral_eq state htakes).symm.trans (hdenotes.value _ state [] htakes)
    have hbytes := Option.some.inj (Except.ok.inj (Except.ok.inj hvalue))
    rw [Expression.eLiteral.injEq, AstTyped.Literal.bytes.injEq] at hbytes
    exact eq_nil_of_byteSeqValue hbytes.symm
  · rintro rfl
    refine ⟨fun lib state rest htakes => byteLiteral_eq state htakes, ?_⟩
    intro seq' h' hvalue lib state state' rest rest' htakes htakes'
    have hseq' : seq' = [] := by
      rcases matches_alt.1 h' with h' | h'
      · exact (byteSeqValue_ne_nil h' hvalue).elim
      · exact matches_empty.1 h'
    rw [byteLiteral_eq state htakes, byteLiteral_eq state' htakes', hseq']

/-- `0x0A` is not the byte 10. -/
theorem not_denotes_0A : ¬ Denotes (ascii ['0', 'A']) := by
  have h : Matches (.opt byteSeq) (ascii ['0', 'A']) :=
    matches_alt.2 (.inl (matches_alt.2 (.inl (matches_seq.2
      ⟨[ord '0'], [ord 'A'], rfl, matches_alt.2 (.inl (.one rfl)), matches_alt.2 (.inr (.one rfl))⟩))))
  rw [denotes_iff h]
  exact List.cons_ne_nil _ _

/-- `0x` is the empty sequence of bytes. -/
theorem denotes_nil : Denotes [] := (denotes_iff (matches_alt.2 (.inr .empty))).2 rfl

end Literal

end Ligo.Simplify.Pascaligo
