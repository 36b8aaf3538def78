import Mathlib.Data.Rat.Lemmas
import Mathlib.Tactic.FieldSimp
import Mathlib.Tactic.Positivity
import Mathlib.Tactic.Ring
import Ligo.Camligo.Lexer
import Ligo.Ligodity.Lexer
import Ligo.Pascaligo.Lexemes
import Ligo.Simplify.Camligo
import Ligo.Simplify.Ligodity

/-!
# Literals of tez

An amount of tez can be spelt as a whole or a decimal number in Ligodity, and with two digits
after the point in Camligo (`Spelling`). The literal should be the amount in mutez, exactly, and
there should be none when the amount is not a whole number of mutez (`Denotes`), so that the
spellings of one amount give one literal (`Denotes.literal_eq`).

The decimal numbers of Ligodity are scaled to mutez, by exact arithmetic (`formatTz_eq`). A
whole number is taken as it is, as if it were one of mutez, and Camligo counts hundredths of a
tez. So the literal denotes the amount when that is zero, or the spelling is a decimal one of
Ligodity and the host's integers reach the amount, and in no other case (`tez_denotes_iff`).
-/

namespace Ligo

open Lexing
open Pascaligo (Text ord ascii digit)
open Pascaligo.Token (isDigit digitsValue not_mem_of_digits)
open AstSimplified (Expression)
open Simplify.Pascaligo (zToInt zToInt_eq_pure)

namespace Simplify.Tez

/-! ### Digits -/

/-- A number of digits. -/
structure Digits where
  text : Text
  ne_nil : text ≠ []
  all_isDigit : text.all isDigit = true

def Digits.value (ds : Digits) : ℕ := digitsValue ds.text

/-- Digits at the left weigh more by the number of those at the right. -/
theorem digitsValue_append (a b : Text) :
    digitsValue (a ++ b) = digitsValue a * 10 ^ b.length + digitsValue b := by
  induction b using List.reverseRecOn with
  | nil =>
    rw [List.append_nil, List.length_nil, pow_zero, Nat.mul_one]
    rfl
  | append_singleton b d ih =>
    have hsnoc : ∀ ds : Text, digitsValue (ds ++ [d]) = 10 * digitsValue ds + (d.toNat - 48) :=
      fun ds => List.foldl_append ..
    rw [← List.append_assoc, hsnoc, hsnoc, ih, List.length_append, List.length_singleton, pow_succ]
    ring

/-- Zeros have no value. -/
theorem digitsValue_replicate (k : ℕ) : digitsValue (List.replicate k (ord '0')) = 0 := by
  induction k with
  | zero => rfl
  | succ k ih =>
    have h := digitsValue_append (ascii ['0']) (List.replicate k (ord '0'))
    rw [ih, show digitsValue (ascii ['0']) = 0 from rfl, Nat.zero_mul] at h
    exact h

/-- There is a first digit. -/
theorem exists_cons (ds : Digits) : ∃ d tl, ds.text = d :: tl ∧ (d :: tl).all isDigit = true := by
  obtain ⟨text, hne, hall⟩ := ds
  obtain ⟨d, tl, rfl⟩ := List.exists_cons_of_ne_nil hne
  exact ⟨d, tl, rfl, hall⟩

theorem matches_digit {d : UInt8} (h : isDigit d = true) : Matches digit [d] := .one h

/-- Digits are the words of `digit+`. -/
theorem matches_digits (ds : Digits) : Matches (.plus digit) ds.text := by
  obtain ⟨text, hne, hall⟩ := ds
  have hstar : ∀ tl : Text, tl.all isDigit = true → Matches (.star digit) tl := by
    intro tl
    induction tl with
    | nil => exact fun _ => .starNil
    | cons d tl ih =>
      intro h
      rw [List.all_cons, Bool.and_eq_true] at h
      exact .starCons (matches_digit h.1) (ih h.2)
  obtain ⟨d, tl, rfl⟩ := List.exists_cons_of_ne_nil hne
  rw [List.all_cons, Bool.and_eq_true] at hall
  exact .seq (matches_digit hall.1) (hstar tl hall.2)

/-! ### Spellings -/

/-- The value of a whole number with underscores. -/
def integerValue (n : Text) : ℤ :=
  if n.head? = some (ord '-') then -(digitsValue (n.filter isDigit) : ℤ)
  else digitsValue (n.filter isDigit)

/-- The literals of tez: whole and decimal numbers in Ligodity, and numbers with two digits
after the point in Camligo. -/
inductive Spelling where
  | integer (n : Text) (h : Matches Pascaligo.Lexer.integer n)
  | decimal (integral fractional : Digits)
  | camligo (n d : Digits) (h : d.text.length = 2)

namespace Spelling

def point (n d : Digits) : Text := n.text ++ ord '.' :: d.text

def text : Spelling → Text
  | .integer n _ => n ++ ascii ['t', 'z']
  | .decimal n d | .camligo n d _ => point n d ++ ascii ['t', 'z']

/-- The number of tez. -/
def value : Spelling → ℚ
  | .integer n _ => integerValue n
  | .decimal n d | .camligo n d _ => n.value + d.value / 10 ^ d.text.length

/-- The number of mutez. -/
def amount (s : Spelling) : ℚ := s.value * 10 ^ 6

end Spelling

/-- The literal that Ligodity makes of a text, unless it rejects it. -/
def ligodityLiteral (text : Text) : Option (Raising Expression) :=
  match Ligodity.Lexer.scanNumber text with
  | .ok (some (.Mtz n, [])) => some (Simplify.Ligodity.simplExpression none (.eMtz n.2))
  | _ => none

/-- The literal that Camligo makes of a text, unless it rejects it. -/
def camligoLiteral (text : Text) : Option (Raising Expression) :=
  match Camligo.Lexer.tokenNumber text with
  | .ok (some (.TZ n, [])) => some (Raising.lift (Simplify.Camligo.expressionMain (.ehTz n)))
  | _ => none

def Spelling.literal (s : Spelling) : Option (Raising Expression) :=
  match s with
  | .integer _ _ | .decimal _ _ => ligodityLiteral s.text
  | .camligo _ _ _ => camligoLiteral s.text

/-- The literal is the amount in mutez, and there is none when that is not a whole number. -/
structure Denotes (s : Spelling) : Prop where
  exact : ∀ z : ℤ, s.amount = z →
    ∃ n : OInt, n.val = z ∧ s.literal = some (pure (.eLiteral (.tez n)))
  rejected : s.literal = none ↔ ∀ z : ℤ, s.amount ≠ z

/-- The spellings of one amount give one literal. -/
theorem Denotes.literal_eq {s s' : Spelling} (h : Denotes s) (h' : Denotes s')
    (hamount : s.amount = s'.amount) : s.literal = s'.literal := by
  by_cases hwhole : ∃ z : ℤ, s.amount = z
  · obtain ⟨z, hz⟩ := hwhole
    obtain ⟨n, hn, hliteral⟩ := h.exact z hz
    obtain ⟨n', hn', hliteral'⟩ := h'.exact z (hamount ▸ hz)
    have heq : n = n' := Subtype.ext (hn.trans hn'.symm)
    rw [hliteral, hliteral', heq]
  · have hnone : ∀ z : ℤ, s.amount ≠ z := fun z hz => hwhole ⟨z, hz⟩
    rw [h.rejected.2 hnone, h'.rejected.2 (hamount ▸ hnone)]

/-! ### Choosing the case -/

/-- The letters that a spelling starts with. -/
def starts : Text := ascii ['0', '1', '2', '3', '4', '5', '6', '7', '8', '9', '-']

/-- The words are single letters. -/
def single : Regex UInt8 → Bool
  | .one _ => true
  | _ => false

/-- No word of the pattern starts like a spelling and has a `t` after that. -/
def avoids : Pattern UInt8 → Bool
  | .regex r | .eof r => single r || !r.letter (ord 't') || starts.all fun c => !r.first c

/-- A numeral starts with a digit. -/
theorem isDigit_mem_starts {d : UInt8} (h : isDigit d = true) : d ∈ starts := by
  have hall : ∀ n : Fin 256, isDigit (UInt8.ofNat n) = true → UInt8.ofNat n ∈ starts := by
    decide +kernel
  have hd := hall ⟨d.toNat, d.toNat_lt⟩
  rw [UInt8.ofNat_toNat] at hd
  exact hd h

/-- A text that is like a spelling: its first letter, and a `t` after it. -/
structure Like (w : Text) : Prop where
  start : ∃ c tl, w = c :: tl ∧ c ∈ starts ∧ ord 't' ∈ tl

/-- What is like a numeral is matched by no pattern that avoids numerals. -/
theorem Like.not_matches {w : Text} (hw : Like w) {p : Pattern UInt8} (h : avoids p = true) :
    ¬ p.Matches w [] := by
  obtain ⟨c, tl, rfl, hc, ht⟩ := hw.start
  -- a text like an amount has a `t` and starts with a digit or a minus sign
  have hregex : ∀ r : Regex UInt8,
      (single r || !r.letter (ord 't') || starts.all fun c => !r.first c) = true →
        ¬ Matches r (c :: tl) := by
    intro r hr hmatch
    have hletter := hmatch.letter (ord 't') (List.mem_cons_of_mem c ht)
    rw [hletter, Bool.not_true, Bool.or_false, Bool.or_eq_true] at hr
    rcases hr with hsingle | hstarts
    -- a rule of one letter does not match two
    · cases r with
      | one q =>
        obtain ⟨a, ha, -⟩ := matches_one.1 hmatch
        rw [(List.cons.inj ha).2] at ht
        cases ht
      | _ => cases hsingle
    · have hfirst := List.all_eq_true.1 hstarts c hc
      rw [hmatch.first c rfl] at hfirst
      cases hfirst
  cases p with
  | regex r => exact hregex r h
  | eof r => exact fun hmatch => hregex r h hmatch.2

/-- Only two rules of the lexer of Ligodity can match an amount. -/
theorem scanRules_avoid : ∀ x ∈ Ligodity.Lexer.scanRules,
    x.2 = .mtz ∨ x.2 = .decimalMtz ∨ avoids x.1 = true := by decide +kernel

/-- Only one rule of the lexer of Camligo can. -/
theorem tokenRules_avoid : ∀ x ∈ Camligo.Lexer.tokenRules, x.2 = .tz ∨ avoids x.1 = true := by
  decide +kernel

section Choice

variable {n : Text}

/-- A whole number has a sign and a number of digits and underscores. -/
theorem integer_cases (h : Matches Pascaligo.Lexer.integer n) :
    ∃ d tl, (n = ord '-' :: d :: tl ∨ n = d :: tl) ∧ isDigit d = true ∧
      ∀ c ∈ tl, isDigit c = true ∨ c = ord '_' := by
  obtain ⟨u, v, rfl, hu, hv⟩ := matches_seq.1 h
  obtain ⟨d, tl, rfl, hd, htl⟩ := Pascaligo.Token.natural_cases hv
  rcases matches_alt.1 hu with hu | hu
  · rw [Pascaligo.eq_of_matches_chr hu]
    exact ⟨d, tl, .inl rfl, hd, htl⟩
  · rw [matches_empty.1 hu]
    exact ⟨d, tl, .inr rfl, hd, htl⟩

/-- Amounts without a point are like numerals. -/
theorem like_integer (h : Matches Pascaligo.Lexer.integer n) : Like (n ++ ascii ['t', 'z']) := by
  have ht : ∀ tl : Text, ord 't' ∈ tl ++ ascii ['t', 'z'] := fun tl =>
    List.mem_append_right tl List.mem_cons_self
  obtain ⟨d, tl, rfl | rfl, hd, -⟩ := integer_cases h
  · exact ⟨ord '-', d :: tl ++ ascii ['t', 'z'], rfl, by decide, ht _⟩
  · exact ⟨d, tl ++ ascii ['t', 'z'], rfl, isDigit_mem_starts hd, ht _⟩

/-- Amounts with a point are like numerals. -/
theorem like_point (n d : Digits) : Like (Spelling.point n d ++ ascii ['t', 'z']) := by
  obtain ⟨c, tl, hn, hall⟩ := exists_cons n
  rw [List.all_cons, Bool.and_eq_true] at hall
  refine ⟨c, tl ++ ord '.' :: d.text ++ ascii ['t', 'z'], ?_, isDigit_mem_starts hall.1, ?_⟩
  · rw [Spelling.point, hn]
    rfl
  · exact List.mem_append_right _ List.mem_cons_self

/-- The rule for amounts without a point. -/
theorem regex_of_mtz {p : Pattern UInt8} (h : (p, .mtz) ∈ Ligodity.Lexer.scanRules) :
    p = .regex (.seq Pascaligo.Lexer.integer (Pascaligo.Lexer.word ['t', 'z'])) := by
  simpa [Ligodity.Lexer.scanRules] using h

/-- The rule for amounts with a point. -/
theorem regex_of_decimalMtz {p : Pattern UInt8} (h : (p, .decimalMtz) ∈ Ligodity.Lexer.scanRules) :
    p = .regex (.seq Ligodity.Lexer.decimal (Pascaligo.Lexer.word ['t', 'z'])) := by
  simpa [Ligodity.Lexer.scanRules] using h

/-- The suffix after a numeral. -/
theorem matches_tz {r : Regex UInt8} (h : Matches r n) :
    Matches (.seq r (Pascaligo.Lexer.word ['t', 'z'])) (n ++ ascii ['t', 'z']) :=
  .seq h (matches_word.2 rfl)

/-- A whole number is taken by its own rule: it has no point. -/
theorem lex_integer (h : Matches Pascaligo.Lexer.integer n) :
    lex Ligodity.Lexer.scanRules (n ++ ascii ['t', 'z']) =
      some (.mtz, n ++ ascii ['t', 'z'], []) := by
  have hmem : (.regex (.seq Pascaligo.Lexer.integer (Pascaligo.Lexer.word ['t', 'z'])), .mtz) ∈
      Ligodity.Lexer.scanRules := by simp [Ligodity.Lexer.scanRules]
  refine lex_all hmem (matches_tz h) ?_
  rintro ⟨p, b⟩ hx hmatch
  -- the rules that might match are this one and the one for decimals, which asks for a point
  rcases scanRules_avoid _ hx with hcase | hcase | havoids
  · exact hcase
  · obtain rfl : b = .decimalMtz := hcase
    rw [regex_of_decimalMtz hx] at hmatch
    have hpoint : ord '.' ∈ n ++ ascii ['t', 'z'] := by
      obtain ⟨u, v, huv, hu, -⟩ := matches_seq.1 hmatch
      obtain ⟨i, f, rfl, -, hf⟩ := matches_seq.1 hu
      obtain ⟨q, f, rfl, hq, -⟩ := matches_seq.1 hf
      rw [huv, Pascaligo.eq_of_matches_chr hq]
      simp
    exact absurd ((matches_tz h).letter _ hpoint) (by decide)
  · exact ((like_integer h).not_matches havoids hmatch).elim

/-- Digits, a point and digits again are a decimal. -/
theorem matches_point (n d : Digits) : Matches Ligodity.Lexer.decimal (Spelling.point n d) :=
  .seq (matches_digits n) (.seq (Matches.one (beq_self_eq_true _)) (matches_digits d))

/-- The longest match takes the whole amount, since no other rule is in its way. -/
theorem lex_decimal (n d : Digits) :
    lex Ligodity.Lexer.scanRules (Spelling.point n d ++ ascii ['t', 'z']) =
      some (.decimalMtz, Spelling.point n d ++ ascii ['t', 'z'], []) := by
  have hmem : (.regex (.seq Ligodity.Lexer.decimal (Pascaligo.Lexer.word ['t', 'z'])),
      .decimalMtz) ∈ Ligodity.Lexer.scanRules := by simp [Ligodity.Lexer.scanRules]
  refine lex_all hmem (matches_tz (matches_point n d)) ?_
  rintro ⟨p, b⟩ hx hmatch
  rcases scanRules_avoid _ hx with hcase | hcase | havoids
  · obtain rfl : b = .mtz := hcase
    rw [regex_of_mtz hx] at hmatch
    have hpoint : ord '.' ∈ Spelling.point n d ++ ascii ['t', 'z'] := by simp [Spelling.point]
    exact absurd (Matches.letter hmatch _ hpoint) (by decide)
  · exact hcase
  · exact ((like_point n d).not_matches havoids hmatch).elim

/-- In Camligo an amount has two digits after the point. -/
theorem lex_camligo (n d : Digits) (h : d.text.length = 2) :
    lex Camligo.Lexer.tokenRules (Spelling.point n d ++ ascii ['t', 'z']) =
      some (.tz, Spelling.point n d ++ ascii ['t', 'z'], []) := by
  have hmem : (.regex (.seq (.plus digit) (.seq (Pascaligo.chr '.')
      (.seq (.seq digit digit) (Pascaligo.Lexer.word ['t', 'z'])))), .tz) ∈
        Camligo.Lexer.tokenRules := by simp [Camligo.Lexer.tokenRules]
  -- two digits after the point, as the rule asks
  obtain ⟨a, b, hd, ha, hb⟩ : ∃ a b, d.text = [a, b] ∧ isDigit a = true ∧ isDigit b = true := by
    obtain ⟨a, b, hd⟩ := List.length_eq_two.1 h
    have hall := d.all_isDigit
    rw [hd, List.all_cons, List.all_cons, Bool.and_eq_true, Bool.and_eq_true] at hall
    exact ⟨a, b, hd, hall.1, hall.2.1⟩
  refine lex_all hmem ?_ ?_
  · have hfraction : Matches (.seq digit digit) d.text := by
      rw [hd]
      exact .seq (matches_digit ha) (matches_digit hb)
    rw [Spelling.point, List.append_assoc]
    show Matches _ (n.text ++ ([ord '.'] ++ (d.text ++ ascii ['t', 'z'])))
    exact .seq (matches_digits n) (.seq (.one (beq_self_eq_true _)) (matches_tz hfraction))
  · rintro ⟨p, c⟩ hx hmatch
    -- the other rules start differently or lack a letter
    rcases tokenRules_avoid _ hx with hcase | havoids
    · exact hcase
    · exact ((like_point n d).not_matches havoids hmatch).elim

end Choice

/-! ### The numbers -/

section Numbers

variable {n : Text}

theorem ne_underscore {d : UInt8} (h : isDigit d = true) : (d != ord '_') = true := by
  refine bne_iff_ne.2 ?_
  rintro rfl
  exact absurd h (by decide)

/-- There are no underscores among digits. -/
theorem filter_digits {ds : Text} (h : ds.all isDigit = true) : ds.filter (· != ord '_') = ds :=
  List.filter_eq_self.2 fun d hd => ne_underscore (List.all_eq_true.1 h d hd)

/-- `Z.of_string` reads digits as their value. -/
theorem zOfString_digits {ds : Text} (hne : ds ≠ []) (h : ds.all isDigit = true) :
    Ligodity.Lexer.zOfString ds = .ok (digitsValue ds) := by
  obtain ⟨d, tl, rfl⟩ := List.exists_cons_of_ne_nil hne
  rw [Ligodity.Lexer.zOfString, filter_digits h, Pascaligo.Token.zOfString_digits h]
  rfl

/-- A whole number has its value. -/
theorem zOfString_integer (h : Matches Pascaligo.Lexer.integer n) :
    Ligodity.Lexer.zOfString n = .ok (integerValue n) := by
  obtain ⟨d, tl, hn, hd, htl⟩ := integer_cases h
  -- the underscores are taken out, so only the digits are left
  have hfilter : (d :: tl).filter (· != ord '_') = (d :: tl).filter isDigit := by
    refine List.filter_congr fun c hc => ?_
    have hc' : isDigit c = true ∨ c = ord '_' := by
      rcases List.mem_cons.1 hc with rfl | hc
      · exact .inl hd
      · exact htl c hc
    rcases hc' with hc' | rfl
    · rw [hc', ne_underscore hc']
    · decide
  have hcons : (d :: tl).filter isDigit = d :: tl.filter isDigit := List.filter_cons_of_pos hd
  have hall : (d :: tl.filter isDigit).all isDigit = true := by
    rw [← hcons]
    exact List.all_eq_true.2 fun c hc => (List.mem_filter.1 hc).2
  -- the sign is read before the digits
  rcases hn with rfl | rfl
  · have hneg : (ord '-' :: d :: tl).filter (· != ord '_') = ord '-' :: d :: tl.filter isDigit := by
      rw [List.filter_cons_of_pos (by decide), hfilter, hcons]
    have hdigits : (ord '-' :: d :: tl).filter isDigit = d :: tl.filter isDigit := by
      rw [List.filter_cons_of_neg (by decide), hcons]
    rw [Ligodity.Lexer.zOfString, hneg, Pascaligo.Token.zOfString_neg_digits hall, integerValue,
      hdigits]
    rfl
  · have hne : (d :: tl).head? ≠ some (ord '-') := by
      intro heq
      rw [Option.some.inj heq] at hd
      exact absurd hd (by decide)
    rw [Ligodity.Lexer.zOfString, hfilter, hcons, Pascaligo.Token.zOfString_digits hall,
      integerValue, if_neg hne, hcons]
    rfl

/-- The point is where the digits before it end. -/
theorem idxOf?_point (n d : Digits) :
    (Spelling.point n d).idxOf? (ord '.') = some n.text.length := by
  have hnot : ord '.' ∉ n.text := not_mem_of_digits n.all_isDigit (by decide)
  rw [Spelling.point]
  generalize n.text = i at hnot
  induction i with
  | nil => simp [List.idxOf?_cons]
  | cons c i ih =>
    rw [List.mem_cons, not_or] at hnot
    rw [List.cons_append, List.idxOf?_cons, ih hnot.2, if_neg (by simp [Ne.symm hnot.1])]
    rfl

/-- The digits without the point, as a fraction, are the number with the point. -/
theorem value_append (n d : Digits) :
    ((digitsValue (n.text ++ d.text) : ℤ) : ℚ) / ((10 ^ d.text.length : ℕ) : ℤ) =
      n.value + d.value / 10 ^ d.text.length := by
  rw [digitsValue_append, Digits.value, Digits.value]
  push_cast
  field_simp

/-- The number of mutez is computed exactly. -/
theorem formatTz_eq (n d : Digits) :
    Ligodity.Lexer.formatTz (Spelling.point n d) =
      .ok (if (Spelling.decimal n d).amount.den = 1 then some (Spelling.decimal n d).amount.num
        else none) := by
  have hlen : (Spelling.point n d).length = n.text.length + 1 + d.text.length := by
    rw [Spelling.point, List.length_append, List.length_cons]
    omega
  have htake : (Spelling.point n d).take n.text.length = n.text := List.take_left
  have hdrop : (Spelling.point n d).drop (n.text.length + 1) = d.text := by
    rw [Spelling.point, List.drop_append]
    simp
  -- the numerator is read from all the digits, without the point
  have hnum : Ligodity.Lexer.zOfString (n.text ++ d.text) = .ok (digitsValue (n.text ++ d.text)) := by
    refine zOfString_digits (fun heq => n.ne_nil (List.append_eq_nil_iff.1 heq).1) ?_
    rw [List.all_append, n.all_isDigit, d.all_isDigit]
    rfl
  -- the denominator is a one with a zero for each digit after the point
  have hden : Ligodity.Lexer.zOfString (ascii ['1'] ++ List.replicate d.text.length (ord '0')) =
      .ok ((10 ^ d.text.length : ℕ) : ℤ) := by
    have hzeros : (List.replicate d.text.length (ord '0')).all isDigit = true :=
      List.all_eq_true.2 fun c hc => by rw [List.eq_of_mem_replicate hc]; decide
    have hall : (ascii ['1'] ++ List.replicate d.text.length (ord '0')).all isDigit = true := by
      rw [List.all_append, hzeros]
      decide
    rw [zOfString_digits (List.append_ne_nil_of_left_ne_nil (by decide) _) hall,
      digitsValue_append, digitsValue_replicate, List.length_replicate,
      show digitsValue (ascii ['1']) = 1 from rfl, Nat.one_mul, Nat.add_zero]
  have hamount : (1000000 : ℚ) * ((digitsValue (n.text ++ d.text) : ℤ) /
      ((10 ^ d.text.length : ℕ) : ℤ)) = (Spelling.decimal n d).amount := by
    rw [value_append, Spelling.amount, Spelling.value]
    ring
  -- the two positions of the decimal point, counted from both ends
  have hsub : n.text.length + 1 + d.text.length - n.text.length - 1 = d.text.length := by omega
  have hsub' : n.text.length + 1 + d.text.length - d.text.length = n.text.length + 1 := by omega
  rw [Ligodity.Lexer.formatTz, idxOf?_point]
  dsimp only
  rw [hlen, htake, hsub, hsub', hdrop, hnum, hden]
  simp only [bind, Except.bind, hamount]
  split <;> rfl

end Numbers

/-! ### The literals -/

section Literals

variable {n : Text}

/-- An amount is kept when it fits OCaml's integers. -/
theorem simplExpression_eMtz {z : ℤ} {k : OInt} :
    Simplify.Ligodity.simplExpression none (.eMtz z) = pure (.eLiteral (.tez k)) ↔ k.val = z := by
  rw [Simplify.Ligodity.simplExpression]
  constructor
  · intro h
    -- the number has to fit an integer of the compiler
    cases hz : OInt.ofInt z with
    | none =>
      rw [zToInt, hz] at h
      cases h
    | some m =>
      have hm : zToInt z = pure m := by rw [zToInt, hz]
      rw [hm] at h
      have hmk : m = k := by
        have hexpr := Except.ok.inj (Except.ok.inj h)
        rw [AstSimplified.makeOptionTyped, Expression.eLiteral.injEq,
          AstTyped.Literal.tez.injEq] at hexpr
        exact hexpr
      rw [← hmk]
      exact zToInt_eq_pure hm
  · rintro rfl
    rw [zToInt, OInt.ofInt_val]
    rfl

/-- The literal of an amount without a point is its number. -/
theorem ligodityLiteral_integer (h : Matches Pascaligo.Lexer.integer n) :
    ligodityLiteral (n ++ ascii ['t', 'z']) =
      some (Simplify.Ligodity.simplExpression none (.eMtz (integerValue n))) := by
  have hdrop : (n ++ ascii ['t', 'z']).dropLast.dropLast = n := by simp [ascii]
  rw [ligodityLiteral, Ligodity.Lexer.scanNumber, lex_integer h]
  dsimp only
  rw [hdrop, zOfString_integer h]
  rfl

/-- A decimal number is a literal when the number of mutez is a whole one. -/
theorem ligodityLiteral_decimal (n d : Digits) :
    ligodityLiteral (Spelling.point n d ++ ascii ['t', 'z']) =
      if (Spelling.decimal n d).amount.den = 1 then
        some (Simplify.Ligodity.simplExpression none (.eMtz (Spelling.decimal n d).amount.num))
      else none := by
  have hdrop : (Spelling.point n d ++ ascii ['t', 'z']).dropLast.dropLast = Spelling.point n d := by
    simp [ascii]
  rw [ligodityLiteral, Ligodity.Lexer.scanNumber, lex_decimal]
  dsimp only
  rw [hdrop, formatTz_eq]
  by_cases hden : (Spelling.decimal n d).amount.den = 1
  · rw [if_pos hden, if_pos hden]
    rfl
  · rw [if_neg hden, if_neg hden]
    rfl

/-- Numbers in range are represented exactly. -/
theorem ofInt_eq_some {z : ℤ} {k : OInt} : OInt.ofInt z = some k ↔ k.val = z := by
  constructor
  · intro h
    rw [OInt.ofInt] at h
    split at h
    · cases h
      rfl
    · cases h
  · rintro rfl
    exact OInt.ofInt_val k

/-- `int_of_string` on digits, for the numbers that the host can represent. -/
theorem intOfString_eq_ok {ds : Digits} {k : OInt} :
    Camligo.Lexer.intOfString ds.text = .ok k ↔ k.val = ds.value := by
  obtain ⟨d, tl, hds, hall⟩ := exists_cons ds
  have hfilter : (d :: tl).filter isDigit = d :: tl :=
    List.filter_eq_self.2 fun c hc => List.all_eq_true.1 hall c hc
  rw [List.all_cons, Bool.and_eq_true] at hall
  have hsign : (d :: tl).head?.filter (fun c => c = ord '-' || c = ord '+') = none := by
    rw [List.head?_cons, Option.filter_some, if_neg]
    intro hd
    rcases Bool.or_eq_true .. ▸ hd with hd | hd
    · rw [of_decide_eq_true hd] at hall
      exact absurd hall.1 (by decide)
    · rw [of_decide_eq_true hd] at hall
      exact absurd hall.1 (by decide)
  have hall' : (isDigit d && tl.all fun c => isDigit c || c == ord '_') = true := by
    rw [hall.1, Bool.true_and, List.all_eq_true]
    intro c hc
    rw [List.all_eq_true.1 hall.2 c hc, Bool.true_or]
  -- the host gives the value, unless it is out of range
  have hhost : Pascaligo.Lexer.intOfString ds.text = .ok (ds.value : ℤ) ∨
      Pascaligo.Lexer.intOfString ds.text = .error (.failure "int_of_string") ∧
        ∀ k : OInt, k.val ≠ ds.value := by
    rw [Digits.value, hds, Pascaligo.Lexer.intOfString, hsign]
    simp only [Option.toList_none, List.length_nil, List.drop_zero, hall', if_true, hfilter,
      reduceCtorEq, if_false]
    split
    · exact .inl rfl
    · refine .inr ⟨rfl, fun k hk => ?_⟩
      have hlt := k.property.2
      omega
  rcases hhost with hhost | ⟨hhost, hnone⟩
  · have hbind : ∀ f : ℤ → Except Pascaligo.Exn OInt,
        (Except.ok (ds.value : ℤ) >>= f) = f ds.value := fun _ => rfl
    rw [Camligo.Lexer.intOfString, hhost, hbind, ← ofInt_eq_some]
    cases OInt.ofInt ds.value with
    | none => exact ⟨nofun, nofun⟩
    | some m => rw [Except.ok.injEq, Option.some.injEq]
  · rw [Camligo.Lexer.intOfString, hhost]
    exact ⟨nofun, fun hk => (hnone k hk).elim⟩

/-- The digits before the point, and the two after it. -/
theorem split_point (n d : Digits) (h : d.text.length = 2) :
    (Spelling.point n d ++ ascii ['t', 'z']).takeWhile isDigit = n.text ∧
      (((Spelling.point n d ++ ascii ['t', 'z']).dropWhile isDigit).drop 1).take 2 = d.text := by
  have hdigits : ∀ c ∈ n.text, isDigit c = true := List.all_eq_true.1 n.all_isDigit
  have hpoint : Spelling.point n d ++ ascii ['t', 'z'] =
      n.text ++ ord '.' :: (d.text ++ ascii ['t', 'z']) := List.append_assoc ..
  have hnot : ¬ isDigit (ord '.') = true := by decide
  rw [hpoint, List.takeWhile_append_of_pos hdigits, List.dropWhile_append_of_pos hdigits,
    List.takeWhile_cons_of_neg hnot, List.dropWhile_cons_of_neg hnot, List.append_nil]
  refine ⟨rfl, ?_⟩
  show (d.text ++ ascii ['t', 'z']).take 2 = d.text
  rw [← h, List.take_left]

/-- The literal of Camligo adds the cents to a hundred times the whole, in OCaml's integers. -/
theorem camligoLiteral_eq_some {n d : Digits} (h : d.text.length = 2) {k l : OInt}
    (hk : k.val = n.value) (hl : l.val = d.value) :
    camligoLiteral (Spelling.point n d ++ ascii ['t', 'z']) =
      some (pure (.eLiteral (.tez ((k.mul ⟨100, by decide⟩).add l)))) := by
  obtain ⟨hn, hd⟩ := split_point n d h
  rw [camligoLiteral, Camligo.Lexer.tokenNumber, lex_camligo n d h]
  dsimp only
  rw [hn, hd, intOfString_eq_ok.2 hk, intOfString_eq_ok.2 hl]
  rfl

/-- A number that the host cannot represent is rejected. -/
theorem camligoLiteral_eq_none {n d : Digits} (h : d.text.length = 2)
    (hk : ∀ k : OInt, k.val ≠ n.value) :
    camligoLiteral (Spelling.point n d ++ ascii ['t', 'z']) = none := by
  obtain ⟨hn, -⟩ := split_point n d h
  rw [camligoLiteral, Camligo.Lexer.tokenNumber, lex_camligo n d h]
  dsimp only
  rw [hn]
  cases hint : Camligo.Lexer.intOfString n.text with
  | error e => rfl
  | ok k => exact (hk k (intOfString_eq_ok.1 hint)).elim

end Literals

/-! ### When the literal denotes the amount -/

/-- Nothing wraps around in range. -/
theorem bmod_val {z : ℤ} (h : -2 ^ 62 ≤ z) (h' : z < 2 ^ 62) : (OInt.bmod z).val = z := by
  rw [OInt.bmod]
  exact Int.bmod_eq_of_le (by omega) (by omega)

/-- The exact amount in millionths of a tez. -/
theorem amount_integer {n : Text} (h : Matches Pascaligo.Lexer.integer n) :
    (Spelling.integer n h).amount = ((integerValue n * 10 ^ 6 : ℤ) : ℚ) := by
  rw [Spelling.amount, Spelling.value]
  push_cast
  rfl

/-- The exact amount in millionths of a tez, which has cents only. -/
theorem amount_camligo (n d : Digits) (h : d.text.length = 2) :
    (Spelling.camligo n d h).amount = ((10 ^ 4 * (100 * n.value + d.value) : ℤ) : ℚ) := by
  rw [Spelling.amount, Spelling.value, h]
  push_cast
  ring

/-- Amounts are not negative. -/
theorem amount_decimal_nonneg (n d : Digits) : 0 ≤ (Spelling.decimal n d).amount := by
  rw [Spelling.amount, Spelling.value]
  positivity

/-- The amount is a whole number of millionths. -/
theorem amount_eq_intCast {n d : Digits} {z : ℤ} :
    (Spelling.decimal n d).amount = z ↔
      (Spelling.decimal n d).amount.den = 1 ∧ (Spelling.decimal n d).amount.num = z := by
  constructor
  · intro h
    rw [h]
    exact ⟨Rat.den_intCast z, Rat.num_intCast z⟩
  · rintro ⟨hden, rfl⟩
    exact ((Rat.den_eq_one_iff _).1 hden).symm

/-- A whole number is taken for a number of mutez. -/
theorem denotes_integer_iff {n : Text} (h : Matches Pascaligo.Lexer.integer n) :
    Denotes (.integer n h) ↔ (Spelling.integer n h).amount = 0 := by
  have hliteral : (Spelling.integer n h).literal =
      some (Simplify.Ligodity.simplExpression none (.eMtz (integerValue n))) :=
    ligodityLiteral_integer h
  rw [amount_integer h, Int.cast_eq_zero]
  -- the literal is the integer itself, but its amount is a million times as much
  constructor
  · intro hdenotes
    obtain ⟨k, hk, hliteral'⟩ := hdenotes.exact _ (amount_integer h)
    rw [hliteral] at hliteral'
    have hval := simplExpression_eMtz.1 (Option.some.inj hliteral')
    omega
  · intro hzero
    have hvalue : integerValue n = 0 := by omega
    -- zero is the integer that both readings share
    refine ⟨fun z hz => ?_, ?_⟩
    · rw [amount_integer h, Int.cast_inj] at hz
      have hz' : (0 : ℤ) = z := by omega
      have hsimpl := simplExpression_eMtz (z := 0) (k := ⟨0, by decide⟩)
      refine ⟨⟨0, by decide⟩, hz', ?_⟩
      rw [hliteral, hvalue, hsimpl.2 rfl]
    · rw [hliteral]
      exact ⟨nofun, fun hnone => (hnone _ (amount_integer h)).elim⟩

/-- Camligo counts hundredths of a tez. -/
theorem denotes_camligo_iff (n d : Digits) (h : d.text.length = 2) :
    Denotes (.camligo n d h) ↔ (Spelling.camligo n d h).amount = 0 := by
  rw [amount_camligo n d h, Int.cast_eq_zero]
  constructor
  · intro hdenotes
    obtain ⟨m, hm, hliteral⟩ := hdenotes.exact _ (amount_camligo n d h)
    -- the amount is an integer of the host, so both parts are
    have hlt := m.property.2
    let k : OInt := ⟨n.value, by omega, by omega⟩
    let l : OInt := ⟨d.value, by omega, by omega⟩
    have hsome := camligoLiteral_eq_some h (k := k) (l := l) rfl rfl
    have hexpr := Except.ok.inj (Except.ok.inj (Option.some.inj (hsome.symm.trans hliteral)))
    rw [Expression.eLiteral.injEq, AstTyped.Literal.tez.injEq] at hexpr
    have hmul : (k.mul ⟨100, by decide⟩).val = n.value * 100 :=
      bmod_val (by show _ ≤ (n.value : ℤ) * 100; omega) (by show (n.value : ℤ) * 100 < _; omega)
    have hadd : ((k.mul ⟨100, by decide⟩).add l).val = n.value * 100 + d.value := by
      rw [OInt.add, hmul, show l.val = (d.value : ℤ) from rfl]
      exact bmod_val (by omega) (by omega)
    rw [hexpr] at hadd
    omega
  · intro hzero
    have hn : n.value = 0 := by omega
    have hd : d.value = 0 := by omega
    let k : OInt := ⟨0, by decide⟩
    have hliteral : (Spelling.camligo n d h).literal = some (pure (.eLiteral (.tez k))) := by
      have hsome := camligoLiteral_eq_some h (k := k) (l := k) (by rw [hn]; rfl) (by rw [hd]; rfl)
      have hsum : (k.mul ⟨100, by decide⟩).add k = k := by decide
      rw [hsum] at hsome
      exact hsome
    refine ⟨fun z hz => ?_, ?_⟩
    · rw [amount_camligo n d h, Int.cast_inj] at hz
      exact ⟨k, by show (0 : ℤ) = z; omega, hliteral⟩
    · rw [hliteral]
      exact ⟨nofun, fun hnone => (hnone _ (amount_camligo n d h)).elim⟩

/-- A decimal number of Ligodity is scaled exactly; the host has to represent the result. -/
theorem denotes_decimal_iff (n d : Digits) :
    Denotes (.decimal n d) ↔ ∀ z : ℤ, (Spelling.decimal n d).amount = z → z < 2 ^ 62 := by
  have hliteral := ligodityLiteral_decimal n d
  constructor
  · intro hdenotes z hz
    obtain ⟨k, rfl, -⟩ := hdenotes.exact z hz
    exact k.property.2
  -- the other way round, a number of mutez below the bound is the literal's value
  · intro hrange
    refine ⟨fun z hz => ?_, ?_⟩
    · have hnonneg : 0 ≤ z := by
        have hamount := amount_decimal_nonneg n d
        rw [hz] at hamount
        exact Int.cast_nonneg_iff.1 hamount
      have hlt := hrange z hz
      obtain ⟨hden, hnum⟩ := amount_eq_intCast.1 hz
      have hsimpl := simplExpression_eMtz (z := z) (k := ⟨z, by omega, hlt⟩)
      refine ⟨⟨z, by omega, hlt⟩, rfl, ?_⟩
      rw [if_pos hden, hnum, hsimpl.2 rfl] at hliteral
      exact hliteral
    -- an amount that is no number of mutez is rejected by the lexer
    · by_cases hden : (Spelling.decimal n d).amount.den = 1
      · rw [if_pos hden] at hliteral
        have hamount := amount_eq_intCast.2 ⟨hden, rfl⟩
        constructor
        · intro hnone
          rw [Spelling.literal, Spelling.text, hliteral] at hnone
          cases hnone
        · exact fun hnone => (hnone _ hamount).elim
      · rw [if_neg hden] at hliteral
        exact ⟨fun _ z hz => hden (amount_eq_intCast.1 hz).1, fun _ => hliteral⟩

/-- A literal denotes its amount when that is zero, and when a decimal number of Ligodity is
spelt and the host can represent the amount. -/
theorem tez_denotes_iff (s : Spelling) :
    Denotes s ↔ s.amount = 0 ∨
      (∃ n d, s = .decimal n d) ∧ ∀ z : ℤ, s.amount = z → z < 2 ^ 62 := by
  -- only a decimal spelling becomes a number of mutez; of the others zero alone is right
  cases s with
  | integer n h =>
    rw [denotes_integer_iff h]
    exact ⟨.inl, fun hor => hor.resolve_right fun ⟨⟨_, _, heq⟩, _⟩ => nomatch heq⟩
  | camligo n d h =>
    rw [denotes_camligo_iff n d h]
    exact ⟨.inl, fun hor => hor.resolve_right fun ⟨⟨_, _, heq⟩, _⟩ => nomatch heq⟩
  | decimal n d =>
    rw [denotes_decimal_iff n d]
    constructor
    · exact fun hrange => .inr ⟨⟨n, d, rfl⟩, hrange⟩
    · rintro (hzero | ⟨-, hrange⟩)
      · intro z hz
        rw [hzero, eq_comm, Int.cast_eq_zero] at hz
        rw [hz]
        norm_num
      · exact hrange

theorem matches_integer_one : Matches Pascaligo.Lexer.integer (ascii ['1']) :=
  matches_seq.2 ⟨[], ascii ['1'], rfl, matches_alt.2 (.inr .empty),
    matches_alt.2 (.inl (matches_digit (by decide)))⟩

/-- `1tz` -/
def oneTez : Spelling := .integer (ascii ['1']) matches_integer_one

/-- One tez is one mutez: it should be a million. -/
theorem not_denotes_oneTez : ¬ Denotes oneTez := by
  rw [oneTez, denotes_integer_iff, amount_integer, Int.cast_eq_zero]
  decide

end Simplify.Tez

end Ligo
