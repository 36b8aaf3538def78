import Ligo.Library.Outcome
import Ligo.Pascaligo.Lexer

/-!
# Lexemes and the tokens made of them

What the patterns of the rules say about the lexemes they match, and that the functions that
make tokens are total on these: no conversion fails and no table misses a lexeme. A token
keeps its lexeme (`Made`); only byte literals drop their first two characters.
-/

namespace Ligo.Pascaligo

open Lexing

/-! ### Choosing a case -/

section Rules

variable {β : Type} {rules : List (Pattern UInt8 × β)} {b : β} {w u v : Text}
  {r : Regex UInt8}

/-- A rule that matches takes a prefix of the buffer. -/
theorem lex_regex (h : lex rules w = some (b, u, v))
    (hb : ∀ p, (p, b) ∈ rules → p = .regex r) : w = u ++ v ∧ Matches r u := by
  obtain ⟨hw, p, hmem, hp⟩ := lex_eq_some h
  rw [hb p hmem] at hp
  exact ⟨hw, hp⟩

/-- The rule for the end matches the empty buffer only. -/
theorem lex_eof (h : lex rules w = some (b, u, v))
    (hb : ∀ p, (p, b) ∈ rules → p = .eof .empty) : w = [] ∧ u = [] ∧ v = [] := by
  obtain ⟨hw, p, hmem, hp⟩ := lex_eq_some h
  rw [hb p hmem] at hp
  obtain ⟨hv, hu⟩ := hp
  rw [matches_empty] at hu
  rw [hw, hu, hv]
  exact ⟨rfl, rfl, rfl⟩

/-- A rule with the patterns `_` and `eof` has a case for every text. -/
theorem lex_total {b₁ b₂ : β} (hwild : (.regex Lexer.wild, b₁) ∈ rules)
    (heof : (.eof .empty, b₂) ∈ rules) (w : Text) : ∃ c, lex rules w = some c := by
  cases w with
  | nil =>
    obtain ⟨b, u, v, h, -⟩ := lex_isSome (u := []) (v := []) heof ⟨rfl, .empty⟩
    exact ⟨_, h⟩
  | cons c w =>
    obtain ⟨b, u, v, h, -⟩ := lex_isSome (u := [c]) (v := w) hwild (Matches.one rfl)
    exact ⟨_, h⟩

/-- The lexemes of most patterns are not empty. -/
theorem ne_nil_of_matches (h : Matches r u) (hr : r.nullable = false) : u ≠ [] := by
  rintro rfl
  rw [nullable_iff.2 h] at hr
  cases hr

theorem eq_of_matches_word {cs : List Char} (h : Matches (Lexer.word cs) u) : u = ascii cs :=
  matches_word.1 h

theorem eq_of_matches_chr {c : Char} (h : Matches (chr c) u) : u = [ord c] :=
  matches_char.1 h

/-- A repetition of one character. -/
theorem eq_replicate {c : Char} (h : Matches (Regex.plus (chr c)) u) :
    List.replicate u.length (ord c) = u := by
  have hchr : (chr c).All fun a => a = ord c := fun a ha => (beq_iff_eq.1 ha).symm
  have hall : ∀ a ∈ u, a = ord c := h.all ⟨hchr, hchr⟩
  exact (List.eq_replicate_of_mem hall).symm

end Rules

/-! ### Numbers -/

namespace Token

theorem globalRemove_singleton (c : UInt8) (s : Text) :
    globalRemove [c] 0 s = s.filter (· != c) := by
  induction s with
  | nil => rfl
  | cons d s ih =>
    by_cases h : c = d
    · have hrm : globalRemove [c] 0 (d :: s) = globalRemove [c] 0 s := by
        simp [globalRemove, h]
      rw [hrm, ih]
      simp [h]
    · have hrm : globalRemove [c] 0 (d :: s) = d :: globalRemove [c] 0 s := by
        simp [globalRemove, h]
      rw [hrm, ih]
      simp [Ne.symm h]

/-- Removing a word at the end of a text that does not have its first character. -/
theorem globalRemove_append (c : UInt8) (w s : Text) (h : c ∉ s) :
    globalRemove (c :: w) 0 (s ++ (c :: w)) = s := by
  induction s with
  | nil =>
    have hskip : ∀ n (t : Text), t.length ≤ n → globalRemove (c :: w) n t = [] := by
      intro n
      induction n with
      | zero =>
        intro t ht
        rw [List.length_eq_zero_iff.1 (Nat.le_zero.1 ht)]
        rfl
      | succ n ih =>
        intro t ht
        cases t with
        | nil => rfl
        | cons d t => exact ih t (Nat.le_of_succ_le_succ ht)
    have hprefix : (c :: w).isPrefixOf (c :: w) = true := by simp
    rw [List.nil_append, globalRemove, if_pos hprefix]
    exact hskip _ _ (Nat.le_refl _)
  | cons d s ih =>
    rw [List.mem_cons, not_or] at h
    have hprefix : (c :: w).isPrefixOf (d :: (s ++ (c :: w))) = false := by
      rw [List.isPrefixOf, beq_eq_false_iff_ne.2 h.1, Bool.false_and]
    rw [List.cons_append, globalRemove, hprefix]
    simp [ih h.2]

/-- A number is made of digits and underscores, and starts with a digit. -/
theorem natural_cases {w : Text} (h : Matches Lexer.natural w) :
    ∃ d w', w = d :: w' ∧ isDigit d = true ∧ ∀ c ∈ w', isDigit c = true ∨ c = ord '_' := by
  have hdigit : ∀ {u : Text}, Matches digit u → ∃ d, u = [d] ∧ isDigit d = true := by
    intro u hu
    exact matches_one.1 hu
  obtain h | h := matches_alt.1 h
  · obtain ⟨d, rfl, hd⟩ := hdigit h
    exact ⟨d, [], rfl, hd, nofun⟩
  · obtain ⟨u, v, rfl, hu, hv⟩ := matches_seq.1 h
    obtain ⟨d, rfl, hd⟩ := hdigit hu
    refine ⟨d, v, rfl, hd, hv.all ?_⟩
    have hd' : digit.All fun c => isDigit c = true ∨ c = ord '_' := fun c hc => .inl hc
    have hu' : (chr '_').All fun c => isDigit c = true ∨ c = ord '_' :=
      fun c hc => .inr (beq_iff_eq.1 hc).symm
    exact ⟨⟨hd', hu'⟩, hd'⟩

/-- The digits of a number. -/
theorem filter_natural {w : Text} (h : Matches Lexer.natural w) :
    ∃ d ds, w.filter (· != ord '_') = d :: ds ∧ (d :: ds).all isDigit = true := by
  obtain ⟨d, w', rfl, hd, hw'⟩ := natural_cases h
  have hne : d ≠ ord '_' := by
    rintro rfl
    exact absurd hd (by decide)
  refine ⟨d, w'.filter (· != ord '_'), ?_, ?_⟩
  · rw [List.filter_cons_of_pos (by simp [hne])]
  · rw [List.all_cons, hd, Bool.true_and, List.all_eq_true]
    intro c hc
    obtain ⟨hmem, hc⟩ := List.mem_filter.1 hc
    obtain h | h := hw' c hmem
    · exact h
    · exact absurd h (bne_iff_ne.1 hc)

/-- `Z.of_string` reads digits as their value, with a sign in front of them or without. -/
theorem zOfString_digits {d : UInt8} {ds : Text} (h : (d :: ds).all isDigit = true) :
    zOfString (d :: ds) = .ok (digitsValue (d :: ds)) := by
  have hne : d ≠ ord '-' := by
    rintro rfl
    rw [List.all_cons, Bool.and_eq_true] at h
    exact absurd h.1 (by decide)
  rw [zOfString, if_neg hne, if_pos h]

theorem zOfString_neg_digits {d : UInt8} {ds : Text} (h : (d :: ds).all isDigit = true) :
    zOfString (ord '-' :: d :: ds) = .ok (-(digitsValue (d :: ds) : ℤ)) := by
  rw [zOfString, if_pos rfl, if_pos ⟨List.cons_ne_nil _ _, h⟩]

/-- There is nothing but digits among digits. -/
theorem not_mem_of_digits {c : UInt8} {ds : Text} (h : ds.all isDigit = true)
    (hc : isDigit c = false) : c ∉ ds := by
  intro hmem
  rw [List.all_eq_true.1 h c hmem] at hc
  cases hc

/-! ### Tokens keep their lexemes -/

variable {H : Type}

/-- The text that a token covers. -/
def text : Token H → Text
  | .Bytes b => ascii ['0', 'x'] ++ b.value.1
  | token => token.toLexeme

/-- A token that is neither a byte literal nor the end, with its lexeme and region. -/
structure Made (token : Token H) (lexeme : Text) (region : Region) : Prop where
  text : token.text = lexeme
  toRegion : token.toRegion = region
  isBytes : token.isBytes = false
  isEof : token.isEof = false

variable {lexeme : Text} {region : Region}

/-- A constructor that refuses some lexemes. -/
theorem refuse_outcome {c : Prop} [Decidable c] {token : Token H}
    (h : Made token lexeme region) :
    Outcome (if c then .ok none else .ok (some token) : Except Exn (Option (Token H)))
      (fun o => ∀ token ∈ o, Made token lexeme region) fun _ => False := by
  split
  · exact Outcome.ok fun token htoken => absurd htoken (Option.not_mem_none token)
  · refine Outcome.ok fun token htoken => ?_
    rw [← Option.some.inj htoken]
    exact h

/-- What matches the rule for integers makes a token, or an error that the lexer reports. The
other rules have results of the same form. -/
theorem mkInt_outcome (h : Matches Lexer.integer lexeme) :
    Outcome (mkInt (H := H) lexeme region) (fun o => ∀ token ∈ o, Made token lexeme region)
      fun _ => False := by
  have hz : ∃ z, zOfString (globalRemove (ascii ['_']) 0 lexeme) = .ok z := by
    obtain ⟨u, v, rfl, hu, hv⟩ := matches_seq.1 h
    obtain ⟨d, ds, hfilter, hall⟩ := filter_natural hv
    have hrm : globalRemove (ascii ['_']) 0 (u ++ v) =
        u.filter (· != ord '_') ++ d :: ds := by
      rw [← hfilter, ← List.filter_append]
      exact globalRemove_singleton _ _
    rw [hrm]
    obtain hu | hu := matches_alt.1 hu
    · rw [eq_of_matches_chr hu]
      exact ⟨_, zOfString_neg_digits hall⟩
    · rw [matches_empty.1 hu]
      exact ⟨_, zOfString_digits hall⟩
  obtain ⟨z, hz⟩ := hz
  rw [mkInt, hz]
  exact refuse_outcome ⟨rfl, rfl, rfl, rfl⟩

theorem mkNat_outcome (h : Matches (.seq Lexer.natural (chr 'n')) lexeme) :
    Outcome (mkNat (H := H) lexeme region) (fun o => ∀ token ∈ o, Made token lexeme region)
      fun _ => False := by
  have hz : ∃ z, zOfString
      (globalRemove (ascii ['n']) 0 (globalRemove (ascii ['_']) 0 lexeme)) = .ok z := by
    obtain ⟨u, v, rfl, hu, hv⟩ := matches_seq.1 h
    obtain ⟨d, ds, hfilter, hall⟩ := filter_natural hu
    have hrm : globalRemove (ascii ['_']) 0 (u ++ v) = (d :: ds) ++ ascii ['n'] := by
      rw [eq_of_matches_chr hv, ← hfilter]
      exact (globalRemove_singleton _ _).trans (List.filter_append ..)
    rw [hrm]
    have hrm' : globalRemove (ascii ['n']) 0 ((d :: ds) ++ ascii ['n']) = d :: ds :=
      globalRemove_append _ _ _ (not_mem_of_digits hall (by decide))
    rw [hrm']
    exact ⟨_, zOfString_digits hall⟩
  obtain ⟨z, hz⟩ := hz
  rw [mkNat, hz]
  exact refuse_outcome ⟨rfl, rfl, rfl, rfl⟩

theorem mkMtz_outcome (h : Matches (.seq Lexer.natural (Lexer.word ['m', 't', 'z'])) lexeme) :
    Outcome (mkMtz (H := H) lexeme region) (fun o => ∀ token ∈ o, Made token lexeme region)
      fun _ => False := by
  have hz : ∃ z, zOfString
      (globalRemove (ascii ['m', 't', 'z']) 0 (globalRemove (ascii ['_']) 0 lexeme)) =
        .ok z := by
    obtain ⟨u, v, rfl, hu, hv⟩ := matches_seq.1 h
    obtain ⟨d, ds, hfilter, hall⟩ := filter_natural hu
    have hrm : globalRemove (ascii ['_']) 0 (u ++ v) = (d :: ds) ++ ascii ['m', 't', 'z'] := by
      rw [eq_of_matches_word hv, ← hfilter]
      exact (globalRemove_singleton _ _).trans (List.filter_append ..)
    rw [hrm]
    have hrm' : globalRemove (ascii ['m', 't', 'z']) 0 ((d :: ds) ++ ascii ['m', 't', 'z']) =
        d :: ds :=
      globalRemove_append _ _ _ (not_mem_of_digits hall (by decide))
    rw [hrm']
    exact ⟨_, zOfString_digits hall⟩
  obtain ⟨z, hz⟩ := hz
  rw [mkMtz, hz]
  exact refuse_outcome ⟨rfl, rfl, rfl, rfl⟩

/-! ### Names and symbols -/

/-- A name that is found in a lexicon is the lexeme of what is found. -/
theorem findKey_eq_some {α : Type} {key : α → Text} {list : List α} {a : α}
    (h : findKey key list lexeme = some a) : key a = lexeme := by
  have hfold : ∀ (list : List α) (found : Option α), (∀ a ∈ found, key a = lexeme) →
      ∀ a ∈ list.foldl (fun found a => if key a = lexeme then some a else found) found,
        key a = lexeme := by
    intro list
    induction list with
    | nil => exact fun found hfound => hfound
    | cons b list ih =>
      intro found hfound
      apply ih
      intro a ha
      dsimp only at ha
      split at ha
      · rename_i hb
        cases ha
        exact hb
      · exact hfound a ha
  exact hfold list none nofun a h

/-- A lexeme matches again as a whole. -/
theorem lex_whole {r : Regex UInt8} (h : Matches r lexeme) :
    lex [(.eof r, ())] lexeme = some ((), lexeme, []) := by
  have hrule : (Pattern.eof r, ()) ∈ [(Pattern.eof r, ())] := List.mem_cons_self
  have hmatch : (Pattern.eof r).Matches lexeme [] := ⟨rfl, h⟩
  exact lex_all hrule hmatch fun _ _ _ => rfl

theorem mkIdent_outcome (h : Matches ident lexeme) :
    Outcome (mkIdent (H := H) lexeme region) (fun o => ∀ token ∈ o, Made token lexeme region)
      fun _ => False := by
  rw [mkIdent, scanIdent, lex_whole h]
  dsimp only
  cases hk : findKey Keyword.lexeme keywords lexeme with
  | none => exact refuse_outcome ⟨rfl, rfl, rfl, rfl⟩
  | some k =>
    have hlexeme : k.lexeme = lexeme := findKey_eq_some hk
    exact refuse_outcome ⟨hlexeme, rfl, rfl, rfl⟩

theorem mkConstr_outcome (h : Matches constr lexeme) :
    Outcome (mkConstr (H := H) lexeme region) (fun token => Made token lexeme region)
      fun _ => False := by
  rw [mkConstr, scanConstr, lex_whole h]
  dsimp only
  cases hc : findKey DataConstructor.lexeme constructors lexeme with
  | none => exact Outcome.ok ⟨rfl, rfl, rfl, rfl⟩
  | some c =>
    have hlexeme : c.lexeme = lexeme := findKey_eq_some hc
    exact Outcome.ok ⟨hlexeme, rfl, rfl, rfl⟩

/-- The words of the pattern `symbol` are those of `mk_sym`, with the lexemes it gives. -/
theorem lookup_symbols :
    ∀ cs ∈ Lexer.symbolWords, ∃ s, symbols.lookup (ascii cs) = some s ∧ s.lexeme = ascii cs := by
  decide

theorem mkSym_outcome (h : Matches Lexer.symbol lexeme) :
    Outcome (mkSym (H := H) lexeme region) (fun token => Made token lexeme region)
      fun _ => False := by
  obtain ⟨r, hr, h⟩ := matches_any.1 h
  obtain ⟨cs, hcs, rfl⟩ := List.mem_map.1 hr
  obtain rfl := eq_of_matches_word h
  obtain ⟨s, hs, hlexeme⟩ := lookup_symbols cs hcs
  rw [mkSym, hs]
  exact Outcome.ok ⟨hlexeme, rfl, rfl, rfl⟩

end Token

end Ligo.Pascaligo
