import Mathlib.Data.List.Basic

/-!
# Regular expressions and rules of lexical analysers

Regular expressions over classes of letters, with the longest prefix of a text that they
match (`Regex.longest`), computed by derivatives, and the rules of a generated lexical
analyser (`choose`): of the patterns of a rule, the one with the longest match is taken,
and the first one of these.

`longest_eq_some` and `lex_eq_some` say what was chosen, `lex_isSome` when there is a choice,
and `lt_of_lex` why an earlier rule was not taken.
-/

namespace Lexing

/-- A regular expression. -/
inductive Regex (α : Type) where
  | never
  | empty
  | one (p : α → Bool)
  | alt (r s : Regex α)
  | seq (r s : Regex α)
  | star (r : Regex α)

variable {α β : Type}

/-- The words of a regular expression. -/
inductive Matches : Regex α → List α → Prop
  | empty : Matches .empty []
  | one {p : α → Bool} {a : α} (h : p a = true) : Matches (.one p) [a]
  | left {r s : Regex α} {w : List α} (h : Matches r w) : Matches (.alt r s) w
  | right {r s : Regex α} {w : List α} (h : Matches s w) : Matches (.alt r s) w
  | seq {r s : Regex α} {u v : List α} (hu : Matches r u) (hv : Matches s v) :
    Matches (.seq r s) (u ++ v)
  | starNil {r : Regex α} : Matches (.star r) []
  | starCons {r : Regex α} {u v : List α} (hu : Matches r u) (hv : Matches (.star r) v) :
    Matches (.star r) (u ++ v)

namespace Regex

/-- One letter. -/
def char [DecidableEq α] (a : α) : Regex α := .one fun b => a == b

/-- One word. -/
def word [DecidableEq α] : List α → Regex α
  | [] => .empty
  | [a] => .char a
  | a :: w => .seq (.char a) (word w)

/-- An optional part. -/
def opt (r : Regex α) : Regex α := .alt r .empty

/-- One or more repetitions. -/
def plus (r : Regex α) : Regex α := .seq r (.star r)

/-- One of several expressions. -/
def any : List (Regex α) → Regex α
  | [] => .never
  | [r] => r
  | r :: rs => .alt r (any rs)

/-- The empty word is one of the words. -/
@[simp] def nullable : Regex α → Bool
  | .never => false
  | .empty => true
  | .one _ => false
  | .alt r s => r.nullable || s.nullable
  | .seq r s => r.nullable && s.nullable
  | .star _ => true

/-- A union, without a part that has no words. -/
def union : Regex α → Regex α → Regex α
  | .never, s => s
  | r, .never => r
  | r, s => .alt r s

/-- A concatenation, without trivial parts. -/
def concat : Regex α → Regex α → Regex α
  | .never, _ => .never
  | .empty, s => s
  | r, s => .seq r s

/-- The words that are left after a first letter. -/
@[simp] def deriv (a : α) : Regex α → Regex α
  | .never => .never
  | .empty => .never
  | .one p => if p a then .empty else .never
  | .alt r s => union (deriv a r) (deriv a s)
  | .seq r s =>
    if r.nullable then union (concat (deriv a r) s) (deriv a s) else concat (deriv a r) s
  | .star r => concat (deriv a r) (.star r)

/-- The letters that words can start with. -/
def first : Regex α → α → Bool
  | .never, _ => false
  | .empty, _ => false
  | .one p, a => p a
  | .alt r s, a => r.first a || s.first a
  | .seq r s, a => r.first a || r.nullable && s.first a
  | .star r, a => r.first a

/-- The letters that words can have. -/
def letter : Regex α → α → Bool
  | .never, _ => false
  | .empty, _ => false
  | .one p, a => p a
  | .alt r s, a => r.letter a || s.letter a
  | .seq r s, a => r.letter a || s.letter a
  | .star r, a => r.letter a

/-- The length of the longest prefix that is a word. -/
@[simp] def longest : Regex α → List α → Option ℕ
  | .never, _ => none
  | r, [] => if r.nullable then some 0 else none
  | r, a :: w =>
    match longest (r.deriv a) w with
    | some n => some (n + 1)
    | none => if r.nullable then some 0 else none

end Regex

/-! ### Words -/

section Words

variable {r s : Regex α} {w : List α}

theorem matches_never : ¬ Matches (.never : Regex α) w := nofun

theorem matches_empty : Matches (.empty : Regex α) w ↔ w = [] := by
  constructor
  · intro h
    cases h
    rfl
  · rintro rfl
    exact .empty

theorem matches_one {p : α → Bool} : Matches (.one p) w ↔ ∃ a, w = [a] ∧ p a = true := by
  constructor
  · intro h
    cases h with
    | one h => exact ⟨_, rfl, h⟩
  · rintro ⟨a, rfl, h⟩
    exact .one h

theorem matches_alt : Matches (.alt r s) w ↔ Matches r w ∨ Matches s w := by
  constructor
  · intro h
    cases h with
    | left h => exact .inl h
    | right h => exact .inr h
  · rintro (h | h)
    · exact .left h
    · exact .right h

/-- A word of a sequence is cut in two. -/
theorem matches_seq : Matches (.seq r s) w ↔ ∃ u v, w = u ++ v ∧ Matches r u ∧ Matches s v := by
  constructor
  · intro h
    cases h with
    | seq hu hv => exact ⟨_, _, rfl, hu, hv⟩
  · rintro ⟨u, v, rfl, hu, hv⟩
    exact .seq hu hv

/-- The union and the sequence that simplify their operands have the same words. -/
theorem matches_union : Matches (Regex.union r s) w ↔ Matches r w ∨ Matches s w := by
  unfold Regex.union
  split
  · simp [matches_never]
  · simp [matches_never]
  · exact matches_alt

theorem matches_concat : Matches (Regex.concat r s) w ↔ Matches (.seq r s) w := by
  unfold Regex.concat
  split
  · simp [matches_seq, matches_never]
  · simp [matches_seq, matches_empty]
  · rfl

theorem matches_char [DecidableEq α] {a : α} : Matches (Regex.char a) w ↔ w = [a] := by
  rw [Regex.char, matches_one]
  constructor
  · rintro ⟨b, rfl, h⟩
    rw [beq_iff_eq.1 h]
  · rintro rfl
    exact ⟨a, rfl, beq_self_eq_true a⟩

/-- A literal word. -/
theorem matches_word [DecidableEq α] {v : List α} : Matches (Regex.word v) w ↔ w = v := by
  induction v generalizing w with
  | nil => exact matches_empty
  | cons a v ih =>
    cases v with
    | nil => exact matches_char
    | cons b v =>
      rw [Regex.word, matches_seq]
      · constructor
        · rintro ⟨u, v', rfl, hu, hv⟩
          rw [matches_char.1 hu, ih.1 hv]
          rfl
        · rintro rfl
          exact ⟨[a], b :: v, rfl, matches_char.2 rfl, ih.2 rfl⟩
      · exact nofun

/-- One of several expressions. -/
theorem matches_any {rs : List (Regex α)} :
    Matches (Regex.any rs) w ↔ ∃ r ∈ rs, Matches r w := by
  induction rs with
  | nil => simp [Regex.any, matches_never]
  | cons r rs ih =>
    cases rs with
    | nil => simp [Regex.any]
    | cons s rs =>
      rw [Regex.any, matches_alt, ih]
      · simp
      · exact nofun

/-- The letters of every word satisfy `p`. -/
def Regex.All (p : α → Prop) : Regex α → Prop
  | .never | .empty => True
  | .one q => ∀ a, q a = true → p a
  | .alt r s | .seq r s => r.All p ∧ s.All p
  | .star r => r.All p

/-- What holds of all letters of an expression holds of the letters of its words. -/
theorem Matches.all {p : α → Prop} (h : Matches r w) (hr : r.All p) : ∀ a ∈ w, p a := by
  induction h with
  | empty | starNil => exact nofun
  | one h =>
    intro b hb
    rw [List.mem_singleton.1 hb]
    exact hr _ h
  | left _ ih => exact ih hr.1
  | right _ ih => exact ih hr.2
  | seq _ _ ihu ihv =>
    intro b hb
    obtain hb | hb := List.mem_append.1 hb
    · exact ihu hr.1 b hb
    · exact ihv hr.2 b hb
  | starCons _ _ ihu ihv =>
    intro b hb
    obtain hb | hb := List.mem_append.1 hb
    · exact ihu hr b hb
    · exact ihv hr b hb

end Words

/-! ### Derivatives -/

/-- An expression is nullable when it has the empty word. -/
theorem nullable_iff {r : Regex α} : r.nullable = true ↔ Matches r [] := by
  induction r with
  | never => simp [Regex.nullable, matches_never]
  | empty => simp [Regex.nullable, matches_empty]
  | one p => simp [Regex.nullable, matches_one]
  | alt r s ihr ihs => rw [Regex.nullable, Bool.or_eq_true, ihr, ihs, matches_alt]
  | seq r s ihr ihs =>
    rw [Regex.nullable, Bool.and_eq_true, ihr, ihs, matches_seq]
    constructor
    · rintro ⟨hr, hs⟩
      exact ⟨[], [], rfl, hr, hs⟩
    · rintro ⟨u, v, huv, hr, hs⟩
      obtain ⟨rfl, rfl⟩ := List.append_eq_nil_iff.1 huv.symm
      exact ⟨hr, hs⟩
  | star r _ => exact ⟨fun _ => .starNil, fun _ => rfl⟩

/-- The first letter of a word of a concatenation. -/
theorem matches_seq_cons {r s : Regex α} {a : α} {w : List α} :
    Matches (.seq r s) (a :: w) ↔
      (∃ u v, w = u ++ v ∧ Matches r (a :: u) ∧ Matches s v) ∨
        Matches r [] ∧ Matches s (a :: w) := by
  rw [matches_seq]
  constructor
  · rintro ⟨u, v, huv, hu, hv⟩
    cases u with
    | nil => exact .inr ⟨hu, by rw [huv]; exact hv⟩
    | cons b u =>
      obtain ⟨rfl, rfl⟩ := List.cons.inj huv
      exact .inl ⟨u, v, rfl, hu, hv⟩
  · rintro (⟨u, v, rfl, hu, hv⟩ | ⟨hr, hs⟩)
    · exact ⟨a :: u, v, rfl, hu, hv⟩
    · exact ⟨[], a :: w, rfl, hr, hs⟩

/-- The first letter of a repetition belongs to a repetition that is not empty. -/
theorem matches_star_cons {r : Regex α} {a : α} {w : List α} :
    Matches (.star r) (a :: w) ↔
      ∃ u v, w = u ++ v ∧ Matches r (a :: u) ∧ Matches (.star r) v := by
  constructor
  · intro h
    generalize hr : Regex.star r = t at h
    generalize hw : a :: w = x at h
    induction h with
    | starNil => cases hw
    | @starCons r' u v hu hv _ ih =>
      cases hr
      cases u with
      | nil => exact ih rfl hw
      | cons b u =>
        obtain ⟨rfl, rfl⟩ := List.cons.inj hw
        exact ⟨u, v, rfl, hu, hv⟩
    | _ => cases hr
  · rintro ⟨u, v, rfl, hu, hv⟩
    exact Matches.starCons hu hv

/-- The derivative has the words of which the expression has the words with the letter in front.
-/
theorem matches_deriv {r : Regex α} {a : α} {w : List α} :
    Matches (r.deriv a) w ↔ Matches r (a :: w) := by
  induction r generalizing w with
  | never => simp [Regex.deriv, matches_never]
  | empty => simp [Regex.deriv, matches_never, matches_empty]
  | one p =>
    rw [Regex.deriv, matches_one]
    split
    · rename_i hp
      rw [matches_empty]
      constructor
      · rintro rfl
        exact ⟨a, rfl, hp⟩
      · rintro ⟨b, hb, -⟩
        exact (List.cons.inj hb).2
    · rename_i hp
      simp only [matches_never, false_iff]
      rintro ⟨b, hb, hpb⟩
      obtain ⟨rfl, -⟩ := List.cons.inj hb
      exact hp hpb
  | alt r s ihr ihs => rw [Regex.deriv, matches_union, ihr, ihs, matches_alt]
  | seq r s ihr ihs =>
    have hconcat : Matches (Regex.concat (r.deriv a) s) w ↔
        ∃ u v, w = u ++ v ∧ Matches r (a :: u) ∧ Matches s v := by
      rw [matches_concat, matches_seq]
      simp only [ihr]
    -- the first letter is one of `r`, or one of `s` if `r` matches the empty word
    rw [Regex.deriv, matches_seq_cons]
    split
    · rename_i hnull
      rw [matches_union, hconcat, ihs]
      simp [nullable_iff.1 hnull]
    · rename_i hnull
      rw [hconcat]
      constructor
      · exact .inl
      · rintro (h | ⟨hr, -⟩)
        · exact h
        · exact absurd (nullable_iff.2 hr) hnull
  | star r ih =>
    rw [Regex.deriv, matches_concat, matches_seq, matches_star_cons]
    simp only [ih]

/-- The first letter of a word. -/
theorem Matches.first {r : Regex α} {w : List α} (h : Matches r w) :
    ∀ a ∈ w.head?, r.first a = true := by
  induction h with
  | empty | starNil => exact nofun
  | one hp =>
    intro a ha
    rw [← Option.some.inj ha]
    exact hp
  | left _ ih =>
    intro a ha
    rw [Regex.first, ih a ha, Bool.true_or]
  | right _ ih =>
    intro a ha
    rw [Regex.first, ih a ha, Bool.or_true]
  | @seq r s u v hu _ ihu ihv =>
    intro a ha
    cases u with
    | nil => rw [Regex.first, nullable_iff.2 hu, ihv a ha, Bool.true_and, Bool.or_true]
    | cons b u => rw [Regex.first, ihu a ha, Bool.true_or]
  | @starCons r u v _ _ ihu ihv =>
    intro a ha
    cases u with
    | nil => exact ihv a ha
    | cons b u => exact ihu a ha

theorem Regex.all_letter {r r' : Regex α} (h : ∀ a, r'.letter a = true → r.letter a = true) :
    r'.All fun a => r.letter a = true := by
  induction r' with
  | never | empty => trivial
  | one p => exact h
  | alt s t ihs iht | seq s t ihs iht =>
    refine ⟨ihs fun a ha => h a ?_, iht fun a ha => h a ?_⟩
    · rw [Regex.letter, ha, Bool.true_or]
    · rw [Regex.letter, ha, Bool.or_true]
  | star s ih => exact ih h

/-- The letters of a word are letters of the expression. -/
theorem Matches.letter {r : Regex α} {w : List α} (h : Matches r w) : ∀ a ∈ w, r.letter a = true :=
  h.all (Regex.all_letter fun _ ha => ha)

/-! ### The longest match -/

/-- The longest match is at least as long as any match. -/
theorem longest_of_matches {r : Regex α} {u v : List α} (h : Matches r u) :
    ∃ n, r.longest (u ++ v) = some n ∧ u.length ≤ n := by
  induction u generalizing r with
  | nil =>
    have hnull := nullable_iff.2 h
    cases v with
    | nil =>
      refine ⟨0, ?_, Nat.le_refl _⟩
      unfold Regex.longest
      split
      · cases hnull
      · exact if_pos hnull
      · rename_i heq
        cases heq
    | cons a v =>
      cases hn : (r.deriv a).longest v with
      | none =>
        refine ⟨0, ?_, Nat.le_refl _⟩
        cases r with
        | never => cases hnull
        | _ => simp only [List.nil_append, Regex.longest, hn, hnull, if_true]
      | some n =>
        refine ⟨n + 1, ?_, Nat.zero_le _⟩
        cases r with
        | never => cases hnull
        | _ => simp only [List.nil_append, Regex.longest, hn]
  | cons a u ih =>
    obtain ⟨n, hn, hle⟩ := ih (matches_deriv.2 h)
    refine ⟨n + 1, ?_, Nat.succ_le_succ hle⟩
    cases r with
    | never => cases h
    | _ => simp only [List.cons_append, Regex.longest, hn]

/-- The longest match is a match. -/
theorem matches_of_longest {r : Regex α} {w : List α} {n : ℕ} (h : r.longest w = some n) :
    n ≤ w.length ∧ Matches r (w.take n) := by
  induction w generalizing r n with
  | nil =>
    unfold Regex.longest at h
    split at h
    · cases h
    · split at h
      · rename_i hnull
        cases h
        exact ⟨Nat.le_refl _, nullable_iff.1 hnull⟩
      · cases h
    · rename_i heq
      cases heq
  | cons a w ih =>
    unfold Regex.longest at h
    split at h
    · cases h
    · rename_i heq
      cases heq
    · rename_i heq
      cases heq
      split at h
      · rename_i m hm
        cases h
        obtain ⟨hle, hmatch⟩ := ih hm
        exact ⟨Nat.succ_le_succ hle, matches_deriv.1 hmatch⟩
      · split at h
        · rename_i hnull
          cases h
          exact ⟨Nat.zero_le _, nullable_iff.1 hnull⟩
        · cases h

/-- The longest match is a match, and no match is longer. -/
theorem longest_eq_some {r : Regex α} {w : List α} {n : ℕ} (h : r.longest w = some n) :
    ∃ u v, w = u ++ v ∧ u.length = n ∧ Matches r u ∧
      ∀ u' v', w = u' ++ v' → Matches r u' → u'.length ≤ n := by
  obtain ⟨hle, hmatch⟩ := matches_of_longest h
  refine ⟨w.take n, w.drop n, (List.take_append_drop n w).symm, ?_, hmatch, ?_⟩
  · rw [List.length_take, Nat.min_eq_left hle]
  · rintro u' v' rfl hu'
    obtain ⟨m, hm, hle'⟩ := longest_of_matches (v := v') hu'
    rw [h] at hm
    cases hm
    exact hle'

/-! ### Rules -/

/-- A pattern of a rule: a regular expression, or one that the end of the text follows. -/
inductive Pattern (α : Type) where
  | regex (r : Regex α)
  | eof (r : Regex α)

namespace Pattern

/-- The pattern matches `u` at the start of the text `u ++ v`. -/
def Matches : Pattern α → List α → List α → Prop
  | .regex r, u, _ => Lexing.Matches r u
  | .eof r, u, v => v = [] ∧ Lexing.Matches r u

/-- The length of the longest match of a pattern at the start of the text. -/
def longest : Pattern α → List α → Option ℕ
  | .regex r, w => r.longest w
  | .eof r, w => if r.longest w = some w.length then some w.length else none

theorem longest_of_matches {p : Pattern α} {u v : List α} (h : p.Matches u v) :
    ∃ n, p.longest (u ++ v) = some n ∧ u.length ≤ n := by
  cases p with
  | regex r => exact Lexing.longest_of_matches h
  | eof r =>
    obtain ⟨rfl, h⟩ := h
    obtain ⟨n, hn, hle⟩ := Lexing.longest_of_matches (v := []) h
    rw [List.append_nil] at hn ⊢
    have hlen : n = u.length := Nat.le_antisymm (matches_of_longest hn).1 hle
    exact ⟨u.length, if_pos (hlen ▸ hn), Nat.le_refl _⟩

theorem matches_of_longest {p : Pattern α} {w : List α} {n : ℕ} (h : p.longest w = some n) :
    n ≤ w.length ∧ p.Matches (w.take n) (w.drop n) := by
  cases p with
  | regex r => exact Lexing.matches_of_longest h
  | eof r =>
    rw [longest] at h
    split at h
    · rename_i hlen
      cases h
      refine ⟨Nat.le_refl _, List.drop_length, ?_⟩
      exact (Lexing.matches_of_longest hlen).2
    · cases h

end Pattern

/-- The pattern with the longest match, the first one of these, with the length of the
match. -/
def choose : List (Pattern α × β) → List α → Option (β × ℕ)
  | [], _ => none
  | (p, b) :: rules, w =>
    match p.longest w, choose rules w with
    | some n, some (b', m) => if m ≤ n then some (b, n) else some (b', m)
    | some n, none => some (b, n)
    | none, c => c

/-- What a rule does at the start of a text: the pattern that is chosen, the lexeme and the
text that is left. -/
def lex (rules : List (Pattern α × β)) (w : List α) : Option (β × List α × List α) :=
  (choose rules w).map fun c => (c.1, w.take c.2, w.drop c.2)

/-- What is chosen matches. -/
theorem choose_eq_some {rules : List (Pattern α × β)} {w : List α} {b : β} {n : ℕ}
    (h : choose rules w = some (b, n)) : ∃ p, (p, b) ∈ rules ∧ p.longest w = some n := by
  induction rules generalizing b n with
  | nil => cases h
  | cons rule rules ih =>
    obtain ⟨p, b'⟩ := rule
    rw [choose] at h
    split at h
    · rename_i k c m hk hm
      split at h
      · cases h
        exact ⟨p, List.mem_cons_self, hk⟩
      · cases h
        obtain ⟨q, hq, hlen⟩ := ih hm
        exact ⟨q, List.mem_cons_of_mem _ hq, hlen⟩
    · rename_i k hk hnone
      cases h
      exact ⟨p, List.mem_cons_self, hk⟩
    · obtain ⟨q, hq, hlen⟩ := ih h
      exact ⟨q, List.mem_cons_of_mem _ hq, hlen⟩

/-- There is a choice when some pattern matches, and the choice is no shorter. -/
theorem choose_isSome {rules : List (Pattern α × β)} {w : List α} {p : Pattern α} {b : β}
    {n : ℕ} (hmem : (p, b) ∈ rules) (hp : p.longest w = some n) :
    ∃ b' m, choose rules w = some (b', m) ∧ n ≤ m := by
  induction rules with
  | nil => cases hmem
  | cons rule rules ih =>
    obtain ⟨q, c⟩ := rule
    rw [choose]
    obtain heq | hmem := List.mem_cons.1 hmem
    · cases heq
      rw [hp]
      cases hr : choose rules w with
      | none => exact ⟨b, n, rfl, Nat.le_refl _⟩
      | some x =>
        obtain ⟨b', m⟩ := x
        by_cases hle : m ≤ n
        · exact ⟨b, n, if_pos hle, Nat.le_refl _⟩
        · exact ⟨b', m, if_neg hle, by omega⟩
    · obtain ⟨b', m, hr, hle⟩ := ih hmem
      rw [hr]
      cases hq : q.longest w with
      | none => exact ⟨b', m, rfl, hle⟩
      | some k =>
        by_cases hmk : m ≤ k
        · exact ⟨c, k, if_pos hmk, Nat.le_trans hle hmk⟩
        · exact ⟨b', m, if_neg hmk, hle⟩

/-- A rule that is chosen has a longer match than every rule before it. -/
theorem lt_of_choose {rules rules' : List (Pattern α × β)} {w : List α} {p : Pattern α}
    {b b' : β} {n k : ℕ} (h : choose (rules ++ rules') w = some (b, n))
    (hb : b ∉ rules.map Prod.snd) (hmem : (p, b') ∈ rules) (hp : p.longest w = some k) :
    k < n := by
  induction rules with
  | nil => cases hmem
  | cons rule rules ih =>
    obtain ⟨q, c⟩ := rule
    rw [List.map_cons, List.mem_cons, not_or] at hb
    rw [List.cons_append, choose] at h
    obtain heq | hmem := List.mem_cons.1 hmem
    · cases heq
      rw [hp] at h
      cases hr : choose (rules ++ rules') w with
      | none =>
        rw [hr] at h
        cases h
        exact absurd rfl hb.1
      | some x =>
        obtain ⟨b₁, m⟩ := x
        rw [hr] at h
        dsimp only at h
        split at h
        · cases h
          exact absurd rfl hb.1
        · cases h
          omega
    · refine ih ?_ hb.2 hmem
      split at h
      · rename_i hr
        split at h
        · cases h
          exact absurd rfl hb.1
        · rw [hr, h]
      · cases h
        exact absurd rfl hb.1
      · exact h

variable {rules rules' : List (Pattern α × β)} {w u v : List α} {p : Pattern α} {b b' : β}

/-- The lexeme and the text that is left make up the text, and the pattern matches. -/
theorem lex_eq_some (h : lex rules w = some (b, u, v)) :
    w = u ++ v ∧ ∃ p, (p, b) ∈ rules ∧ p.Matches u v := by
  obtain ⟨⟨c, n⟩, hc, heq⟩ := Option.map_eq_some_iff.1 h
  cases heq
  obtain ⟨p, hmem, hp⟩ := choose_eq_some hc
  exact ⟨(List.take_append_drop n w).symm, p, hmem, (Pattern.matches_of_longest hp).2⟩

/-- Some rule is chosen when one matches, with a lexeme that is no shorter. -/
theorem lex_isSome (hmem : (p, b) ∈ rules) (hp : p.Matches u v) :
    ∃ b' u' v', lex rules (u ++ v) = some (b', u', v') ∧ u.length ≤ u'.length := by
  obtain ⟨n, hn, hle⟩ := Pattern.longest_of_matches hp
  obtain ⟨b', m, hc, hle'⟩ := choose_isSome hmem hn
  refine ⟨b', _, _, by rw [lex, hc]; rfl, ?_⟩
  obtain ⟨q, -, hq⟩ := choose_eq_some hc
  rw [List.length_take, Nat.min_eq_left (Pattern.matches_of_longest hq).1]
  exact Nat.le_trans hle hle'

/-- A text is taken as a whole when every rule that matches it has the same case. -/
theorem lex_all (hmem : (p, b) ∈ rules) (hp : p.Matches w [])
    (hcase : ∀ x ∈ rules, x.1.Matches w [] → x.2 = b) : lex rules w = some (b, w, []) := by
  obtain ⟨c, u, v, hlex, hlen⟩ := lex_isSome hmem hp
  rw [List.append_nil] at hlex
  obtain ⟨hsplit, q, hq, hmatch⟩ := lex_eq_some hlex
  have hv : v = [] := by
    have hlen' := congrArg List.length hsplit
    rw [List.length_append] at hlen'
    exact List.eq_nil_of_length_eq_zero (by omega)
  rw [hv, List.append_nil] at hsplit
  rw [hv, ← hsplit] at hlex hmatch
  rw [hlex, show c = b from hcase _ hq hmatch]

/-- The lexeme is longer than what the rules before the chosen one match. -/
theorem lt_of_lex (h : lex (rules ++ rules') w = some (b, u, v))
    (hb : b ∉ rules.map Prod.snd) (hmem : (p, b') ∈ rules) {u' v' : List α}
    (hw : w = u' ++ v') (hp : p.Matches u' v') : u'.length < u.length := by
  obtain ⟨⟨c, n⟩, hc, heq⟩ := Option.map_eq_some_iff.1 h
  cases heq
  obtain ⟨k, hk, hle⟩ := Pattern.longest_of_matches hp
  rw [← hw] at hk
  obtain ⟨q, -, hq⟩ := choose_eq_some hc
  rw [List.length_take, Nat.min_eq_left (Pattern.matches_of_longest hq).1]
  exact Nat.lt_of_le_of_lt hle (lt_of_choose hc hb hmem hk)

end Lexing
