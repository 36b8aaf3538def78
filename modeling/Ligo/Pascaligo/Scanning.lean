import Ligo.Pascaligo.Lexemes

/-!
# What the rules for strings and comments consume

Each of these rules reads a part of the text, adds it to its thread and moves the position by
its length (`Consumes`). A rule that does not return raises an error of the lexer, if the
decoder does not end before the text does (`Own`): every rule has a case for every text, and
the number it recurses on is large enough.

The rule for the flags of a line directive is different. It has no case for most characters,
and it converts numbers of any size to integers; `scanFlags_of_flags` and
`scanFlags_of_not_flags` say exactly when it fails.
-/

namespace Ligo.Pascaligo.Lexer

open Lexing

variable {lib : Libraries}

variable (lib) in
/-- The exceptions of the rules. -/
def Own (e : Exn) : Prop := lib.NeverEnds → e.IsError

/-- Errors that the lexer reports itself. -/
theorem own_fail {region : Region} {value : LexError} : Own lib (.error region value) :=
  fun _ => ⟨region, value, rfl⟩

/-! ### Threads and positions -/

/-- The thread has read `t` more. -/
structure Grows (thread thread' : Thread) (t : Text) : Prop where
  opening : thread'.opening = thread.opening
  len : thread'.len = thread.len + t.length
  acc : thread'.acc = t.reverse ++ thread.acc

/-- The position has moved over `t`. -/
structure Moves (state state' : Cursor lib) (t : Text) : Prop where
  file : state'.pos.file = state.pos.file
  byteOffset : state'.pos.byteOffset = state.pos.byteOffset + t.length

/-- A thread that grows by two texts. -/
theorem Grows.trans {thread thread' thread'' : Thread} {t u : Text} (h : Grows thread thread' t)
    (h' : Grows thread' thread'' u) : Grows thread thread'' (t ++ u) where
  opening := by rw [h'.opening, h.opening]
  len := by rw [h'.len, h.len, List.length_append, Nat.add_assoc]
  acc := by rw [h'.acc, h.acc, List.reverse_append, List.append_assoc]

/-- A cursor that moves over two texts. -/
theorem Moves.trans {state state' state'' : Cursor lib} {t u : Text} (h : Moves state state' t)
    (h' : Moves state' state'' u) : Moves state state'' (t ++ u) where
  file := by rw [h'.file, h.file]
  byteOffset := by
    rw [h'.byteOffset, h.byteOffset, List.length_append, Int.natCast_add, Int.add_assoc]

theorem grows_pushString (thread : Thread) (t : Text) : Grows thread (pushString t thread) t :=
  ⟨rfl, rfl, rfl⟩

theorem grows_pushChar (thread : Thread) (c : UInt8) : Grows thread (pushChar c thread) [c] :=
  ⟨rfl, rfl, rfl⟩

/-- Moving over a lexeme. -/
def advance (state : Cursor lib) (lexeme : Text) : Cursor lib :=
  { state with pos := state.pos.shiftBytes lexeme.length }

/-- The cursor moves over the lexeme. -/
theorem moves_advance (state : Cursor lib) (lexeme : Text) :
    Moves state (advance state lexeme) lexeme := ⟨rfl, rfl⟩

/-- The region of a lexeme starts where the cursor is and ends after the lexeme. -/
theorem sync_eq (state : Cursor lib) (lexeme : Text) :
    sync state lexeme =
      .ok (⟨state.pos, (advance state lexeme).pos⟩, advance state lexeme) := by
  have hmake : Region.make state.pos (state.pos.shiftBytes lexeme.length) =
      .ok ⟨state.pos, (advance state lexeme).pos⟩ := Region.make_eq_ok rfl (by simp)
  rw [sync, hmake]
  rfl

theorem moves_newLine (state : Cursor lib) (lexeme : Text) :
    Moves state { state with pos := state.pos.newLine lexeme } lexeme := ⟨rfl, rfl⟩

/-- A rule has read a part of the text. -/
def Consumes (thread : Thread) (state : Cursor lib) (buf : Text)
    (x : Thread × Cursor lib × Text) : Prop :=
  ∃ t, t ≠ [] ∧ buf = t ++ x.2.2 ∧ Grows thread x.1 t ∧ Moves state x.2.1 t

/-- Something is consumed, so the recursion of the scanner ends. -/
theorem Consumes.length_lt {thread thread' : Thread} {state state' : Cursor lib}
    {buf rest : Text} (h : Consumes thread state buf (thread', state', rest)) :
    rest.length < buf.length := by
  obtain ⟨t, ht, hbuf, -, -⟩ := h
  have hpos : 0 < t.length := List.length_pos_iff.2 ht
  rw [hbuf, List.length_append]
  exact Nat.lt_add_of_pos_left hpos

/-- What is scanned in two parts. -/
theorem Consumes.trans {thread thread' : Thread} {state state' : Cursor lib} {buf buf' : Text}
    {x : Thread × Cursor lib × Text} (h : Consumes thread state buf (thread', state', buf'))
    (h' : Consumes thread' state' buf' x) : Consumes thread state buf x := by
  obtain ⟨t, ht, rfl, hgrow, hmove⟩ := h
  obtain ⟨u, -, rfl, hgrow', hmove'⟩ := h'
  refine ⟨t ++ u, by simp [ht], (List.append_assoc ..).symm, hgrow.trans hgrow', ?_⟩
  exact hmove.trans hmove'

/-- The rest of the rule goes on from where a part of it stopped. -/
theorem Outcome.consumes {thread thread' : Thread} {state state' : Cursor lib}
    {buf buf' : Text} {r : Except Exn (Thread × Cursor lib × Text)}
    (h : Consumes thread state buf (thread', state', buf'))
    (hr : Outcome r (Consumes thread' state' buf') (Own lib)) :
    Outcome r (Consumes thread state buf) (Own lib) :=
  hr.mono (fun _ hx => h.trans hx) fun _ he => he

/-! ### The text of a thread -/

/-- The bytes of a thread are collected in reverse. -/
theorem fill_reverse (l bytes rest : List UInt8) (hlen : bytes.length = l.length) :
    fill (l.length - 1) (bytes ++ rest) l = .ok (l.reverse ++ rest) := by
  induction l generalizing bytes rest with
  | nil =>
    rw [List.length_eq_zero_iff.1 hlen]
    rfl
  | cons c l ih =>
    -- The last of the first characters is overwritten and joins the rest.
    obtain rfl | ⟨init, last, rfl⟩ := List.eq_nil_or_concat bytes
    · cases hlen
    have hinit : init.length = l.length := by simpa using hlen
    have hi : ((c :: l).length : ℤ) - 1 = l.length := by simp
    have hset : (init.concat last ++ rest).set l.length c = init ++ (c :: rest) := by
      rw [← hinit, List.concat_eq_append, List.append_assoc,
        List.set_append_right _ _ (Nat.le_refl _)]
      simp
    rw [fill, hi, if_pos ⟨by omega, by simp [hinit]⟩, Int.toNat_natCast, hset, ih init _ hinit]
    simp

/-- The string of a thread is its text in order. -/
theorem mkStr_eq (p : List UInt8) : mkStr p.length p = .ok p.reverse := by
  have h := fill_reverse p (List.replicate p.length (ord ' ')) [] (List.length_replicate ..)
  rw [List.append_nil, List.append_nil] at h
  exact h

/-! ### Strings -/

/-- A string is read up to its end, or the lexer reports why it has none. The other scanners
have results of the same form. -/
theorem scanString_outcome {fuel : ℕ} {thread : Thread} {state : Cursor lib} {buf : Text}
    (hfuel : buf.length < fuel) :
    Outcome (scanString fuel thread state buf) (Consumes thread state buf) (Own lib) := by
  induction fuel generalizing thread state buf with
  | zero => omega
  | succ fuel ih =>
    have hwild : (.regex wild, .char) ∈ stringRules := by simp [stringRules]
    have heof : (.eof .empty, .eof) ∈ stringRules := by simp [stringRules]
    obtain ⟨⟨case, lexeme, rest⟩, hlex⟩ := lex_total hwild heof buf
    -- A case that goes on has read its lexeme.
    have hnext : ∀ r : Regex UInt8, (∀ p, (p, case) ∈ stringRules → p = .regex r) →
        r.nullable = false → ∀ thread', Grows thread thread' lexeme →
        Consumes thread state buf (thread', advance state lexeme, rest) := by
      intro r hr hnull thread' hgrow
      obtain ⟨rfl, hmatch⟩ := lex_regex hlex hr
      exact ⟨lexeme, ne_nil_of_matches hmatch hnull, rfl, hgrow, moves_advance state lexeme⟩
    rw [scanString, hlex]
    cases case with
    | nl => exact Outcome.error own_fail
    | eof => exact Outcome.error own_fail
    | control =>
      dsimp only
      rw [sync_eq]
      exact Outcome.error own_fail
    | undefined =>
      dsimp only
      rw [sync_eq]
      exact Outcome.error own_fail
    | quote =>
      have hr : ∀ p, (p, StringCase.quote) ∈ stringRules → p = .regex (chr '"') := by
        simp [stringRules]
      obtain rfl := eq_of_matches_chr (lex_regex hlex hr).2
      dsimp only
      rw [sync_eq]
      exact Outcome.ok (hnext _ hr rfl _ (grows_pushChar thread _))
    | esc =>
      have hr : ∀ p, (p, StringCase.esc) ∈ stringRules → p = .regex esc := by
        simp [stringRules]
      have h := hnext _ hr rfl _ (grows_pushString thread lexeme)
      dsimp only
      rw [sync_eq]
      exact Outcome.consumes h (ih (by have := h.length_lt; omega))
    | char =>
      have hr : ∀ p, (p, StringCase.char) ∈ stringRules → p = .regex wild := by
        simp [stringRules]
      obtain ⟨c, rfl, -⟩ := matches_one.1 (lex_regex hlex hr).2
      have h := hnext _ hr rfl _ (grows_pushChar thread c)
      dsimp only
      rw [sync_eq]
      exact Outcome.consumes h (ih (by have := h.length_lt; omega))

/-! ### Comments -/

theorem scanUtf8_outcome (thread : Thread) (decoder : lib.Decoder) (buf : Text) :
    Outcome (scanUtf8 thread decoder buf)
      (fun x => ∃ t, t ≠ [] ∧ buf = t ++ x.2.2.2 ∧ Grows thread x.1 t) (Own lib) := by
  induction buf generalizing thread decoder with
  | nil => exact Outcome.error own_fail
  | cons c rest ih =>
    have hc : (c :: rest) = [c] ++ rest := rfl
    have hpush := grows_pushChar thread c
    rw [scanUtf8]
    cases hd : lib.decode decoder c with
    | mk decoder' decoded =>
      cases decoded with
      | uchar => exact Outcome.ok ⟨[c], List.cons_ne_nil _ _, hc, hpush⟩
      | malformed => exact Outcome.ok ⟨[c], List.cons_ne_nil _ _, hc, hpush⟩
      | await =>
        refine (ih (pushChar c thread) decoder').mono ?_ fun _ he => he
        rintro x ⟨t, -, rfl, hgrow⟩
        exact ⟨[c] ++ t, List.cons_ne_nil _ _, rfl, hpush.trans hgrow⟩
      | end_ =>
        refine Outcome.error fun hend => absurd ?_ (hend decoder c)
        rw [hd]

theorem scanUchar_outcome (thread : Thread) (state : Cursor lib) (buf : Text) :
    Outcome (scanUchar thread state buf) (Consumes thread state buf) (Own lib) := by
  refine (scanUtf8_outcome thread state.decoder buf).bind ?_
  rintro ⟨thread', status, decoder, rest⟩ ⟨t, ht, hbuf, hgrow⟩
  have hdelta : thread'.len - thread.len = t.length := by
    rw [hgrow.len]
    omega
  cases status with
  | none =>
    refine Outcome.ok ⟨t, ht, hbuf, hgrow, rfl, ?_⟩
    rw [← hdelta]
    rfl
  | some err =>
    have hmake : ∀ n : ℕ, Region.make state.pos (state.pos.shiftOneUchar n) =
        .ok ⟨state.pos, state.pos.shiftOneUchar n⟩ := fun n => Region.make_eq_ok rfl (by simp)
    dsimp only
    rw [hmake]
    exact Outcome.error own_fail

/-- Comments may be nested; the fuel suffices since every call consumes something. -/
theorem scanBlock_outcome {fuel : ℕ} {thread : Thread} {state : Cursor lib} {buf : Text}
    (hfuel : buf.length < fuel) :
    Outcome (scanBlock fuel thread state buf) (Consumes thread state buf) (Own lib) := by
  induction fuel generalizing thread state buf with
  | zero => omega
  | succ fuel ih =>
    have hwild : (.regex wild, .char) ∈ blockRules := by simp [blockRules]
    have heof : (.eof .empty, .eof) ∈ blockRules := by simp [blockRules]
    obtain ⟨⟨case, lexeme, rest⟩, hlex⟩ := lex_total hwild heof buf
    have hnext : ∀ r : Regex UInt8, (∀ p, (p, case) ∈ blockRules → p = .regex r) →
        r.nullable = false → ∀ thread' state', Grows thread thread' lexeme →
        Moves state state' lexeme → Consumes thread state buf (thread', state', rest) := by
      intro r hr hnull thread' state' hgrow hmove
      obtain ⟨rfl, hmatch⟩ := lex_regex hlex hr
      exact ⟨lexeme, ne_nil_of_matches hmatch hnull, rfl, hgrow, hmove⟩
    rw [scanBlock, hlex]
    cases case with
    | eof => exact Outcome.error own_fail
    | closing =>
      have hr : ∀ p, (p, BlockCase.closing) ∈ blockRules → p = .regex (word ['*', ')']) := by
        simp [blockRules]
      dsimp only
      rw [sync_eq]
      exact Outcome.ok (hnext _ hr rfl _ _ (grows_pushString thread lexeme)
        (moves_advance state lexeme))
    | nl =>
      have hr : ∀ p, (p, BlockCase.nl) ∈ blockRules → p = .regex nl := by
        simp [blockRules]
      have h := hnext _ hr rfl _ _ (grows_pushString thread lexeme) (moves_newLine state lexeme)
      exact Outcome.consumes h (ih (by have := h.length_lt; omega))
    | char =>
      refine (scanUchar_outcome thread state buf).bind ?_
      rintro ⟨thread', state', rest'⟩ h
      exact Outcome.consumes h (ih (by have := h.length_lt; omega))
    | opening =>
      have hr : ∀ p, (p, BlockCase.opening) ∈ blockRules →
          p = .regex (.alt (chr '"') (word ['(', '*'])) := by simp [blockRules]
      dsimp only
      rw [sync_eq, Outcome.ok_bind]
      dsimp only
      -- The thread of the inner rule has an opening of its own, which is put back.
      have hinner := hnext _ hr rfl (pushString lexeme thread) (advance state lexeme)
        (grows_pushString thread lexeme) (moves_advance state lexeme)
      have hlt := hinner.length_lt
      have hreopen : ∀ x, Consumes { pushString lexeme thread with
            opening := ⟨state.pos, (advance state lexeme).pos⟩ } (advance state lexeme) rest x →
          Outcome (scanBlock fuel { x.1 with opening := thread.opening } x.2.1 x.2.2)
            (Consumes thread state buf) (Own lib) := by
        rintro ⟨thread', state', rest'⟩ ⟨t, ht, hrest, hgrow, hmove⟩
        have h : Consumes thread state buf
            ({ thread' with opening := thread.opening }, state', rest') :=
          hinner.trans ⟨t, ht, hrest, ⟨rfl, hgrow.len, hgrow.acc⟩, hmove⟩
        have hlt' := h.length_lt
        exact Outcome.consumes h (ih (Nat.lt_of_lt_of_le hlt' (Nat.le_of_lt_succ hfuel)))
      split
      · exact (scanString_outcome (Nat.lt_succ_self _)).bind hreopen
      · exact (ih (by omega)).bind hreopen

theorem scanLine_outcome {fuel : ℕ} {thread : Thread} {state : Cursor lib} {buf : Text}
    (hfuel : buf.length < fuel) :
    Outcome (scanLine fuel thread state buf) (Consumes thread state buf) (Own lib) := by
  induction fuel generalizing thread state buf with
  | zero => omega
  | succ fuel ih =>
    have hwild : (.regex wild, .char) ∈ lineRules := by simp [lineRules]
    have heof : (.eof .empty, .eof) ∈ lineRules := by simp [lineRules]
    obtain ⟨⟨case, lexeme, rest⟩, hlex⟩ := lex_total hwild heof buf
    rw [scanLine, hlex]
    cases case with
    | eof => exact Outcome.error own_fail
    | nl =>
      have hr : ∀ p, (p, LineCase.nl) ∈ lineRules → p = .regex nl := by simp [lineRules]
      obtain ⟨hbuf, hmatch⟩ := lex_regex hlex hr
      exact Outcome.ok ⟨lexeme, ne_nil_of_matches hmatch rfl, hbuf,
        grows_pushString thread lexeme, moves_newLine state lexeme⟩
    | char =>
      refine (scanUchar_outcome thread state buf).bind ?_
      rintro ⟨thread', state', rest'⟩ h
      exact Outcome.consumes h (ih (by have := h.length_lt; omega))

/-! ### Flags of line directives -/

/-- The state after a newline. -/
def afterNewline (state : State lib) (value : Text) : State lib :=
  { state with
    pos := state.pos.newLine value
    markup := .Newline ⟨⟨state.pos, state.pos.newLine value⟩, value⟩ :: state.markup }

theorem pushNewline_eq (state : State lib) (value : Text) :
    pushNewline state value = .ok (afterNewline state value) := by
  have hmake : Region.make state.pos (state.pos.newLine value) =
      .ok ⟨state.pos, state.pos.newLine value⟩ := Region.make_eq_ok rfl (by simp)
  rw [pushNewline, hmake]
  rfl

/-- Numbers are read or rejected with the message of the standard library. -/
theorem intOfString_cases (s : Text) :
    (∃ n, intOfString s = .ok n) ∨ intOfString s = .error (.failure "int_of_string") := by
  unfold intOfString
  dsimp only
  split
  · exact .inr rfl
  · split
    · split
      · split
        · exact .inl ⟨_, rfl⟩
        · exact .inr rfl
      · split
        · exact .inl ⟨_, rfl⟩
        · exact .inr rfl
    · exact .inr rfl

/-- The rest of the line of a directive: blanks and numbers that fit, up to a newline or the
end of the text. -/
inductive Flags : Text → Prop
  | blanks {buf lexeme rest : Text} (hlex : lex flagsRules buf = some (.blanks, lexeme, rest))
    (hrest : Flags rest) : Flags buf
  | code {buf lexeme rest : Text} (hlex : lex flagsRules buf = some (.code, lexeme, rest))
    (hcode : ∃ n, intOfString lexeme = .ok n) (hrest : Flags rest) : Flags buf
  | nl {buf lexeme rest : Text} (hlex : lex flagsRules buf = some (.nl, lexeme, rest)) :
    Flags buf
  | eof {buf lexeme rest : Text} (hlex : lex flagsRules buf = some (.eof, lexeme, rest)) :
    Flags buf

/-- The blanks and the numbers are not empty. -/
theorem length_flags {case : FlagsCase} {buf lexeme rest : Text}
    (hlex : lex flagsRules buf = some (case, lexeme, rest)) (hcase : case = .blanks ∨ case = .code) :
    rest.length < buf.length := by
  have hne : buf = lexeme ++ rest ∧ lexeme ≠ [] := by
    obtain rfl | rfl := hcase
    · obtain ⟨hbuf, hmatch⟩ := lex_regex (r := .plus blank) hlex (by simp [flagsRules])
      exact ⟨hbuf, ne_nil_of_matches hmatch rfl⟩
    · obtain ⟨hbuf, hmatch⟩ := lex_regex (r := integer) hlex (by simp [flagsRules])
      exact ⟨hbuf, ne_nil_of_matches hmatch rfl⟩
  rw [hne.1, List.length_append]
  exact Nat.lt_add_of_pos_left (List.length_pos_iff.2 hne.2)

/-- The flags of a directive are numbers. -/
theorem scanFlags_of_flags {fuel : ℕ} (state : State lib) (acc : List ℤ) {buf : Text}
    (h : Flags buf) (hfuel : buf.length < fuel) :
    ∃ flags state' rest, scanFlags fuel state acc buf = .ok (flags, state', rest) ∧
      rest.length ≤ buf.length := by
  -- by induction on the fuel, which stays above what is left to read
  induction fuel generalizing state acc buf with
  | zero => omega
  | succ fuel ih =>
    cases h with
    | @blanks _ lexeme rest hlex hrest =>
      have hlt := length_flags hlex (.inl rfl)
      obtain ⟨flags, state', rest', hscan, hle⟩ := ih _ _ hrest (by omega)
      refine ⟨flags, state', rest', ?_, by omega⟩
      rw [scanFlags, hlex]
      dsimp only
      rw [sync_eq]
      exact hscan
    | @code _ lexeme rest hlex hcode hrest =>
      have hlt := length_flags hlex (.inr rfl)
      obtain ⟨n, hn⟩ := hcode
      obtain ⟨flags, state', rest', hscan, hle⟩ := ih _ _ hrest (by omega)
      refine ⟨flags, state', rest', ?_, by omega⟩
      rw [scanFlags, hlex]
      dsimp only
      rw [sync_eq, Outcome.ok_bind]
      dsimp only
      rw [hn]
      exact hscan
    | @nl _ lexeme rest hlex =>
      obtain ⟨hbuf, -⟩ := lex_eq_some hlex
      rw [scanFlags, hlex]
      dsimp only
      rw [pushNewline_eq]
      refine ⟨_, _, _, rfl, ?_⟩
      rw [hbuf, List.length_append]
      exact Nat.le_add_left _ _
    | @eof _ lexeme rest hlex =>
      obtain ⟨hbuf, -⟩ := lex_eq_some hlex
      rw [scanFlags, hlex]
      dsimp only
      rw [sync_eq]
      refine ⟨_, _, _, rfl, ?_⟩
      rw [hbuf, List.length_append]
      exact Nat.le_add_left _ _

/-- Anything else among them makes `int_of_string` fail. -/
theorem scanFlags_of_not_flags {fuel : ℕ} (state : State lib) (acc : List ℤ) {buf : Text}
    (h : ¬ Flags buf) (hfuel : buf.length < fuel) :
    ∃ message, scanFlags fuel state acc buf = .error (.failure message) := by
  induction fuel generalizing state acc buf with
  | zero => omega
  | succ fuel ih =>
    rw [scanFlags]
    cases hlex : lex flagsRules buf with
    | none => exact ⟨_, rfl⟩
    | some x =>
      obtain ⟨case, lexeme, rest⟩ := x
      cases case with
      | blanks =>
        have hlt := length_flags hlex (.inl rfl)
        dsimp only
        rw [sync_eq]
        exact ih _ _ (fun hrest => h (.blanks hlex hrest)) (by omega)
      | code =>
        have hlt := length_flags hlex (.inr rfl)
        dsimp only
        rw [sync_eq, Outcome.ok_bind]
        dsimp only
        obtain ⟨n, hn⟩ | hfail := intOfString_cases lexeme
        · rw [hn]
          exact ih _ _ (fun hrest => h (.code hlex ⟨n, hn⟩ hrest)) (by omega)
        · rw [hfail]
          exact ⟨_, rfl⟩
      | nl => exact absurd (.nl hlex) h
      | eof => exact absurd (.eof hlex) h

end Ligo.Pascaligo.Lexer
