import Ligo.Pascaligo.Scanning

/-!
# The cases of the rule `scan`

What one case of `scan` does (`StepSpec`): it adds one markup unit, or it finds a token, and
the lexeme and the region are those of the text it has read. The line directive is the only
case that moves the position elsewhere, and the only one that raises a foreign exception
(`scanStep_outcome`, `scanStep_directive`). The case of the minus sign is dead, since
`symbol` comes first and matches as much (`not_takes_minus`).

The rule itself takes cases until one finds a token or fails (`scan_outcome`).
-/

namespace Ligo.Pascaligo.Lexer

open Lexing

variable {lib : Libraries}

/-- The case that `scan` takes at the start of a text. -/
def Takes (case : ScanCase) (buf : Text) : Prop :=
  ∃ lexeme rest, lex scanRules buf = some (case, lexeme, rest)

/-- A line directive at the start of the text has a number that fits and well-formed flags. -/
def DirectiveOk (buf : Text) : Prop :=
  ∀ lexeme rest, lex scanRules buf = some (.directive, lexeme, rest) →
    Flags rest ∧ ∃ n, intOfString (directiveParts lexeme).1 = .ok n

/-- The lexer takes one rule only. -/
theorem takes_iff {case case' : ScanCase} {buf lexeme rest : Text}
    (h : lex scanRules buf = some (case, lexeme, rest)) : Takes case' buf ↔ case = case' := by
  constructor
  · rintro ⟨lexeme', rest', h'⟩
    rw [h] at h'
    cases h'
    rfl
  · rintro rfl
    exact ⟨lexeme, rest, h⟩

/-- The pattern `symbol` matches a minus sign too, and comes first. -/
theorem not_takes_minus (buf : Text) : ¬ Takes .minus buf := by
  rintro ⟨lexeme, rest, h⟩
  obtain ⟨hbuf, hmatch⟩ := lex_regex (r := chr '-') h (by simp [scanRules])
  have hsplit : scanRules = scanRules.take 15 ++ scanRules.drop 15 :=
    (List.take_append_drop 15 scanRules).symm
  rw [hsplit] at h
  have hmem : (.regex symbol, .symbol) ∈ scanRules.take 15 := by simp [scanRules]
  have hsymbol : Matches symbol lexeme := by
    rw [eq_of_matches_chr hmatch]
    exact matches_any.2 ⟨word ['-'], by simp [symbolWords], matches_word.2 rfl⟩
  have hlt := lt_of_lex h (by simp [scanRules]) hmem hbuf hsymbol
  exact Nat.lt_irrefl _ hlt

/-! ### Tokens -/

variable {state : Cursor lib} {lexeme : Text}

/-- The token covers the lexeme, and the position has moved over it. -/
structure Found (state : Cursor lib) (lexeme : Text) (token : Token lib.Hex)
    (state' : Cursor lib) : Prop where
  text : token.text = lexeme
  toRegion : token.toRegion = ⟨state.pos, state'.pos⟩
  moves : Moves state state' lexeme

/-- A token that is made at the region of the lexeme. -/
theorem found_of_made {token : Token lib.Hex}
    (h : token.Made lexeme ⟨state.pos, (advance state lexeme).pos⟩) :
    Found state lexeme token (advance state lexeme) :=
  ⟨h.text, h.toRegion, moves_advance state lexeme⟩

/-- A token that is neither a byte literal nor the end. -/
def FoundPlain (state : Cursor lib) (lexeme : Text) (x : Token lib.Hex × Cursor lib) : Prop :=
  Found state lexeme x.1 x.2 ∧ x.1.isBytes = false ∧ x.1.isEof = false

/-- A lexeme for which no token can be made is an error that the lexer reports. -/
theorem mkOrFail_outcome {mk : Text → Region → Except Exn (Option (Token lib.Hex))}
    {err : LexError}
    (hmk : ∀ region, Outcome (mk lexeme region)
      (fun o => ∀ token ∈ o, token.Made lexeme region) fun _ => False) :
    Outcome (mkOrFail mk err state lexeme) (FoundPlain state lexeme) (Own lib) := by
  rw [mkOrFail, sync_eq, Outcome.ok_bind]
  dsimp only
  refine ((hmk _).mono (fun _ h => h) fun _ h => h.elim).bind ?_
  intro o ho
  cases o with
  | none => exact Outcome.error own_fail
  | some token =>
    have hmade := ho token rfl
    exact Outcome.ok ⟨found_of_made hmade, hmade.isBytes, hmade.isEof⟩

theorem mkToken_outcome {mk : Text → Region → Except Exn (Token lib.Hex)}
    (hmk : ∀ region, Outcome (mk lexeme region)
      (fun token => token.Made lexeme region) fun _ => False) :
    Outcome (mkToken mk state lexeme) (FoundPlain state lexeme) (Own lib) := by
  rw [mkToken, sync_eq, Outcome.ok_bind]
  dsimp only
  refine ((hmk _).mono (fun _ h => h) fun _ h => h.elim).bind ?_
  intro token hmade
  exact Outcome.ok ⟨found_of_made hmade, hmade.isBytes, hmade.isEof⟩

/-! ### Strings and comments -/

/-- The thread of a string or comment that starts with a lexeme. -/
def openThread (state : Cursor lib) (lexeme : Text) : Thread :=
  { opening := ⟨state.pos, (advance state lexeme).pos⟩
    len := lexeme.length
    acc := lexeme.reverse }

/-- What a rule has read, together with the opening. -/
structure Closed (state : Cursor lib) (text : Text) (thread : Thread) (state' : Cursor lib) :
    Prop where
  region : Region.make thread.opening.start state'.pos = .ok ⟨state.pos, state'.pos⟩
  value : mkStr thread.len thread.acc = .ok text
  moves : Moves state state' text

/-- What a nested scanner consumes ends the thread that was opened. -/
theorem closed_of_consumes (lexeme : Text) {rest : Text} {x : Thread × Cursor lib × Text}
    (h : Consumes (openThread state lexeme) (advance state lexeme) rest x) :
    ∃ t, rest = t ++ x.2.2 ∧ Closed state (lexeme ++ t) x.1 x.2.1 := by
  obtain ⟨t, -, hrest, hgrow, hmove⟩ := h
  have hmoves := (moves_advance state lexeme).trans hmove
  refine ⟨t, hrest, ?_, ?_, hmoves⟩
  · rw [hgrow.opening]
    refine Region.make_eq_ok hmoves.file.symm ?_
    rw [hmoves.byteOffset]
    exact Int.le_add_of_nonneg_right (Int.natCast_nonneg _)
  · have hacc : x.1.acc = (lexeme ++ t).reverse := by
      rw [hgrow.acc, List.reverse_append]
      rfl
    have hlen : x.1.len = x.1.acc.length := by
      rw [hgrow.len, hacc, List.length_reverse, List.length_append]
      rfl
    rw [hlen, mkStr_eq, hacc, List.reverse_reverse]

/-! ### Steps -/

/-- A markup unit with the text and its region is added. -/
structure AddsMarkup (state state' : State lib) (t : Text) : Prop where
  markup : ∃ m : Markup, state'.markup = m :: state.markup ∧ m.toLexeme = t ∧
    m.region = ⟨state.pos, state'.pos⟩
  moves : Moves state.toCursor state'.toCursor t

/-- What a case of `scan` does at the start of a text. -/
def StepSpec (state : State lib) (buf : Text) : Next lib → Prop
  | .again state' rest => rest.length < buf.length ∧
      (Takes .directive buf ∨ ∃ t, buf = t ++ rest ∧ AddsMarkup state state' t)
  | .token token state' rest => ∃ t, buf = t ++ rest ∧
      Found state.toCursor t token state'.toCursor ∧ state'.markup = state.markup ∧
      (token.isBytes = true ↔ Takes .bytes buf) ∧ (token.isEof = true → buf = [])
  | .minus .. => False

section Cases

variable {state : State lib} {buf lexeme rest : Text} {case : ScanCase}

/-- The steps that add markup: it is the text that they consume, at its region. -/
theorem pushNewline_outcome (hbuf : buf = lexeme ++ rest) (hne : lexeme ≠ []) :
    Outcome (scanAction .newline state lexeme rest) (StepSpec state buf) (Own lib) := by
  rw [scanAction, pushNewline_eq]
  refine Outcome.ok ⟨?_, .inr ⟨lexeme, hbuf, ?_⟩⟩
  · rw [hbuf, List.length_append]
    exact Nat.lt_add_of_pos_left (List.length_pos_iff.2 hne)
  · exact ⟨⟨_, rfl, rfl, rfl⟩, moves_newLine state.toCursor lexeme⟩

theorem pushLexeme_outcome {unit : Region → Text → Markup} (hbuf : buf = lexeme ++ rest)
    (hne : lexeme ≠ [])
    (hunit : ∀ region, (unit region lexeme).toLexeme = lexeme ∧
      (unit region lexeme).region = region) :
    Outcome (pushLexeme unit state lexeme >>= fun state => .ok (.again state rest))
      (StepSpec state buf) (Own lib) := by
  rw [pushLexeme, sync_eq]
  refine Outcome.ok ⟨?_, .inr ⟨lexeme, hbuf, ?_⟩⟩
  · rw [hbuf, List.length_append]
    exact Nat.lt_add_of_pos_left (List.length_pos_iff.2 hne)
  · exact ⟨⟨_, rfl, (hunit _).1, (hunit _).2⟩, moves_advance state.toCursor lexeme⟩

theorem pushComment_outcome {unit : Reg Text → Markup} (hbuf : buf = lexeme ++ rest)
    (hne : lexeme ≠ [])
    (hunit : ∀ r : Reg Text, (unit r).toLexeme = r.value ∧ (unit r).region = r.region)
    {x : Thread × Cursor lib × Text}
    (h : Consumes (openThread state.toCursor lexeme) (advance state.toCursor lexeme) rest x) :
    Outcome (pushComment unit x.1 { state with toCursor := x.2.1 } >>= fun state =>
      .ok (.again state x.2.2)) (StepSpec state buf) (Own lib) := by
  obtain ⟨t, hrest, hclosed⟩ := closed_of_consumes lexeme h
  have hbuf' : buf = (lexeme ++ t) ++ x.2.2 := by rw [hbuf, hrest, List.append_assoc]
  rw [pushComment, hclosed.region, Outcome.ok_bind, hclosed.value]
  refine Outcome.ok ⟨?_, .inr ⟨_, hbuf', ?_⟩⟩
  · rw [hbuf', List.length_append]
    exact Nat.lt_add_of_pos_left (List.length_pos_iff.2 (by simp [hne]))
  · exact ⟨⟨_, rfl, (hunit _).1, (hunit _).2⟩, hclosed.moves⟩

/-- A step that finds a token ends the scan. -/
theorem finish_outcome {mk : Cursor lib → Text → Except Exn (Token lib.Hex × Cursor lib)}
    (hlex : lex scanRules buf = some (case, lexeme, rest)) (hcase : case ≠ .bytes)
    (hmk : Outcome (mk state.toCursor lexeme) (FoundPlain state.toCursor lexeme) (Own lib)) :
    Outcome (finish mk state lexeme rest) (StepSpec state buf) (Own lib) := by
  refine hmk.bind ?_
  rintro ⟨token, state'⟩ ⟨hfound, hbytes, heof⟩
  refine Outcome.ok ⟨lexeme, (lex_eq_some hlex).1, hfound, rfl, ?_, ?_⟩
  · rw [takes_iff hlex]
    constructor
    · intro h
      rw [h] at hbytes
      cases hbytes
    · exact fun h => absurd h hcase
  · intro h
    rw [h] at heof
    cases heof

end Cases

/-- Every case but an ill-formed line directive does what it should, or raises an error of the
lexer. -/
theorem scanStep_outcome {state : State lib} {buf : Text} (hdir : DirectiveOk buf) :
    Outcome (scanStep state buf) (StepSpec state buf) (Own lib) := by
  have hwild : (.regex wild, .other) ∈ scanRules := by simp [scanRules]
  have heof : (.eof .empty, .eof) ∈ scanRules := by simp [scanRules]
  obtain ⟨⟨case, lexeme, rest⟩, hlex⟩ := lex_total hwild heof buf
  have hbuf := (lex_eq_some hlex).1
  have hmatch : ∀ r : Regex UInt8, (∀ p, (p, case) ∈ scanRules → p = .regex r) →
      Matches r lexeme := fun r hr => (lex_regex hlex hr).2
  rw [scanStep, hlex]
  dsimp only
  cases case with
  | newline =>
    have h := hmatch nl (by simp [scanRules])
    exact pushNewline_outcome hbuf (ne_nil_of_matches h rfl)
  | space =>
    have h := hmatch (.plus (chr ' ')) (by simp [scanRules])
    exact pushLexeme_outcome hbuf (ne_nil_of_matches h rfl) fun _ => ⟨eq_replicate h, rfl⟩
  | tabs =>
    have h := hmatch (.plus (chr '\t')) (by simp [scanRules])
    exact pushLexeme_outcome hbuf (ne_nil_of_matches h rfl) fun _ => ⟨eq_replicate h, rfl⟩
  | ident =>
    have h := hmatch Pascaligo.ident (by simp [scanRules])
    exact finish_outcome hlex nofun (mkOrFail_outcome fun _ => Token.mkIdent_outcome h)
  | constr =>
    have h := hmatch Pascaligo.constr (by simp [scanRules])
    exact finish_outcome hlex nofun (mkToken_outcome fun _ => Token.mkConstr_outcome h)
  | bytes =>
    have h := hmatch bytes (by simp [scanRules])
    -- The token drops the first two characters of its lexeme.
    have htext : ascii ['0', 'x'] ++ lexeme.drop 2 = lexeme := by
      obtain ⟨u, v, hlexeme, hu, -⟩ := matches_seq.1 h
      rw [hlexeme, eq_of_matches_word hu]
      rfl
    rw [scanAction, finish, mkBytes, sync_eq]
    refine Outcome.ok ⟨lexeme, hbuf, ?_, rfl, ?_, nofun⟩
    · exact ⟨htext, rfl, moves_advance state.toCursor lexeme⟩
    · rw [takes_iff hlex]
      exact ⟨fun _ => rfl, fun _ => rfl⟩
  | nat =>
    have h := hmatch (.seq natural (chr 'n')) (by simp [scanRules])
    exact finish_outcome hlex nofun (mkOrFail_outcome fun _ => Token.mkNat_outcome h)
  | mtz =>
    have h := hmatch (.seq natural (word ['m', 't', 'z'])) (by simp [scanRules])
    exact finish_outcome hlex nofun (mkOrFail_outcome fun _ => Token.mkMtz_outcome h)
  | int =>
    have h := hmatch integer (by simp [scanRules])
    exact finish_outcome hlex nofun (mkOrFail_outcome fun _ => Token.mkInt_outcome h)
  | symbol =>
    have h := hmatch symbol (by simp [scanRules])
    exact finish_outcome hlex nofun (mkToken_outcome fun _ => Token.mkSym_outcome h)
  | eof =>
    obtain ⟨hnil, hlexeme, -⟩ := lex_eof hlex (by simp [scanRules])
    rw [scanAction, finish, mkEof, mkToken, sync_eq]
    refine Outcome.ok ⟨lexeme, hbuf, ?_, rfl, ?_, fun _ => hnil⟩
    · exact ⟨hlexeme.symm, rfl, moves_advance state.toCursor lexeme⟩
    · rw [takes_iff hlex]
      exact ⟨nofun, nofun⟩
  | string =>
    have hlexeme : lexeme = ascii ['"'] :=
      eq_of_matches_chr (hmatch (chr '"') (by simp [scanRules]))
    rw [scanAction, sync_eq, Outcome.ok_bind, hlexeme]
    refine (scanString_outcome (Nat.lt_succ_self _)).bind ?_
    rintro ⟨thread, state', rest'⟩ hscan
    obtain ⟨t, hrest, hclosed⟩ := closed_of_consumes (ascii ['"']) hscan
    dsimp only at hrest hclosed ⊢
    rw [mkString, hclosed.region, Outcome.ok_bind, hclosed.value]
    refine Outcome.ok ⟨ascii ['"'] ++ t, ?_, ⟨rfl, rfl, hclosed.moves⟩, rfl, ?_, nofun⟩
    · rw [hbuf, hrest, hlexeme, List.append_assoc]
    · rw [takes_iff hlex]
      exact ⟨nofun, nofun⟩
  | block =>
    have hlexeme : lexeme = ascii ['(', '*'] :=
      eq_of_matches_word (hmatch (word ['(', '*']) (by simp [scanRules]))
    rw [scanAction, sync_eq, Outcome.ok_bind, hlexeme]
    refine (scanBlock_outcome (Nat.lt_succ_self _)).bind ?_
    rintro ⟨thread, state', rest'⟩ hscan
    rw [hlexeme] at hbuf
    exact pushComment_outcome hbuf (List.cons_ne_nil _ _) (fun _ => ⟨rfl, rfl⟩) hscan
  | line =>
    have hlexeme : lexeme = ascii ['/', '/'] :=
      eq_of_matches_word (hmatch (word ['/', '/']) (by simp [scanRules]))
    rw [scanAction, sync_eq, Outcome.ok_bind, hlexeme]
    refine (scanLine_outcome (Nat.lt_succ_self _)).bind ?_
    rintro ⟨thread, state', rest'⟩ hscan
    rw [hlexeme] at hbuf
    exact pushComment_outcome hbuf (List.cons_ne_nil _ _) (fun _ => ⟨rfl, rfl⟩) hscan
  | directive =>
    have h := hmatch lineDirective (by simp [scanRules])
    obtain ⟨hflags, n, hn⟩ := hdir lexeme rest hlex
    rw [scanAction, sync_eq, Outcome.ok_bind]
    dsimp only
    obtain ⟨flags, state', rest', hscan, hle⟩ :=
      scanFlags_of_flags { state with toCursor := advance state.toCursor lexeme } [] hflags
        (Nat.lt_succ_self _)
    rw [hscan, Outcome.ok_bind]
    dsimp only
    rw [hn]
    refine Outcome.ok ⟨?_, .inl ⟨lexeme, rest, hlex⟩⟩
    have hpos := List.length_pos_iff.2 (ne_nil_of_matches h rfl)
    rw [hbuf, List.length_append]
    omega
  | minus => exact absurd ⟨lexeme, rest, hlex⟩ (not_takes_minus buf)
  | negativeBytes =>
    rw [scanAction, sync_eq]
    exact Outcome.error own_fail
  | other =>
    rw [scanAction, sync_eq]
    exact Outcome.error own_fail

/-- An ill-formed line directive raises the failure of a rule or of a conversion. -/
theorem scanStep_directive (state : State lib) {buf : Text} (hdir : ¬ DirectiveOk buf) :
    ∃ message, scanStep state buf = .error (.failure message) := by
  unfold DirectiveOk at hdir
  push Not at hdir
  obtain ⟨lexeme, rest, hlex, hbad⟩ := hdir
  rw [scanStep, hlex]
  dsimp only
  rw [scanAction, sync_eq, Outcome.ok_bind]
  dsimp only
  by_cases hflags : Flags rest
  · obtain ⟨flags, state', rest', hscan, -⟩ :=
      scanFlags_of_flags { state with toCursor := advance state.toCursor lexeme } [] hflags
        (Nat.lt_succ_self _)
    rw [hscan, Outcome.ok_bind]
    dsimp only
    obtain ⟨n, hn⟩ | hfail := intOfString_cases (directiveParts lexeme).1
    · exact absurd hn (hbad hflags n)
    · rw [hfail]
      exact ⟨_, rfl⟩
  · obtain ⟨message, hscan⟩ :=
      scanFlags_of_not_flags { state with toCursor := advance state.toCursor lexeme } [] hflags
        (Nat.lt_succ_self _)
    rw [hscan]
    exact ⟨_, rfl⟩

/-- A case that returns does what it should. -/
theorem stepSpec_of_eq_ok {state : State lib} {buf : Text} {next : Next lib}
    (h : scanStep state buf = .ok next) : StepSpec state buf next := by
  by_cases hdir : DirectiveOk buf
  · exact (scanStep_outcome hdir).of_eq_ok h
  · obtain ⟨message, hfail⟩ := scanStep_directive state hdir
    rw [hfail] at h
    cases h

/-! ### Runs of `scan` -/

/-- The rule called with a state and a text calls itself with another. -/
inductive Visits : State lib → Text → State lib → Text → Prop
  | refl {state : State lib} {buf : Text} : Visits state buf state buf
  | again {state state' state₁ : State lib} {buf rest buf₁ : Text}
    (hstep : scanStep state buf = .ok (.again state' rest))
    (h : Visits state' rest state₁ buf₁) : Visits state buf state₁ buf₁

/-- The rule takes cases until one finds a token or fails. -/
theorem scan_outcome {fuel : ℕ} (state : State lib) {buf : Text} (hfuel : buf.length < fuel) :
    ∃ state₁ buf₁, Visits state buf state₁ buf₁ ∧
      ((∃ token state₂ rest, scanStep state₁ buf₁ = .ok (.token token state₂ rest) ∧
          scan fuel state buf = .ok (enqueue token state₂, rest)) ∨
        ∃ e, scanStep state₁ buf₁ = .error e ∧ scan fuel state buf = .error e) := by
  induction fuel generalizing state buf with
  | zero => omega
  | succ fuel ih =>
    rw [scan]
    cases hstep : scanStep state buf with
    | error e => exact ⟨state, buf, .refl, .inr ⟨e, hstep, rfl⟩⟩
    | ok next =>
      have hspec := stepSpec_of_eq_ok hstep
      rw [Outcome.ok_bind]
      cases next with
      | again state' rest =>
        obtain ⟨state₁, buf₁, hvisits, h⟩ := ih state' (Nat.lt_of_lt_of_le hspec.1
          (Nat.le_of_lt_succ hfuel))
        exact ⟨state₁, buf₁, .again hstep hvisits, h⟩
      | token token state' rest =>
        exact ⟨state, buf, .refl, .inl ⟨token, state', rest, hstep, rfl⟩⟩
      | minus => exact hspec.elim

/-- What a visited case does, the rule does. -/
theorem scan_of_visits {fuel : ℕ} {state state₁ : State lib} {buf buf₁ : Text}
    (hfuel : buf.length < fuel) (h : Visits state buf state₁ buf₁) :
    ∃ fuel', buf₁.length < fuel' ∧ scan fuel state buf = scan fuel' state₁ buf₁ := by
  induction h generalizing fuel with
  | refl => exact ⟨fuel, hfuel, rfl⟩
  | again hstep _ ih =>
    cases fuel with
    | zero => omega
    | succ fuel =>
      have hlt := (stepSpec_of_eq_ok hstep).1
      obtain ⟨fuel', hfuel', heq⟩ := @ih fuel (by omega)
      refine ⟨fuel', hfuel', ?_⟩
      rw [scan, hstep]
      exact heq

end Ligo.Pascaligo.Lexer
