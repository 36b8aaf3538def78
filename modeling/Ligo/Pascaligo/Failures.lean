import Ligo.Pascaligo.Tiling

/-!
# The exceptions of the lexer

Reading tokens up to the end of the file raises the lexer's own errors only, if and only if
the file is not empty and every line directive that is read is well formed
(`ownErrors_iff`): its number and its flags fit in an integer, and nothing but flags follows
the file name on its line.

An exception of `read` is one of a call of `scan` (`Calls`) or an error about adjacent tokens
(`readToken_error`), and one of `scan` is one of a case that it visits.
-/

namespace Ligo.Pascaligo

open Lexing Lexer

variable {lib : Libraries}

namespace Stream

variable {s s' t : Stream lib} {e : Exn}

/-- Reading from the first stream calls `scan` on the second. -/
inductive Calls : Stream lib → Stream lib → Prop
  | refill {s : Stream lib} (hdeq : s.state.units.deq = none) : Calls s s
  | refilled {s s' t : Stream lib} (hdeq : s.state.units.deq = none) (hscan : s.scan = .ok s')
    (h : Calls s' t) : Calls s t
  | context {s : Stream lib} {units : FQueue (LexUnit lib)} {left : List Markup}
    {token : Token lib.Hex} (hdeq : s.state.units.deq = some (units, (left, token)))
    (hlook : (token.isInt || token.isBytes) = true ∨ (token.isIdent || token.isString) = true) :
    Calls s (s.withUnits units token.toRegion)

/-! ### Exceptions of `read` -/

/-- An empty region is one. -/
theorem make_self (p : Pos) : Region.make p p = .ok ⟨p, p⟩ :=
  Region.make_eq_ok rfl (Int.le_refl _)

/-- Looking ahead fails when scanning does. -/
theorem nextToken_error (h : s.nextToken = .error e) : s.scan = .error e := by
  rw [nextToken] at h
  cases hscan : s.scan with
  | error e' =>
    rw [hscan] at h
    cases h
    rfl
  | ok s₁ =>
    rw [hscan, Outcome.ok_bind] at h
    obtain ⟨unit, henq, -⟩ := scan_withUnits hscan
    cases hpeek : s₁.state.units.peek with
    | none =>
      have hnil := FQueue.peek_eq_none.1 hpeek
      rw [henq, FQueue.toList_enq] at hnil
      exact absurd hnil (by simp)
    | some x =>
      rw [hpeek] at h
      cases h

/-- An exception of the look-ahead is one of `scan`, or an error about adjacent tokens. -/
theorem checkRightContext_error {token : Token lib.Hex} (h : checkRightContext token s = .error e) :
    (((token.isInt || token.isBytes) = true ∨ (token.isIdent || token.isString) = true) ∧
      s.scan = .error e) ∨ e.IsError := by
  have hfail : ∀ {value : LexError} {region : Region},
      (fail region value : Except Exn (Stream lib)) = .error e → e.IsError := by
    intro value region hfail
    cases hfail
    exact ⟨region, value, rfl⟩
  unfold checkRightContext at h
  split at h
  -- a number or bytes, which the next token must not touch
  · rename_i hlook
    cases hnext : s.nextToken with
    | error e' =>
      rw [hnext] at h
      cases h
      exact .inl ⟨.inl hlook, nextToken_error hnext⟩
    | ok x =>
      rw [hnext, Outcome.ok_bind] at h
      refine .inr ?_
      split at h
      · dsimp only at h
        rw [make_self, Outcome.ok_bind] at h
        split at h
        · exact hfail h
        · split at h
          · exact hfail h
          · cases h
      · cases h
  · split at h
    -- an identifier or a string
    · rename_i hlook
      cases hnext : s.nextToken with
      | error e' =>
        rw [hnext] at h
        cases h
        exact .inl ⟨.inr hlook, nextToken_error hnext⟩
      | ok x =>
        rw [hnext, Outcome.ok_bind] at h
        refine .inr ?_
        split at h
        · split at h
          · dsimp only at h
            rw [make_self] at h
            exact hfail h
          · cases h
        · cases h
    · cases h

/-- The number that `read_token` recurses on is large enough. -/
def Enough (fuel : ℕ) (s : Stream lib) : Prop :=
  0 < fuel ∧ (s.state.units.deq = none → 1 < fuel)

/-- One scan uses up one unit of fuel. -/
theorem enough_of_scan {fuel : ℕ} (hfuel : Enough (fuel + 1) s)
    (hdeq : s.state.units.deq = none) (hscan : s.scan = .ok s') : Enough fuel s' := by
  have hpos := hfuel.2 hdeq
  refine ⟨by omega, fun hnone => ?_⟩
  obtain ⟨unit, henq, -⟩ := scan_withUnits hscan
  rw [FQueue.deq_eq_none, henq, FQueue.toList_enq] at hnone
  exact absurd hnone (by simp)

/-- A read fails with an error of a scan or with one that is reported. -/
theorem readToken_error {fuel : ℕ} (hfuel : Enough fuel s) (h : s.readToken fuel = .error e) :
    (∃ t, s.Calls t ∧ t.scan = .error e) ∨ e.IsError := by
  induction fuel generalizing s with
  | zero => exact absurd hfuel.1 (Nat.lt_irrefl _)
  | succ fuel ih =>
    rw [readToken] at h
    -- an empty queue is refilled first, and the next round finds a token
    cases hdeq : s.state.units.deq with
    | none =>
      rw [hdeq] at h
      dsimp only at h
      cases hscan : s.scan with
      | error e' =>
        rw [hscan] at h
        cases h
        exact .inl ⟨s, .refill hdeq, hscan⟩
      | ok s' =>
        rw [hscan, Outcome.ok_bind] at h
        obtain ⟨t, hcalls, ht⟩ | hown := ih (enough_of_scan hfuel hdeq hscan) h
        · exact .inl ⟨t, .refilled hdeq hscan hcalls, ht⟩
        · exact .inr hown
    | some x =>
      obtain ⟨units, left, token⟩ := x
      rw [hdeq] at h
      dsimp only at h
      cases hcheck : checkRightContext token (s.withUnits units token.toRegion) with
      | ok s' =>
        have hok : checkRightContext token { s with
            state := { s.state with units := units, last := token.toRegion } } = .ok s' := hcheck
        rw [hok] at h
        cases h
      | error e' =>
        have herror : checkRightContext token { s with
            state := { s.state with units := units, last := token.toRegion } } = .error e' :=
          hcheck
        rw [herror] at h
        cases h
        obtain ⟨hlook, hscan⟩ | hown := checkRightContext_error hcheck
        · exact .inl ⟨_, .context hdeq hlook, hscan⟩
        · exact .inr hown

/-- An exception of a call of `scan` is an exception of `read`. -/
theorem readToken_of_calls {fuel : ℕ} (hfuel : Enough fuel s) (hcalls : s.Calls t)
    (h : t.scan = .error e) : s.readToken fuel = .error e := by
  induction hcalls generalizing fuel with
  | @refill s hdeq =>
    cases fuel with
    | zero => exact absurd hfuel.1 (Nat.lt_irrefl _)
    | succ fuel =>
      rw [readToken, hdeq]
      dsimp only
      rw [h]
      rfl
  | @refilled s s' t hdeq hscan _ ih =>
    cases fuel with
    | zero => exact absurd hfuel.1 (Nat.lt_irrefl _)
    | succ fuel =>
      rw [readToken, hdeq]
      dsimp only
      rw [hscan]
      exact ih (enough_of_scan hfuel hdeq hscan) h
  | @context s units left token hdeq hlook =>
    cases fuel with
    | zero => exact absurd hfuel.1 (Nat.lt_irrefl _)
    | succ fuel =>
      have hnext : (s.withUnits units token.toRegion).nextToken = .error e := by
        rw [nextToken, h]
        rfl
      have hcheck : checkRightContext token (s.withUnits units token.toRegion) = .error e := by
        unfold checkRightContext
        split
        · rw [hnext]
          rfl
        · rename_i hnot
          rw [if_pos (hlook.resolve_left hnot), hnext]
          rfl
      rw [readToken, hdeq]
      exact congrArg (· >>= fun s => .ok ((left, token), s)) hcheck

/-- The fuel of `read` is enough: one scan, and then the unit that it has queued. -/
theorem enough_read (s : Stream lib) : Enough 2 s := ⟨by decide, fun _ => by decide⟩

/-! ### Exceptions of `scan` -/

/-- Only the first call on an empty text has no case to start with. -/
theorem entry_error (h : s.entry = .error e) : s.firstCall = true ∧ s.buffer = [] := by
  unfold entry at h
  cases hfirst : s.firstCall with
  | false =>
    rw [hfirst] at h
    cases h
  | true =>
    refine ⟨rfl, ?_⟩
    rw [hfirst, if_pos rfl] at h
    cases hbuffer : s.buffer with
    | nil => rfl
    | cons c buf =>
      have hwild : (.regex wild, false) ∈ initRules := by simp [initRules]
      obtain ⟨bom, lexeme, rest, hlex, -⟩ :=
        lex_isSome (u := [c]) (v := buf) hwild (Matches.one rfl)
      rw [hbuffer, show c :: buf = [c] ++ buf from rfl, hlex] at h
      cases bom with
      | false => cases h
      | true =>
        dsimp only at h
        rw [pushBom, pushLexeme, sync_eq] at h
        cases h

/-- An exception of `scan` is one of a case that it visits, or the failure on an empty file. -/
theorem scan_error (h : s.scan = .error e) :
    (s.firstCall = true ∧ s.buffer = []) ∨
      ∃ state buf, s.Visits state buf ∧ scanStep state buf = .error e := by
  rw [scan_eq] at h
  cases hentry : s.entry with
  | error e' => exact .inl (entry_error hentry)
  | ok x =>
    obtain ⟨state, buf⟩ := x
    rw [hentry, Outcome.ok_bind] at h
    dsimp only at h
    obtain ⟨state₁, buf₁, hvisits, ⟨token, state₂, rest, -, hscan⟩ | ⟨e', hstep, hscan⟩⟩ :=
      Lexer.scan_outcome state (Nat.lt_succ_self buf.length)
    · rw [hscan] at h
      cases h
    · rw [hscan] at h
      cases h
      exact .inr ⟨state₁, buf₁, ⟨_, hentry, hvisits⟩, hstep⟩

/-- An exception of a visited case is an exception of `scan`. -/
theorem scan_of_visits {state : State lib} {buf : Text} (hvisits : s.Visits state buf)
    (hstep : scanStep state buf = .error e) : s.scan = .error e := by
  obtain ⟨⟨state₀, buf₀⟩, hentry, hvisits⟩ := hvisits
  obtain ⟨fuel, hfuel, heq⟩ := Lexer.scan_of_visits (Nat.lt_succ_self _) hvisits
  rw [scan_eq, hentry, Outcome.ok_bind]
  dsimp only at heq ⊢
  cases fuel with
  | zero => omega
  | succ fuel =>
    rw [heq, Lexer.scan, hstep]
    rfl

end Stream

/-! ### Reading a source -/

variable {path : Option Text} {source : Text}

variable (lib) in
/-- A stream from which the next token is read, before the end of the file. -/
def Reached (path : Option Text) (source : Text) (s : Stream lib) : Prop :=
  ∃ k units, Stream.reads k (openTokenStream lib path source) = .ok (units, s) ∧
    ∀ unit ∈ units, unit.2.isEof = false

variable (lib) in
/-- Every exception that reading the source up to the end can raise is the lexer's own. -/
def OwnErrors (path : Option Text) (source : Text) : Prop :=
  ∀ s, Reached lib path source s → ∀ e, s.read = .error e → e.IsError

/-- The first call is made on the whole source. -/
theorem Stream.Calls.buffer {s t : Stream lib} (hcalls : s.Calls t) (hfirst : t.firstCall = true) :
    s.firstCall = true ∧ s.buffer = t.buffer := by
  induction hcalls with
  | refill _ => exact ⟨hfirst, rfl⟩
  | refilled _ hscan _ ih =>
    have hnot := Stream.firstCall_scan hscan
    rw [(ih hfirst).1] at hnot
    cases hnot
  | context _ _ => exact ⟨hfirst, rfl⟩

/-- Before the first call nothing has been read. -/
theorem Reached.buffer {s : Stream lib} (h : Reached lib path source s)
    (hfirst : s.firstCall = true) : s.buffer = source := by
  obtain ⟨k, units, hreads, -⟩ := h
  obtain ⟨j, t, hscans, hagrees, -⟩ := Stream.lags_of_reads hreads
  have heq := hagrees.eq_withUnits
  cases j with
  | zero =>
    cases hscans
    exact (congrArg Stream.buffer heq).symm
  | succ j =>
    obtain ⟨s₁, -, hscan⟩ := Fuel.bind_eq_ok.1 hscans
    have hnot := Stream.firstCall_scan hscan
    have hsame : t.firstCall = s.firstCall := by
      rw [heq]
      rfl
    rw [hsame, hfirst] at hnot
    cases hnot

/-- The stream that is opened. -/
theorem reached_open : Reached lib path source (openTokenStream lib path source) :=
  ⟨0, [], rfl, fun _ hmem => absurd hmem List.not_mem_nil⟩

/-- **The exceptions of the lexer** are its own if and only if the file is not empty and its
line directives are well formed. -/
theorem ownErrors_iff (hdec : lib.NeverEnds) :
    OwnErrors lib path source ↔ source ≠ [] ∧
      ∀ s t state buf, Reached lib path source s → s.Calls t → t.Visits state buf →
        DirectiveOk buf := by
  constructor
  · intro hown
    constructor
    · rintro rfl
      obtain ⟨region, value, h⟩ := hown _ reached_open emptyToken rfl
      cases h
    · intro s t state buf hreached hcalls hvisits
      -- a directive that is not understood raises another exception
      by_contra hdir
      obtain ⟨message, hstep⟩ := scanStep_directive state hdir
      have hscan := Stream.scan_of_visits hvisits hstep
      have hread := Stream.readToken_of_calls (Stream.enough_read s) hcalls hscan
      obtain ⟨region, value, h⟩ := hown s hreached _ hread
      cases h
  · rintro ⟨hne, hdir⟩ s hreached e hread
    obtain ⟨t, hcalls, hscan⟩ | hown := Stream.readToken_error (Stream.enough_read s) hread
    · obtain ⟨hfirst, hnil⟩ | ⟨state, buf, hvisits, hstep⟩ := Stream.scan_error hscan
      · obtain ⟨hfirst', hbuffer⟩ := hcalls.buffer hfirst
        rw [hnil, hreached.buffer hfirst'] at hbuffer
        exact absurd hbuffer hne
      · have hok := hdir s t state buf hreached hcalls hvisits
        exact (scanStep_outcome hok).of_eq_error hstep hdec
    · exact hown

/-- A decoder that has an answer for every input. -/
theorem neverEnds_ascii : asciiLibraries.NeverEnds := by
  intro d c
  show (if c < 128 then Decoded.uchar else Decoded.malformed) ≠ .end_
  split
  · exact nofun
  · exact nofun

/-- A name without directives. -/
theorem ownErrors_name :
    OwnErrors asciiLibraries none (ascii ['a']) ↔ ascii ['a'] ≠ [] ∧
      ∀ s t state buf, Reached asciiLibraries none (ascii ['a']) s → s.Calls t →
        t.Visits state buf → DirectiveOk buf :=
  ownErrors_iff neverEnds_ascii

/-- A letter after the file name of a line directive. -/
theorem not_ownErrors_flag : asciiLibraries.NeverEnds ∧
    ¬ OwnErrors asciiLibraries none (ascii ['#', ' ', '1', ' ', '"', 'f', '"', 'x']) := by
  refine ⟨neverEnds_ascii, fun hown => ?_⟩
  obtain ⟨region, value, h⟩ := hown _ reached_open emptyToken rfl
  cases h

end Ligo.Pascaligo
