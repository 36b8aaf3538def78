import Ligo.Library.Fuel
import Ligo.Pascaligo.Steps
import Ligo.Pascaligo.Stream

/-!
# Look-ahead

Reading tokens one by one gives the units that `scan` enqueues when it is called again and
again and nothing is taken from the queue (`reads_eq_scans`).

Two things carry this. The rules do not look at the queue, nor at the region of the last
token: they do the same whatever these are (`scan_withUnits`), so that a call from `read`,
which has taken units from the queue, adds the unit that the plain call adds. And `read` only
moves units: what it has returned, followed by what waits in the queue, are the units enqueued
so far (`Lags`).
-/

namespace Ligo.Pascaligo

open Lexing Lexer
open Fuel (bind_bimap bind_bimap_right)

variable {lib : Libraries}

/-! ### The rules do not look at the queue -/

namespace Lexer

/-- The state with another queue and another last region. -/
def State.withUnits (state : State lib) (units : FQueue (LexUnit lib)) (last : Region) :
    State lib :=
  { state with units := units, last := last }

def Next.withUnits (units : FQueue (LexUnit lib)) (last : Region) : Next lib → Next lib
  | .again state rest => .again (state.withUnits units last) rest
  | .token tok state rest => .token tok (state.withUnits units last) rest
  | .minus region state rest => .minus region (state.withUnits units last) rest

variable {state state' : State lib} {units : FQueue (LexUnit lib)} {last : Region} {buf : Text}

/-- The scanner does not look at the queue of units: with another queue every part of it does
the same. -/
theorem scanFlags_withUnits {fuel : ℕ} (state : State lib) {acc : List ℤ} :
    scanFlags fuel (state.withUnits units last) acc buf =
      Fuel.bimap id (fun x => (x.1, x.2.1.withUnits units last, x.2.2))
        (scanFlags fuel state acc buf) := by
  induction fuel generalizing state acc buf with
  | zero => rfl
  | succ fuel ih =>
    rw [scanFlags, scanFlags]
    cases lex flagsRules buf with
    | none => rfl
    | some x =>
      obtain ⟨case, lexeme, rest⟩ := x
      cases case with
      | blanks =>
        refine bind_bimap_right (o := sync state.toCursor lexeme) fun x => ?_
        exact ih { state with toCursor := x.2 }
      | code =>
        refine bind_bimap_right (o := sync state.toCursor lexeme) fun x => ?_
        refine bind_bimap_right (o := intOfString lexeme) fun code => ?_
        exact ih { state with toCursor := x.2 }
      | nl =>
        dsimp only
        rw [pushNewline_eq, pushNewline_eq]
        rfl
      | eof => exact bind_bimap_right (o := sync state.toCursor lexeme) fun x => rfl

theorem pushLexeme_withUnits {unit : Region → Text → Markup} {lexeme : Text} :
    pushLexeme unit (state.withUnits units last) lexeme =
      Fuel.bimap id (fun state => state.withUnits units last) (pushLexeme unit state lexeme) :=
  bind_bimap_right (o := sync state.toCursor lexeme) fun _ => rfl

theorem pushComment_withUnits (state : State lib) {unit : Reg Text → Markup}
    {thread : Thread} :
    pushComment unit thread (state.withUnits units last) =
      Fuel.bimap id (fun state => state.withUnits units last) (pushComment unit thread state) := by
  refine bind_bimap_right (o := Region.make thread.opening.start state.pos) fun region => ?_
  exact bind_bimap_right (o := mkStr thread.len thread.acc) fun _ => rfl

theorem finish_withUnits {mk : Cursor lib → Text → Except Exn (Token lib.Hex × Cursor lib)}
    {lexeme rest : Text} :
    finish mk (state.withUnits units last) lexeme rest =
      Fuel.bimap id (Next.withUnits units last) (finish mk state lexeme rest) :=
  bind_bimap_right (o := mk state.toCursor lexeme) fun _ => rfl

theorem scanAction_withUnits {case : ScanCase} {lexeme rest : Text} :
    scanAction case (state.withUnits units last) lexeme rest =
      Fuel.bimap id (Next.withUnits units last) (scanAction case state lexeme rest) := by
  cases case with
  | newline =>
    rw [scanAction, scanAction, pushNewline_eq, pushNewline_eq]
    rfl
  | space => exact bind_bimap pushLexeme_withUnits fun _ _ => rfl
  | tabs => exact bind_bimap pushLexeme_withUnits fun _ _ => rfl
  | ident | constr | bytes | nat | mtz | int | symbol | eof => exact finish_withUnits
  | string =>
    refine bind_bimap_right (o := sync state.toCursor lexeme) fun x => ?_
    refine bind_bimap_right (o := scanString (rest.length + 1) _ x.2 rest) fun y => ?_
    exact bind_bimap_right (o := mkString y.1 y.2.1) fun _ => rfl
  | block =>
    refine bind_bimap_right (o := sync state.toCursor lexeme) fun x => ?_
    refine bind_bimap_right (o := scanBlock (rest.length + 1) _ x.2 rest) fun y => ?_
    exact bind_bimap (pushComment_withUnits { state with toCursor := y.2.1 })
      fun _ _ => rfl
  | line =>
    refine bind_bimap_right (o := sync state.toCursor lexeme) fun x => ?_
    refine bind_bimap_right (o := scanLine (rest.length + 1) _ x.2 rest) fun y => ?_
    exact bind_bimap (pushComment_withUnits { state with toCursor := y.2.1 })
      fun _ _ => rfl
  | directive =>
    refine bind_bimap_right (o := sync state.toCursor lexeme) fun x => ?_
    refine bind_bimap (scanFlags_withUnits { state with toCursor := x.2 })
      fun y _ => ?_
    exact bind_bimap_right (o := intOfString (directiveParts lexeme).1) fun _ => rfl
  | minus => exact bind_bimap_right (o := sync state.toCursor lexeme) fun _ => rfl
  | negativeBytes => exact bind_bimap_right (o := sync state.toCursor lexeme) fun _ => rfl
  | other => exact bind_bimap_right (o := sync state.toCursor lexeme) fun _ => rfl

/-- One step of the scanner with another queue. -/
theorem scanStep_withUnits :
    scanStep (state.withUnits units last) buf =
      Fuel.bimap id (Next.withUnits units last) (scanStep state buf) := by
  rw [scanStep, scanStep]
  cases lex scanRules buf with
  | none => rfl
  | some x => exact scanAction_withUnits

/-- The states that the scanner visits with another queue. -/
theorem Visits.withUnits {state₁ : State lib} {buf₁ : Text} (h : Visits state buf state₁ buf₁)
    (units : FQueue (LexUnit lib)) (last : Region) :
    Visits (state.withUnits units last) buf (state₁.withUnits units last) buf₁ := by
  induction h with
  | refl => exact .refl
  | again hstep _ ih =>
    refine .again ?_ ih
    rw [scanStep_withUnits, hstep]
    rfl

/-- The rule adds one unit, which does not depend on the queue. -/
theorem scan_withUnits {fuel : ℕ} {rest : Text} (hfuel : buf.length < fuel)
    (h : scan fuel state buf = .ok (state', rest)) :
    ∃ unit : LexUnit lib, state'.units = state.units.enq unit ∧
      ∀ units last, scan fuel (state.withUnits units last) buf =
        .ok (state'.withUnits (units.enq unit) last, rest) := by
  obtain ⟨state₁, buf₁, hvisits, ⟨token, state₂, rest', hstep, hscan⟩ | ⟨e, -, hscan⟩⟩ :=
    scan_outcome state hfuel
  · rw [h] at hscan
    cases hscan
    have hall : ∀ units last, scan fuel (state.withUnits units last) buf =
        .ok ((enqueue token state₂).withUnits (units.enq (state₂.markup, token)) last, rest) := by
      intro units last
      obtain ⟨fuel', hfuel', heq⟩ :=
        scan_of_visits hfuel (hvisits.withUnits units last)
      cases fuel' with
      | zero => omega
      | succ fuel' =>
        rw [heq, scan, scanStep_withUnits, hstep]
        rfl
    refine ⟨(state₂.markup, token), ?_, hall⟩
    -- With its own queue the state is the state itself.
    have hself := hall state.units state.last
    rw [show state.withUnits state.units state.last = state from rfl, h] at hself
    exact congrArg (fun x => x.1.units) (Except.ok.inj hself)
  · rw [h] at hscan
    cases hscan

end Lexer

/-! ### Streams -/

namespace Stream

variable {s s' t t' : Stream lib}

/-- The state and the text on which the rule `scan` is called first. -/
def entry (s : Stream lib) : Except Exn (State lib × Text) :=
  if s.firstCall then
    match lex initRules s.buffer with
    | none => .error emptyToken
    | some (true, lexeme, rest) => do
      let state ← pushBom s.state lexeme
      .ok (state, rest)
    | some (false, _, _) => .ok (s.state, s.buffer)
  else .ok (s.state, s.buffer)

/-- Scanning calls the lexer on the buffer, with fuel for each of its bytes. -/
theorem scan_eq (s : Stream lib) :
    s.scan = s.entry >>= fun x => Lexer.scan (x.2.length + 1) x.1 x.2 >>= fun y =>
      .ok { state := y.1, firstCall := false, buffer := y.2 } := by
  rw [scan, entry]
  cases s.firstCall with
  | false => rfl
  | true =>
    rw [if_pos rfl, if_pos rfl, init]
    cases lex initRules s.buffer with
    | none => rfl
    | some x =>
      obtain ⟨bom, lexeme, rest⟩ := x
      cases bom with
      | false => rfl
      | true =>
        dsimp only
        rw [pushBom, pushLexeme, sync_eq]
        rfl

/-- The first call is over after a scan. -/
theorem firstCall_scan (h : s.scan = .ok s') : s'.firstCall = false := by
  rw [scan_eq] at h
  obtain ⟨x, -, h⟩ := Fuel.bind_eq_ok.1 h
  obtain ⟨y, -, h⟩ := Fuel.bind_eq_ok.1 h
  cases h
  rfl

def withUnits (s : Stream lib) (units : FQueue (LexUnit lib)) (last : Region) : Stream lib :=
  { s with state := s.state.withUnits units last }

/-- Where scanning starts does not depend on the queue. -/
theorem entry_withUnits (s : Stream lib) (units : FQueue (LexUnit lib)) (last : Region) :
    (s.withUnits units last).entry =
      Fuel.bimap id (fun x => (x.1.withUnits units last, x.2)) s.entry := by
  unfold entry
  rw [show (s.withUnits units last).firstCall = s.firstCall from rfl,
    show (s.withUnits units last).buffer = s.buffer from rfl]
  cases s.firstCall with
  | false => rfl
  | true =>
    rw [if_pos rfl, if_pos rfl]
    cases lex initRules s.buffer with
    | none => rfl
    | some x =>
      obtain ⟨bom, lexeme, rest⟩ := x
      cases bom with
      | false => rfl
      | true => exact bind_bimap pushLexeme_withUnits fun _ _ => rfl

/-- A call of `scan` adds one unit, which does not depend on the queue. -/
theorem scan_withUnits (h : s.scan = .ok s') :
    ∃ unit : LexUnit lib, s'.state.units = s.state.units.enq unit ∧
      ∀ units last, (s.withUnits units last).scan =
        .ok (s'.withUnits (units.enq unit) last) := by
  rw [scan_eq] at h
  cases hentry : s.entry with
  | error e =>
    rw [hentry] at h
    cases h
  | ok x =>
    obtain ⟨state, buf⟩ := x
    have hunits : state.units = s.state.units := by
      have hself := entry_withUnits s s.state.units s.state.last
      rw [show s.withUnits s.state.units s.state.last = s from rfl, hentry] at hself
      exact congrArg (fun x => x.1.units) (Except.ok.inj hself)
    rw [hentry, Outcome.ok_bind] at h
    cases hscan : Lexer.scan (buf.length + 1) state buf with
    | error e =>
      rw [hscan] at h
      cases h
    | ok y =>
      obtain ⟨state', rest⟩ := y
      rw [hscan] at h
      cases h
      obtain ⟨unit, henq, hall⟩ := Lexer.scan_withUnits (Nat.lt_succ_self _) hscan
      refine ⟨unit, by rw [← hunits]; exact henq, fun units last => ?_⟩
      rw [scan_eq, entry_withUnits, hentry]
      dsimp only [Fuel.bimap, Outcome.ok_bind]
      rw [hall]
      rfl

/-- The streams differ in their queues and their last regions only. -/
def Agrees (s t : Stream lib) : Prop :=
  s.withUnits .empty .ghost = t.withUnits .empty .ghost

/-- Streams that agree differ in their queues only. -/
theorem Agrees.eq_withUnits (h : Agrees s t) : t = s.withUnits t.state.units t.state.last := by
  have h' := congrArg (fun r => r.withUnits t.state.units t.state.last) h
  exact h'.symm

/-- Calls of `scan` on streams that agree add the same unit. -/
theorem scan_agrees (h : s.scan = .ok s') (hst : Agrees s t) :
    ∃ (t' : Stream lib) (unit : LexUnit lib), t.scan = .ok t' ∧ Agrees s' t' ∧
      s'.state.units.toList = s.state.units.toList ++ [unit] ∧
      t'.state.units.toList = t.state.units.toList ++ [unit] := by
  obtain ⟨unit, henq, hall⟩ := scan_withUnits h
  refine ⟨s'.withUnits (t.state.units.enq unit) t.state.last, unit, ?_, rfl, ?_, ?_⟩
  · rw [hst.eq_withUnits]
    exact hall _ _
  · rw [henq, FQueue.toList_enq]
  · exact FQueue.toList_enq

/-! ### Repeated calls -/

/-- Successive calls of `scan`. -/
def scans : ℕ → Stream lib → Except Exn (Stream lib)
  | 0, s => .ok s
  | k + 1, s => do
    let s ← scans k s
    s.scan

/-- Successive calls of `read`, with the units that are logged. -/
def reads : ℕ → Stream lib → Except Exn (List (LexUnit lib) × Stream lib)
  | 0, s => .ok ([], s)
  | k + 1, s => do
    let (units, s) ← reads k s
    let (unit, s) ← s.read
    .ok (units ++ [unit], s)

/-- Every scan adds one unit to the queue. -/
theorem length_scans {k : ℕ} (h : scans k s = .ok s') :
    s'.state.units.toList.length = s.state.units.toList.length + k := by
  induction k generalizing s' with
  | zero =>
    cases h
    rfl
  | succ k ih =>
    obtain ⟨s₁, hscans, hscan⟩ := Fuel.bind_eq_ok.1 h
    obtain ⟨unit, henq, -⟩ := scan_withUnits hscan
    rw [henq, FQueue.toList_enq, List.length_append, ih hscans]
    rfl

/-- Fewer calls enqueue the first of the units. -/
theorem scans_prefix {j k : ℕ} (h : scans j s = .ok s') (hle : k ≤ j) :
    ∃ t, scans k s = .ok t ∧ t.state.units.toList <+: s'.state.units.toList := by
  induction hle generalizing s' with
  | refl => exact ⟨s', h, List.prefix_refl _⟩
  | step _ ih =>
    obtain ⟨s₁, hscans, hscan⟩ := Fuel.bind_eq_ok.1 h
    obtain ⟨t, ht, hprefix⟩ := ih hscans
    obtain ⟨unit, henq, -⟩ := scan_withUnits hscan
    refine ⟨t, ht, hprefix.trans ?_⟩
    rw [henq, FQueue.toList_enq]
    exact List.prefix_append _ _

/-- What has been read and what waits in the queue are the units enqueued by some calls of
`scan`. -/
def Lags (s₀ : Stream lib) (units : List (LexUnit lib)) (s : Stream lib) : Prop :=
  ∃ j t, scans j s₀ = .ok t ∧ Agrees s t ∧
    t.state.units.toList = units ++ s.state.units.toList

section Lags

variable {s₀ : Stream lib} {units : List (LexUnit lib)}

/-- A scan leaves the reader one more unit behind. -/
theorem Lags.scan (h : Lags s₀ units s) (hscan : s.scan = .ok s') : Lags s₀ units s' := by
  obtain ⟨j, t, hscans, hagrees, hunits⟩ := h
  obtain ⟨t', unit, ht', hagrees', hs', ht⟩ := scan_agrees hscan hagrees
  refine ⟨j + 1, t', ?_, hagrees', ?_⟩
  · rw [scans, hscans]
    exact ht'
  · rw [ht, hunits, hs', List.append_assoc]

/-- Moving the units inside the queue. -/
theorem Lags.move (h : Lags s₀ units s) (hagrees : Agrees s s')
    (hlist : s'.state.units.toList = s.state.units.toList) : Lags s₀ units s' := by
  obtain ⟨j, t, hscans, hagrees', hunits⟩ := h
  exact ⟨j, t, hscans, hagrees.symm.trans hagrees', by rw [hunits, hlist]⟩

/-- Taking a unit from the queue. -/
theorem Lags.deq (h : Lags s₀ units s) {queue : FQueue (LexUnit lib)} {unit : LexUnit lib}
    (hdeq : s.state.units.deq = some (queue, unit)) (last : Region) :
    Lags s₀ (units ++ [unit]) (s.withUnits queue last) := by
  obtain ⟨j, t, hscans, hagrees, hunits⟩ := h
  refine ⟨j, t, hscans, hagrees, ?_⟩
  rw [hunits, FQueue.deq_eq_some hdeq, List.append_assoc]
  rfl

/-- Looking at the next token takes nothing from the queue. -/
theorem Lags.nextToken (h : Lags s₀ units s) {next : Option (LexUnit lib)}
    (hnext : s.nextToken = .ok (next, s')) : Lags s₀ units s' := by
  obtain ⟨s₁, hscan, hpeek⟩ := Fuel.bind_eq_ok.1 hnext
  cases hq : s₁.state.units.peek with
  | none =>
    rw [hq] at hpeek
    cases hpeek
  | some x =>
    obtain ⟨queue, extToken⟩ := x
    rw [hq] at hpeek
    cases hpeek
    exact (h.scan hscan).move rfl (FQueue.peek_eq_some hq).1

/-- Looking ahead returns the stream of `next_token`, if it is called. -/
theorem checkRightContext_eq_ok {token : Token lib.Hex}
    (h : checkRightContext token s = .ok s') :
    s' = s ∨ ∃ next, s.nextToken = .ok (next, s') := by
  unfold checkRightContext at h
  split at h
  · obtain ⟨⟨next, s₁⟩, hnext, h⟩ := Fuel.bind_eq_ok.1 h
    refine .inr ⟨next, ?_⟩
    split at h
    · rename_i heq
      cases heq
      obtain ⟨region, -, h⟩ := Fuel.bind_eq_ok.1 h
      split at h
      · cases h
      · split at h
        · cases h
        · cases h
          exact hnext
    · rename_i heq
      cases heq
      cases h
      exact hnext
  · split at h
    · obtain ⟨⟨next, s₁⟩, hnext, h⟩ := Fuel.bind_eq_ok.1 h
      refine .inr ⟨next, ?_⟩
      split at h
      · rename_i heq
        cases heq
        split at h
        · obtain ⟨region, -, h⟩ := Fuel.bind_eq_ok.1 h
          cases h
        · cases h
          exact hnext
      · rename_i heq
        cases heq
        cases h
        exact hnext
    · cases h
      exact .inl rfl

/-- A read takes the oldest unit that has been scanned. -/
theorem Lags.readToken {fuel : ℕ} (h : Lags s₀ units s) {unit : LexUnit lib}
    (hread : s.readToken fuel = .ok (unit, s')) : Lags s₀ (units ++ [unit]) s' := by
  induction fuel generalizing s with
  | zero => cases hread
  | succ fuel ih =>
    rw [Stream.readToken] at hread
    split at hread
    · obtain ⟨s₁, hscan, hread⟩ := Fuel.bind_eq_ok.1 hread
      exact ih (h.scan hscan) hread
    · rename_i queue leftMark token hdeq
      obtain ⟨s₁, hcheck, hread⟩ := Fuel.bind_eq_ok.1 hread
      cases hread
      have hlags := h.deq hdeq token.toRegion
      obtain rfl | ⟨next, hnext⟩ := checkRightContext_eq_ok hcheck
      · exact hlags
      · exact hlags.nextToken hnext

/-- Reads lag behind the scans; by induction on their number. -/
theorem lags_of_reads {k : ℕ} (h : reads k s₀ = .ok (units, s)) : Lags s₀ units s := by
  induction k generalizing units s with
  | zero =>
    cases h
    exact ⟨0, s₀, rfl, rfl, rfl⟩
  | succ k ih =>
    obtain ⟨⟨units', s₁⟩, hreads, h⟩ := Fuel.bind_eq_ok.1 h
    obtain ⟨⟨unit, s₂⟩, hread, h⟩ := Fuel.bind_eq_ok.1 h
    cases h
    exact (ih hreads).readToken hread

/-- Every read returns one unit. -/
theorem length_reads {k : ℕ} (h : reads k s₀ = .ok (units, s)) : units.length = k := by
  induction k generalizing units s with
  | zero =>
    cases h
    rfl
  | succ k ih =>
    obtain ⟨⟨units', s₁⟩, hreads, h⟩ := Fuel.bind_eq_ok.1 h
    obtain ⟨⟨unit, s₂⟩, hread, h⟩ := Fuel.bind_eq_ok.1 h
    cases h
    rw [List.length_append, ih hreads]
    rfl

end Lags

end Stream

/-- **Reading and scanning agree.** The units that `k` calls of `read` return are those that
`k` calls of `scan` enqueue. -/
theorem reads_eq_scans {path : Option Text} {source : Text} {k : ℕ}
    {units : List (LexUnit lib)} {s : Stream lib}
    (h : Stream.reads k (openTokenStream lib path source) = .ok (units, s)) :
    ∃ s', Stream.scans k (openTokenStream lib path source) = .ok s' ∧
      s'.state.units.toList = units := by
  obtain ⟨j, t, hscans, -, hunits⟩ := Stream.lags_of_reads h
  have hlen := Stream.length_reads h
  have hj := Stream.length_scans hscans
  have hle : k ≤ j := by
    rw [hunits, List.length_append] at hj
    have hempty : (openTokenStream lib path source).state.units.toList.length = 0 := rfl
    omega
  obtain ⟨s', hs', hprefix⟩ := Stream.scans_prefix hscans hle
  refine ⟨s', hs', ?_⟩
  -- Both are the first `k` units of the longer run.
  have hk : s'.state.units.toList.length = units.length := by
    rw [Stream.length_scans hs', hlen]
    exact Nat.zero_add k
  rw [hunits] at hprefix
  have htake := List.prefix_iff_eq_take.1 hprefix
  rw [hk, List.take_left] at htake
  exact htake

/-- The libraries on ASCII texts: a byte is a character, and its value has two digits. -/
def asciiLibraries : Libraries where
  Hex := Text
  hexOfString s :=
    let hexDigit (n : UInt8) : UInt8 := if n < 10 then ord '0' + n else ord 'a' + (n - 10)
    s.flatMap fun c => [hexDigit (c / 16), hexDigit (c % 16)]
  Decoder := Unit
  decoder := ()
  decode _ c := ((), if c < 128 then .uchar else .malformed)

/-- A name needs a look at the number that follows it. -/
theorem reads_eq_scans_number : ∃ s', Stream.scans 2
    (openTokenStream asciiLibraries none (ascii ['a', ' ', '1'])) = .ok s' ∧
      s'.state.units.toList.map outputToken = [ascii ['a'], ascii [' ', '1']] := by
  have hread : ∃ units s, Stream.reads 2
      (openTokenStream asciiLibraries none (ascii ['a', ' ', '1'])) = .ok (units, s) ∧
        units.map outputToken = [ascii ['a'], ascii [' ', '1']] := ⟨_, _, rfl, rfl⟩
  obtain ⟨units, s, hread, hcopy⟩ := hread
  obtain ⟨s', hscans, hunits⟩ := reads_eq_scans hread
  exact ⟨s', hscans, by rw [hunits, hcopy]⟩

end Ligo.Pascaligo
