import Ligo.Pascaligo.LookAhead

/-!
# The units cover the source

The markup and the tokens of a source text, in the order in which they are found, cover it:
their texts make up the source and their regions are contiguous (`regions_tile`). A line
directive moves the position elsewhere, so there must be none.

The invariant is `Covers`, over the cases of a call of `scan` (`covers_of_visits`) and then
over the calls (`covers_of_scans`).
-/

namespace Ligo.Pascaligo

open Lexing Lexer

/-! ### Covering a text -/

/-- A markup unit or a token. -/
inductive Item (H : Type) where
  | markup (m : Markup)
  | token (t : Token H)

namespace Item

variable {H : Type}

def region : Item H → Region
  | .markup m => m.region
  | .token t => t.toRegion

/-- The text that the item covers. -/
def text : Item H → Text
  | .markup m => m.toLexeme
  | .token t => t.text

/-- The text that is printed for the item. -/
def toLexeme : Item H → Text
  | .markup m => m.toLexeme
  | .token t => t.toLexeme

/-- The item is the token of a byte literal. -/
def IsBytes : Item H → Prop
  | .markup _ => False
  | .token t => t.isBytes = true

/-- All items but bytes are copied as they are. -/
theorem toLexeme_eq_text {i : Item H} (h : ¬ i.IsBytes) : i.toLexeme = i.text := by
  cases i with
  | markup m => rfl
  | token t =>
    cases t with
    | Bytes b => exact absurd rfl h
    | _ => rfl

/-- Bytes are copied without the characters before their digits. -/
theorem length_toLexeme_lt {i : Item H} (h : i.IsBytes) :
    i.toLexeme.length < i.text.length := by
  cases i with
  | markup m => exact h.elim
  | token t =>
    cases t with
    | Bytes b =>
      rw [text, Token.text, List.length_append]
      exact Nat.lt_add_of_pos_left (by decide)
    | _ => cases h

end Item

/-- The items cover the text from one position to the next. -/
inductive Covers {H : Type} : List (Item H) → Pos → Text → Pos → Prop
  | nil {p : Pos} : Covers [] p [] p
  | cons {i : Item H} {is : List (Item H)} {p q r : Pos} {t : Text} (hregion : i.region = ⟨p, q⟩)
    (hlen : q.byteOffset = p.byteOffset + i.text.length) (h : Covers is q t r) :
    Covers (i :: is) p (i.text ++ t) r

namespace Covers

variable {H : Type} {is js : List (Item H)} {i : Item H} {p q r : Pos} {t u : Text}

/-- Items that cover a text, and items that cover what follows. -/
theorem append (h : Covers is p t q) (h' : Covers js q u r) : Covers (is ++ js) p (t ++ u) r := by
  induction h with
  | nil => exact h'
  | cons hregion hlen _ ih =>
    rw [List.cons_append, List.append_assoc]
    exact .cons hregion hlen (ih h')

/-- One item covers its own text. -/
theorem single (hregion : i.region = ⟨p, q⟩)
    (hlen : q.byteOffset = p.byteOffset + i.text.length) : Covers [i] p i.text q := by
  have h := Covers.cons hregion hlen (Covers.nil (H := H))
  rw [List.append_nil] at h
  exact h

/-- The texts of the items are the text that they cover. -/
theorem flatMap_text (h : Covers is p t q) : is.flatMap Item.text = t := by
  induction h with
  | nil => rfl
  | cons _ _ _ ih => rw [List.flatMap_cons, ih]

/-- A region is as long as the text of its item. -/
theorem length_region (h : Covers is p t q) (hi : i ∈ is) :
    i.region.stop.byteOffset - i.region.start.byteOffset = i.text.length := by
  induction h with
  | nil => cases hi
  | @cons j js p q r t hregion hlen _ ih =>
    obtain rfl | hi := List.mem_cons.1 hi
    · rw [hregion, hlen]
      dsimp only
      omega
    · exact ih hi

end Covers

/-- Each region starts where the one before it stops. -/
def Contiguous (stop : ℤ) : ℤ → List Region → Prop
  | start, [] => start = stop
  | start, r :: rs => r.start.byteOffset = start ∧ Contiguous stop r.stop.byteOffset rs

/-- Regions that cover a text have neither gaps nor overlaps. -/
theorem Covers.contiguous {H : Type} {is : List (Item H)} {p q : Pos} {t : Text}
    (h : Covers is p t q) :
    Contiguous (p.byteOffset + t.length) p.byteOffset (is.map Item.region) := by
  induction h with
  | nil => exact (Int.add_zero _).symm
  | @cons i is p q r t hregion hlen _ ih =>
    rw [List.map_cons, hregion]
    refine ⟨rfl, ?_⟩
    rw [List.length_append, Int.natCast_add, ← Int.add_assoc, ← hlen]
    exact ih

/-! ### One call of `scan` -/

variable {lib : Libraries}

/-- The items of a unit, in the order of the source. -/
def unitItems (unit : LexUnit lib) : List (Item lib.Hex) :=
  unit.1.reverse.map .markup ++ [.token unit.2]

/-- What is added as markup covers what is consumed. -/
theorem covers_of_addsMarkup {state state' : State lib} {t : Text} (h : AddsMarkup state state' t) :
    ∃ m, state'.markup = m :: state.markup ∧
      Covers (H := lib.Hex) [.markup m] state.pos t state'.pos := by
  obtain ⟨⟨m, hmarkup, rfl, hregion⟩, hmoves⟩ := h
  exact ⟨m, hmarkup, Covers.single (i := .markup m) hregion hmoves.byteOffset⟩

/-- The markup that is found before a token covers what has been read. -/
theorem covers_of_visits {state state₁ : State lib} {buf buf₁ : Text}
    (h : Visits state buf state₁ buf₁)
    (hdir : ∀ state' buf', Visits state buf state' buf' → ¬ Takes .directive buf') :
    ∃ t ms, buf = t ++ buf₁ ∧ state₁.markup = ms ++ state.markup ∧
      Covers (H := lib.Hex) (ms.reverse.map .markup) state.pos t state₁.pos := by
  induction h with
  | refl => exact ⟨[], [], rfl, rfl, .nil⟩
  | again hstep _ ih =>
    obtain ⟨-, htakes | ⟨t, hbuf, hadds⟩⟩ := stepSpec_of_eq_ok hstep
    · exact absurd htakes (hdir _ _ .refl)
    · obtain ⟨u, ms, hrest, hmarkup, hcovers⟩ :=
        ih fun state' buf' h => hdir state' buf' (.again hstep h)
      obtain ⟨m, hm, hcovers'⟩ := covers_of_addsMarkup hadds
      refine ⟨t ++ u, ms ++ [m], ?_, ?_, ?_⟩
      · rw [hbuf, hrest, List.append_assoc]
      · rw [hmarkup, hm, List.append_assoc]
        rfl
      · rw [List.reverse_append]
        exact hcovers'.append hcovers

/-- A byte literal at the start of the text gives a token. -/
theorem scanStep_bytes (state : State lib) {buf : Text} (h : Takes .bytes buf) :
    ∃ token state' rest, scanStep state buf = .ok (.token token state' rest) := by
  obtain ⟨lexeme, rest, hlex⟩ := h
  rw [scanStep, hlex]
  dsimp only
  rw [scanAction, finish, mkBytes, sync_eq]
  exact ⟨_, _, _, rfl⟩

/-- A call of the rule finds one token. -/
theorem visits_unique {state state₁ state₂ state₁' state₂' : State lib}
    {buf buf₁ buf₂ rest₁ rest₂ : Text} {token₁ token₂ : Token lib.Hex}
    (h₁ : Visits state buf state₁ buf₁)
    (hstep₁ : scanStep state₁ buf₁ = .ok (.token token₁ state₁' rest₁))
    (h₂ : Visits state buf state₂ buf₂)
    (hstep₂ : scanStep state₂ buf₂ = .ok (.token token₂ state₂' rest₂)) : buf₁ = buf₂ := by
  induction h₁ with
  | refl =>
    cases h₂ with
    | refl => rfl
    | again hstep _ =>
      rw [hstep₁] at hstep
      cases hstep
  | again hstep _ ih =>
    cases h₂ with
    | refl =>
      rw [hstep₂] at hstep
      cases hstep
    | again hstep' h₂ =>
      rw [hstep] at hstep'
      cases hstep'
      exact ih hstep₁ h₂

namespace Stream

variable {s s' : Stream lib}

/-- A call of `scan` on the stream calls the rule with a state and a text. -/
def Visits (s : Stream lib) (state : State lib) (buf : Text) : Prop :=
  ∃ x, s.entry = .ok x ∧ Lexer.Visits x.1 x.2 state buf

/-- A call of `scan` on the stream takes a case. -/
def Takes (case : ScanCase) (s : Stream lib) : Prop :=
  ∃ state buf, s.Visits state buf ∧ Lexer.Takes case buf

/-- What precedes the rule `scan` is a byte order mark, if the call is the first. -/
theorem entry_eq_ok {state : State lib} {buf : Text} (h : s.entry = .ok (state, buf)) :
    (state = s.state ∧ buf = s.buffer) ∨
      ∃ t, s.buffer = t ++ buf ∧ AddsMarkup s.state state t := by
  unfold entry at h
  split at h
  · split at h
    · cases h
    · rename_i lexeme rest hlex
      obtain ⟨hbuf, -⟩ := lex_eq_some hlex
      rw [pushBom, pushLexeme, sync_eq] at h
      cases h
      exact .inr ⟨lexeme, hbuf, ⟨_, rfl, rfl, rfl⟩, moves_advance s.state.toCursor lexeme⟩
    · cases h
      exact .inl ⟨rfl, rfl⟩
  · cases h
    exact .inl ⟨rfl, rfl⟩

/-- **What a call of `scan` adds** is one unit, which covers the text that the call has read. -/
theorem scan_covers (h : s.scan = .ok s') (hdir : ¬ s.Takes .directive)
    (hmarkup : s.state.markup = []) :
    ∃ unit t, s'.state.units.toList = s.state.units.toList ++ [unit] ∧ s'.state.markup = [] ∧
      s.buffer = t ++ s'.buffer ∧ Covers (unitItems unit) s.state.pos t s'.state.pos ∧
      (unit.2.isBytes = true ↔ s.Takes .bytes) ∧ (unit.2.isEof = true → s'.buffer = []) := by
  obtain ⟨unit, henq, -⟩ := scan_withUnits h
  rw [scan_eq] at h
  cases hentry : s.entry with
  | error e =>
    rw [hentry] at h
    cases h
  | ok x =>
    obtain ⟨state, buf⟩ := x
    rw [hentry, Outcome.ok_bind] at h
    obtain ⟨state₁, buf₁, hvisits, ⟨token, state₂, rest, hstep, hscan⟩ | ⟨e, -, hscan⟩⟩ :=
      Lexer.scan_outcome state (Nat.lt_succ_self buf.length)
    · dsimp only at h
      rw [hscan] at h
      cases h
      obtain rfl := FQueue.enq_inj henq
      obtain ⟨u, hbuf₁, hfound, hmarkup₂, hbytes, heof⟩ := stepSpec_of_eq_ok hstep
      obtain ⟨t, ms, hbuf, hmarkup₁, hcovers⟩ := covers_of_visits hvisits
        fun state' buf' hv ht => hdir ⟨state', buf', ⟨_, hentry, hv⟩, ht⟩
      -- The markup before the rule `scan`: nothing, or the byte order mark.
      have hstart : ∃ v ns, s.buffer = v ++ buf ∧ state.markup = ns ∧
          Covers (H := lib.Hex) (ns.reverse.map .markup) s.state.pos v state.pos := by
        obtain ⟨rfl, rfl⟩ | ⟨v, hv, hadds⟩ := entry_eq_ok hentry
        · exact ⟨[], [], rfl, hmarkup, .nil⟩
        · obtain ⟨m, hm, hcovers'⟩ := covers_of_addsMarkup hadds
          rw [hmarkup] at hm
          exact ⟨v, [m], hv, hm, hcovers'⟩
      obtain ⟨v, ns, hv, rfl, hcovers'⟩ := hstart
      have htoken : Covers [.token token] state₁.pos u state₂.pos := by
        have hlen := hfound.moves.byteOffset
        rw [← hfound.text] at hlen ⊢
        exact Covers.single (i := .token token) hfound.toRegion hlen
      refine ⟨(state₂.markup, token), v ++ t ++ u, ?_, rfl, ?_, ?_, ?_, ?_⟩
      · rw [henq, FQueue.toList_enq]
      · rw [hv, hbuf, hbuf₁, List.append_assoc, List.append_assoc]
      · have hleft : unitItems (state₂.markup, token) =
            (state.markup.reverse.map .markup ++ ms.reverse.map .markup) ++
              [.token token] := by
          rw [unitItems, hmarkup₂, hmarkup₁, List.reverse_append, List.map_append]
        rw [hleft]
        exact (hcovers'.append hcovers).append htoken
      · rw [hbytes]
        constructor
        · exact fun ht => ⟨state₁, buf₁, ⟨_, hentry, hvisits⟩, ht⟩
        · rintro ⟨state', buf', ⟨x, hx, hv'⟩, ht⟩
          -- The case of a byte literal is the last one of the call.
          rw [hentry] at hx
          cases hx
          obtain ⟨token', state'', rest', hstep'⟩ := scanStep_bytes state' ht
          rw [visits_unique hvisits hstep hv' hstep']
          exact ht
      · intro h
        have hnil := heof h
        rw [hbuf₁] at hnil
        exact (List.append_eq_nil_iff.1 hnil).2
    · dsimp only at h
      rw [hscan] at h
      cases h

end Stream

/-! ### All calls of `scan` -/

variable {path : Option Text} {source : Text} {k : ℕ} {s : Stream lib}

variable (lib) in
/-- A call of `scan` on the source takes a case. -/
def Encounters (path : Option Text) (source : Text) (case : ScanCase) : Prop :=
  ∃ k s, Stream.scans k (openTokenStream lib path source) = .ok s ∧ s.Takes case

/-- **What the calls of `scan` add** covers the text that they have read. -/
theorem covers_of_scans (hdir : ¬ Encounters lib path source .directive)
    (h : Stream.scans k (openTokenStream lib path source) = .ok s) :
    ∃ t, source = t ++ s.buffer ∧ s.state.markup = [] ∧
      Covers (s.state.units.toList.flatMap unitItems)
        (openTokenStream lib path source).state.pos t s.state.pos ∧
      ∀ unit ∈ s.state.units.toList, unit.2.isBytes = true → Encounters lib path source .bytes := by
  induction k generalizing s with
  | zero =>
    cases h
    exact ⟨[], rfl, rfl, .nil, fun _ hmem => absurd hmem List.not_mem_nil⟩
  | succ k ih =>
    obtain ⟨s₁, hscans, hscan⟩ := Fuel.bind_eq_ok.1 h
    obtain ⟨t, hsource, hmarkup, hcovers, hbytes⟩ := ih hscans
    obtain ⟨unit, u, hunits, hmarkup', hbuffer, hcovers', hunit, -⟩ :=
      Stream.scan_covers hscan (fun htakes => hdir ⟨k, s₁, hscans, htakes⟩) hmarkup
    refine ⟨t ++ u, ?_, hmarkup', ?_, ?_⟩
    · rw [hsource, hbuffer, List.append_assoc]
    · rw [hunits, List.flatMap_append, List.flatMap_singleton]
      exact hcovers.append hcovers'
    · intro unit' hmem
      rw [hunits] at hmem
      obtain hmem | hmem := List.mem_append.1 hmem
      · exact hbytes unit' hmem
      · obtain rfl := List.mem_singleton.1 hmem
        exact fun hb => ⟨k, s₁, hscans, hunit.1 hb⟩

/-- Reading a source up to the end calls `scan` once for each unit, the last time at the end
of the text. -/
theorem scans_of_lexes {units : List (LexUnit lib)} (h : Lexes lib path source units) :
    ∃ k s s', Stream.scans k (openTokenStream lib path source) = .ok s ∧ s.scan = .ok s' ∧
      s'.state.units.toList = units ∧ ∃ unit ∈ units.getLast?, unit.2.isEof = true := by
  obtain ⟨fuel, h⟩ := h
  -- What `iter` returns is what some calls of `read` return, the last one the end of the file.
  have hreads : ∀ fuel k (s : Stream lib) (before units : List (LexUnit lib)),
      Stream.reads k (openTokenStream lib path source) = .ok (before, s) →
      iter fuel s = .ok units →
      (∃ j s', Stream.reads (j + 1) (openTokenStream lib path source) =
        .ok (before ++ units, s')) ∧ ∃ unit ∈ units.getLast?, unit.2.isEof = true := by
    intro fuel
    induction fuel with
    | zero =>
      intro k s before units _ h
      cases h
    | succ fuel ih =>
      intro k s before units hreads h
      obtain ⟨⟨unit, s₁⟩, hread, h⟩ := Fuel.bind_eq_ok.1 h
      have hreads' : Stream.reads (k + 1) (openTokenStream lib path source) =
          .ok (before ++ [unit], s₁) := by
        rw [Stream.reads, hreads, Outcome.ok_bind]
        dsimp only
        rw [hread]
        rfl
      dsimp only at h
      split at h
      · rename_i heof
        cases h
        exact ⟨⟨k, s₁, hreads'⟩, unit, rfl, heof⟩
      · obtain ⟨rest, hiter, h⟩ := Fuel.bind_eq_ok.1 h
        cases h
        obtain ⟨⟨j, s', hj⟩, unit', hlast, heof⟩ := ih (k + 1) s₁ _ rest hreads' hiter
        refine ⟨⟨j, s', by rw [hj, List.append_assoc]; rfl⟩, unit', ?_, heof⟩
        rw [List.getLast?_cons, Option.mem_def.1 hlast]
        rfl
  obtain ⟨⟨j, s, hj⟩, hlast⟩ := hreads fuel 0 _ [] units rfl h
  obtain ⟨s', hscans, hunits⟩ := reads_eq_scans hj
  obtain ⟨s₁, hscans', hscan⟩ := Fuel.bind_eq_ok.1 hscans
  exact ⟨j, s₁, s', hscans', hscan, hunits, hlast⟩

/-- The units of a source that lexes cover it. -/
theorem covers_of_lexes {units : List (LexUnit lib)}
    (hdir : ¬ Encounters lib path source .directive) (h : Lexes lib path source units) :
    ∃ q, Covers (units.flatMap unitItems) (openTokenStream lib path source).state.pos source q := by
  obtain ⟨k, s, s', hscans, hscan, hunits, unit, hlast, heof⟩ := scans_of_lexes h
  obtain ⟨t, hsource, hmarkup, hcovers, -⟩ := covers_of_scans hdir hscans
  obtain ⟨unit', u, hunits', -, hbuffer, hcovers', -, hnil⟩ :=
    Stream.scan_covers hscan (fun htakes => hdir ⟨k, s, hscans, htakes⟩) hmarkup
  rw [hunits] at hunits'
  rw [hunits', List.getLast?_concat] at hlast
  cases hlast
  have hend : source = t ++ u := by rw [hsource, hbuffer, hnil heof, List.append_nil]
  refine ⟨s'.state.pos, ?_⟩
  rw [hend, hunits', List.flatMap_append, List.flatMap_singleton]
  exact hcovers.append hcovers'

/-- **The regions tile the source.** The texts of the units make up the source, their regions
are contiguous from the start of the source to its end, and each region has the length of its
text. -/
theorem regions_tile {units : List (LexUnit lib)}
    (hdir : ¬ Encounters lib path source .directive) (h : Lexes lib path source units) :
    (units.flatMap unitItems).flatMap Item.text = source ∧
      Contiguous source.length 0 ((units.flatMap unitItems).map Item.region) ∧
      ∀ i ∈ units.flatMap unitItems,
        i.region.stop.byteOffset - i.region.start.byteOffset = i.text.length := by
  obtain ⟨q, hcovers⟩ := covers_of_lexes hdir h
  have hstart : (openTokenStream lib path source).state.pos.byteOffset = 0 := rfl
  have hcont := hcovers.contiguous
  rw [hstart, Int.zero_add] at hcont
  exact ⟨hcovers.flatMap_text, hcont, fun i hi => hcovers.length_region hi⟩

/-! ### Texts without line directives -/

/-- A directive starts with a hash. -/
theorem not_takes_directive {buf : Text} (h : ord '#' ∉ buf) : ¬ Takes .directive buf := by
  rintro ⟨lexeme, rest, hlex⟩
  obtain ⟨hbuf, hmatch⟩ := lex_regex (r := lineDirective) hlex (by simp [scanRules])
  obtain ⟨u, v, hlexeme, hu, -⟩ := matches_seq.1 hmatch
  rw [hbuf, hlexeme, eq_of_matches_chr hu] at h
  exact h List.mem_cons_self

/-- What is left to scan has no hash if the source has none. -/
theorem Lexer.Visits.not_mem {state state₁ : State lib} {buf buf₁ : Text}
    (hvisits : Visits state buf state₁ buf₁) (h : ord '#' ∉ buf) : ord '#' ∉ buf₁ := by
  induction hvisits with
  | refl => exact h
  | again hstep _ ih =>
    obtain ⟨-, htakes | ⟨t, hbuf, -⟩⟩ := stepSpec_of_eq_ok hstep
    · exact absurd htakes (not_takes_directive h)
    · rw [hbuf] at h
      exact ih fun hmem => h (List.mem_append_right _ hmem)

/-- There are no directives in a source without a hash. -/
theorem Stream.not_takes_directive (h : ord '#' ∉ s.buffer) : ¬ s.Takes .directive := by
  rintro ⟨state, buf, ⟨⟨state₀, buf₀⟩, hentry, hvisits⟩, htakes⟩
  refine Pascaligo.not_takes_directive (hvisits.not_mem ?_) htakes
  obtain ⟨-, rfl⟩ | ⟨t, hbuffer, -⟩ := entry_eq_ok hentry
  · exact h
  · rw [hbuffer] at h
    exact fun hmem => h (List.mem_append_right _ hmem)

/-- A text without the character `#` has no line directive. -/
theorem not_encounters_directive (h : ord '#' ∉ source) :
    ¬ Encounters lib path source .directive := by
  have hall : ∀ k (s : Stream lib), Stream.scans k (openTokenStream lib path source) = .ok s →
      ord '#' ∉ s.buffer ∧ s.state.markup = [] := by
    intro k
    induction k with
    | zero =>
      intro s hs
      cases hs
      exact ⟨h, rfl⟩
    | succ k ih =>
      intro s hs
      obtain ⟨s₁, hscans, hscan⟩ := Fuel.bind_eq_ok.1 hs
      obtain ⟨hnot, hmarkup⟩ := ih s₁ hscans
      obtain ⟨unit, t, -, hmarkup', hbuffer, -⟩ :=
        Stream.scan_covers hscan (Stream.not_takes_directive hnot) hmarkup
      rw [hbuffer] at hnot
      exact ⟨fun hmem => hnot (List.mem_append_right _ hmem), hmarkup'⟩
  rintro ⟨k, s, hscans, htakes⟩
  exact Stream.not_takes_directive (hall k s hscans).1 htakes

/-- Three units and a newline of two characters. -/
theorem regions_tile_call :
    ∃ units, Lexes asciiLibraries none (ascii ['f', '(', '\r', '\n', 'x', ')']) units ∧
      (units.flatMap unitItems).flatMap Item.text = ascii ['f', '(', '\r', '\n', 'x', ')'] ∧
      Contiguous 6 0 ((units.flatMap unitItems).map Item.region) ∧
      ∀ i ∈ units.flatMap unitItems,
        i.region.stop.byteOffset - i.region.start.byteOffset = i.text.length := by
  have hlexes : ∃ units, Lexes asciiLibraries none
      (ascii ['f', '(', '\r', '\n', 'x', ')']) units := ⟨_, 5, rfl⟩
  obtain ⟨units, hlexes⟩ := hlexes
  exact ⟨units, hlexes, regions_tile (not_encounters_directive (by decide)) hlexes⟩

end Ligo.Pascaligo
