import Ligo.Pascaligo.Tiling

/-!
# Copying the source

In the mode `Copy` the units of a source are printed one after the other. The output is the
source, but for two slips (`copy_iff`): the token of a byte literal has lost the first two
characters of its lexeme, and the lexer fails on the empty file.
-/

namespace Ligo.Pascaligo

open Lexing Lexer

variable {lib : Libraries} {path : Option Text} {source : Text} {k : ℕ} {s : Stream lib}

/-! ### What is printed -/

/-- A unit is printed with the markup before it. -/
theorem outputToken_eq (unit : LexUnit lib) :
    outputToken unit = (unitItems unit).flatMap Item.toLexeme := by
  obtain ⟨left, token⟩ := unit
  have hfold : ∀ (left : List Markup) (acc : List Text),
      (left.foldl (fun acc markup => markup.toLexeme :: acc) acc).flatten =
        (left.reverse.map (Item.markup (H := lib.Hex))).flatMap Item.toLexeme ++ acc.flatten := by
    intro left
    induction left with
    | nil => exact fun acc => rfl
    | cons m left ih =>
      intro acc
      rw [List.foldl_cons, ih, List.reverse_cons, List.map_append, List.flatMap_append,
        List.append_assoc, List.map_singleton, List.flatMap_singleton, List.flatten_cons]
      rfl
  rw [outputToken, hfold, unitItems, List.flatMap_append]
  rfl

/-- The copy is the lexemes of all items. -/
theorem copy_eq (units : List (LexUnit lib)) :
    copy units = (units.flatMap unitItems).flatMap Item.toLexeme := by
  rw [copy, List.flatMap_assoc]
  exact congrArg (fun f => units.flatMap f) (funext outputToken_eq)

section Items

variable {H : Type} {is : List (Item H)}

/-- Without bytes the copy is the text. -/
theorem flatMap_toLexeme_of_not_isBytes (h : ∀ i ∈ is, ¬ i.IsBytes) :
    is.flatMap Item.toLexeme = is.flatMap Item.text := by
  induction is with
  | nil => rfl
  | cons i is ih =>
    rw [List.flatMap_cons, List.flatMap_cons, Item.toLexeme_eq_text (h i List.mem_cons_self),
      ih fun j hj => h j (List.mem_cons_of_mem _ hj)]

/-- No lexeme is longer than its text. -/
theorem length_toLexeme_le (i : Item H) : i.toLexeme.length ≤ i.text.length := by
  by_cases h : i.IsBytes
  · exact Nat.le_of_lt (Item.length_toLexeme_lt h)
  · rw [Item.toLexeme_eq_text h]

theorem length_flatMap_toLexeme_le (is : List (Item H)) :
    (is.flatMap Item.toLexeme).length ≤ (is.flatMap Item.text).length := by
  induction is with
  | nil => exact Nat.le_refl _
  | cons i is ih =>
    rw [List.flatMap_cons, List.flatMap_cons, List.length_append, List.length_append]
    exact Nat.add_le_add (length_toLexeme_le i) ih

/-- A byte literal makes the copy shorter. -/
theorem length_flatMap_toLexeme_lt {i : Item H} (hi : i ∈ is) (h : i.IsBytes) :
    (is.flatMap Item.toLexeme).length < (is.flatMap Item.text).length := by
  obtain ⟨before, after, rfl⟩ := List.append_of_mem hi
  have hbefore := length_flatMap_toLexeme_le before
  have hafter := length_flatMap_toLexeme_le after
  have hlt := Item.length_toLexeme_lt h
  simp only [List.flatMap_append, List.flatMap_cons, List.length_append]
  omega

end Items

/-! ### Byte literals -/

/-- The token of a unit is the only item that can be a byte literal. -/
theorem isBytes_unitItems {unit : LexUnit lib} {i : Item lib.Hex} (hi : i ∈ unitItems unit)
    (h : i.IsBytes) : unit.2.isBytes = true := by
  obtain hi | hi := List.mem_append.1 hi
  · obtain ⟨m, -, rfl⟩ := List.mem_map.1 hi
    exact h.elim
  · rw [List.mem_singleton.1 hi] at h
    exact h

/-- Bytes are not empty. -/
theorem not_takes_bytes_nil : ¬ Takes .bytes [] := by
  rintro ⟨lexeme, rest, hlex⟩
  obtain ⟨hnil, hmatch⟩ := lex_regex (r := bytes) hlex (by simp [scanRules])
  exact ne_nil_of_matches hmatch rfl (List.append_eq_nil_iff.1 hnil.symm).1

/-- Nothing is found after the end of the text. -/
theorem buffer_eq_nil {j : ℕ} {s' : Stream lib} (hdir : ¬ Encounters lib path source .directive)
    (hk : Stream.scans k (openTokenStream lib path source) = .ok s) (hs : s.buffer = [])
    (hj : Stream.scans j (openTokenStream lib path source) = .ok s') (hle : k ≤ j) :
    s'.buffer = [] := by
  induction hle generalizing s' with
  | refl =>
    rw [hk] at hj
    cases hj
    exact hs
  | step _ ih =>
    obtain ⟨s₁, hscans, hscan⟩ := Fuel.bind_eq_ok.1 hj
    obtain ⟨-, -, hmarkup, -⟩ := covers_of_scans hdir hscans
    obtain ⟨unit, t, -, -, hbuffer, -⟩ :=
      Stream.scan_covers hscan (fun htakes => hdir ⟨_, s₁, hscans, htakes⟩) hmarkup
    rw [ih hscans] at hbuffer
    exact (List.append_eq_nil_iff.1 hbuffer.symm).2

/-- After the first call nothing is taken at the end of the text but the end. -/
theorem Stream.not_takes_bytes (hfirst : s.firstCall = false) (hs : s.buffer = []) :
    ¬ s.Takes .bytes := by
  rintro ⟨state, buf, ⟨⟨state₀, buf₀⟩, hentry, hvisits⟩, htakes⟩
  rw [entry, hfirst] at hentry
  cases hentry
  cases hvisits with
  | refl =>
    rw [hs] at htakes
    exact not_takes_bytes_nil htakes
  | again hstep _ =>
    have hlt := (stepSpec_of_eq_ok hstep).1
    rw [hs] at hlt
    exact absurd hlt (Nat.not_lt_zero _)

/-- A byte literal in a source that lexes is one of its tokens. -/
theorem isBytes_of_encounters {units : List (LexUnit lib)}
    (hdir : ¬ Encounters lib path source .directive) (h : Lexes lib path source units)
    (hbytes : Encounters lib path source .bytes) : ∃ unit ∈ units, unit.2.isBytes = true := by
  obtain ⟨k, s, s', hscans, hscan, hunits, unit, hlast, heof⟩ := scans_of_lexes h
  obtain ⟨j, sj, hj, htakes⟩ := hbytes
  have hscans' : Stream.scans (k + 1) (openTokenStream lib path source) = .ok s' := by
    rw [Stream.scans, hscans]
    exact hscan
  obtain hlt | hle := Nat.lt_or_ge j (k + 1)
  · -- The call is one of those that enqueue the units.
    obtain ⟨t, ht, hprefix⟩ := Stream.scans_prefix hscans' hlt
    have htscan : sj.scan = .ok t := by
      rw [Stream.scans, hj] at ht
      exact ht
    obtain ⟨-, -, hmarkup, -⟩ := covers_of_scans hdir hj
    obtain ⟨unit', u, hunits', -, -, -, hunit, -⟩ :=
      Stream.scan_covers htscan (fun htakes => hdir ⟨j, sj, hj, htakes⟩) hmarkup
    refine ⟨unit', ?_, hunit.2 htakes⟩
    rw [← hunits]
    refine hprefix.subset ?_
    rw [hunits']
    exact List.mem_append_right _ List.mem_cons_self
  · -- The call comes after the end of the text.
    obtain ⟨-, -, hmarkup, -⟩ := covers_of_scans hdir hscans
    obtain ⟨unit', u, hunits', -, -, -, -, hnil⟩ :=
      Stream.scan_covers hscan (fun htakes => hdir ⟨k, s, hscans, htakes⟩) hmarkup
    rw [hunits] at hunits'
    rw [hunits', List.getLast?_concat] at hlast
    cases hlast
    have hbuffer := buffer_eq_nil hdir hscans' (hnil heof) hj hle
    obtain ⟨i, rfl⟩ := Nat.exists_eq_add_of_le' hle
    obtain ⟨s₁, -, hscan₁⟩ := Fuel.bind_eq_ok.1 hj
    exact absurd htakes (Stream.not_takes_bytes (Stream.firstCall_scan hscan₁) hbuffer)

/-- The lexer fails on the empty file. -/
theorem not_lexes_nil {units : List (LexUnit lib)} : ¬ Lexes lib path [] units := by
  rintro ⟨fuel, h⟩
  cases fuel with
  | zero => cases h
  | succ fuel => cases h

/-- **Copying.** A source without line directives that lexes, or that is empty, is copied if
and only if it is not empty and has no byte literal. -/
theorem copy_iff (hdir : ¬ Encounters lib path source .directive)
    (h : source = [] ∨ ∃ units, Lexes lib path source units) :
    (∃ units, Lexes lib path source units ∧ copy units = source) ↔
      source ≠ [] ∧ ¬ Encounters lib path source .bytes := by
  constructor
  · rintro ⟨units, hlexes, hcopy⟩
    refine ⟨?_, fun hbytes => ?_⟩
    · rintro rfl
      exact not_lexes_nil hlexes
    · obtain ⟨unit, hmem, hunit⟩ := isBytes_of_encounters hdir hlexes hbytes
      obtain ⟨q, hcovers⟩ := covers_of_lexes hdir hlexes
      have hitem : .token unit.2 ∈ units.flatMap unitItems :=
        List.mem_flatMap.2 ⟨unit, hmem, List.mem_append_right _ List.mem_cons_self⟩
      -- the lexeme of the bytes is shorter than what it was read from, and no other is longer
      have hlt := length_flatMap_toLexeme_lt hitem hunit
      rw [← copy_eq, hcovers.flatMap_text, hcopy] at hlt
      exact Nat.lt_irrefl _ hlt
  · rintro ⟨hne, hbytes⟩
    obtain rfl | ⟨units, hlexes⟩ := h
    · exact absurd rfl hne
    · refine ⟨units, hlexes, ?_⟩
      obtain ⟨q, hcovers⟩ := covers_of_lexes hdir hlexes
      rw [copy_eq, flatMap_toLexeme_of_not_isBytes, hcovers.flatMap_text]
      -- a unit of bytes would have been met on the way
      intro i hi hitem
      obtain ⟨unit, hmem, hi⟩ := List.mem_flatMap.1 hi
      obtain ⟨k, s, s', hscans, hscan, hunits, -⟩ := scans_of_lexes hlexes
      have hscans' : Stream.scans (k + 1) (openTokenStream lib path source) = .ok s' := by
        rw [Stream.scans, hscans]
        exact hscan
      obtain ⟨-, -, -, -, hall⟩ := covers_of_scans hdir hscans'
      rw [hunits] at hall
      exact hbytes (hall unit hmem (isBytes_unitItems hi hitem))

/-- A comment and a string are copied. -/
theorem copy_string :
    (∃ units, Lexes asciiLibraries none (ascii ['"', 'a', '"', '/', '/', '\n']) units ∧
        copy units = ascii ['"', 'a', '"', '/', '/', '\n']) ↔
      ascii ['"', 'a', '"', '/', '/', '\n'] ≠ [] ∧
        ¬ Encounters asciiLibraries none (ascii ['"', 'a', '"', '/', '/', '\n']) .bytes :=
  copy_iff (not_encounters_directive (by decide)) (.inr ⟨_, 3, rfl⟩)

/-- A byte literal is copied without its first two characters. -/
theorem copy_bytes :
    ¬ Encounters asciiLibraries none (ascii ['0', 'x', 'A', 'B']) .directive ∧
      ∃ units, Lexes asciiLibraries none (ascii ['0', 'x', 'A', 'B']) units ∧
        copy units = ascii ['A', 'B'] :=
  ⟨not_encounters_directive (by decide), _, ⟨3, rfl⟩, rfl⟩

end Ligo.Pascaligo
