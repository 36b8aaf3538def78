import Ligo.Michelson.Typecheck

/-!
# Typing rules

`Types ctx code bef aft` says that the checker accepts `code` on stacks of the types
`bef` and finds that it leaves `aft`; it is what `parseMichelson` decides. The checker
reads the code without its annotations and comments, so the rules for sequences and
`DIP` are stated for the code as it is generated.
-/

namespace Michelson

variable {ctx : Context}

variable (ctx) in
/-- The code takes stacks of the one type to stacks of the other. -/
def Types (code : Node) (bef aft : StackTy) : Prop :=
  typeInstr ctx (strip code) bef = some (.typed aft)

/-- The driver accepts code that the checker takes from the first stack to the second. -/
theorem parseMichelson_iff {code : Node} {bef aft : StackTy} :
    parseMichelson ctx code bef aft = true ↔ Types ctx code bef aft := by
  unfold parseMichelson Types
  split
  · rename_i s h
    rw [h]
    simp
  · rename_i h
    constructor
    · exact nofun
    · intro h'
      exact absurd h' (h aft)

/-- Code leaves one type of stacks. -/
theorem Types.unique {code : Node} {bef aft aft' : StackTy} (h : Types ctx code bef aft)
    (h' : Types ctx code bef aft') : aft = aft' := by
  have heq : some (Judgement.typed aft) = some (Judgement.typed aft') := h.symm.trans h'
  cases heq
  rfl

/-! ### Sequences -/

theorem stripAnnotsAll_eq (code : List Node) : stripAnnotsAll code = code.map stripAnnots := by
  induction code with
  | nil => rfl
  | cons n code ih => rw [stripAnnotsAll, ih, List.map_cons]

theorem stripNopsAll_eq (code : List Node) : stripNopsAll code = code.map stripNops := by
  induction code with
  | nil => rfl
  | cons n code ih => rw [stripNopsAll, ih, List.map_cons]

/-- Annotations and comments are stripped instruction by instruction. -/
theorem strip_seq (code : List Node) : strip (seq code) = seq (code.map strip) := by
  change seq (stripNopsAll (stripAnnotsAll code)) = _
  rw [stripAnnotsAll_eq, stripNopsAll_eq, List.map_map]
  rfl

theorem strip_dip (code : Node) : strip (dip code) = dip (strip code) := rfl

theorem types_nil {s : StackTy} : Types ctx (seq []) s s := rfl

/-- The rule for sequences. -/
theorem Types.cons {i : Node} {code : List Node} {s s₁ s₂ : StackTy} (hi : Types ctx i s s₁)
    (hcode : Types ctx (seq code) s₁ s₂) : Types ctx (seq (i :: code)) s s₂ := by
  unfold Types at *
  rw [strip_seq] at hcode ⊢
  change typeSeq ctx (code.map strip) s₁ = _ at hcode
  change typeSeq ctx (strip i :: code.map strip) s = _
  cases hmap : code.map strip with
  | nil =>
    rw [hmap] at hcode
    rw [typeSeq, hi]
    exact hcode
  | cons j is =>
    rw [hmap] at hcode
    rw [typeSeq, hi]
    · exact hcode
    · exact nofun

/-- What the parts of an accepted sequence leave. -/
theorem Types.of_cons {i : Node} {code : List Node} {s s₂ : StackTy}
    (h : Types ctx (seq (i :: code)) s s₂) :
    ∃ s₁, Types ctx i s s₁ ∧ Types ctx (seq code) s₁ s₂ := by
  unfold Types at *
  rw [strip_seq] at h
  change typeSeq ctx (strip i :: code.map strip) s = _ at h
  cases hmap : code.map strip with
  | nil =>
    rw [hmap, typeSeq] at h
    refine ⟨s₂, h, ?_⟩
    rw [strip_seq, hmap]
    rfl
  | cons j is =>
    rw [hmap, typeSeq] at h
    · split at h
      · rename_i s₁ hi
        refine ⟨s₁, hi, ?_⟩
        rw [strip_seq, hmap]
        exact h
      · cases h
    · exact nofun

/-- Code that is put together. -/
theorem Types.append {code code' : List Node} {s s₁ s₂ : StackTy}
    (h : Types ctx (seq code) s s₁) (h' : Types ctx (seq code') s₁ s₂) :
    Types ctx (seq (code ++ code')) s s₂ := by
  induction code generalizing s with
  | nil =>
    cases h
    exact h'
  | cons i code ih =>
    obtain ⟨s', hi, hcode⟩ := h.of_cons
    exact hi.cons (ih hcode)

/-- What is left of an accepted sequence when the beginning of it is known. -/
theorem Types.of_append {code code' : List Node} {s s₁ s₂ : StackTy}
    (h : Types ctx (seq (code ++ code')) s s₂) (hcode : Types ctx (seq code) s s₁) :
    Types ctx (seq code') s₁ s₂ := by
  induction code generalizing s with
  | nil =>
    cases hcode
    exact h
  | cons i code ih =>
    obtain ⟨s', hi, hrest⟩ := h.of_cons
    obtain ⟨s'', hi', hrest'⟩ := hcode.of_cons
    obtain rfl := hi.unique hi'
    exact ih hrest hrest'

/-- A sequence of one instruction. -/
theorem Types.singleton {i : Node} {s s' : StackTy} (h : Types ctx i s s') :
    Types ctx (seq [i]) s s' :=
  h.cons types_nil

/-- The rule for code under a value. -/
theorem Types.dip {code : Node} {t : Ty} {s s' : StackTy} (h : Types ctx code s s') :
    Types ctx (dip code) (t :: s) (t :: s') := by
  unfold Types at *
  have hseq : typeSeq ctx [strip code] s = some (.typed s') := by rw [typeSeq, h]
  rw [strip_dip]
  simp only [Michelson.dip, prim, seq, typeInstr, hseq]

/-- What code under a value does. -/
theorem Types.of_dip {code : Node} {s s₂ : StackTy} (h : Types ctx (Michelson.dip code) s s₂) :
    ∃ t s₀ s', s = t :: s₀ ∧ s₂ = t :: s' ∧ Types ctx code s₀ s' := by
  unfold Types at *
  rw [strip_dip] at h
  cases s with
  | nil => cases h
  | cons t s₀ =>
    simp only [Michelson.dip, prim, seq, typeInstr, typeSeq] at h
    split at h
    · rename_i s' hcode
      cases h
      exact ⟨t, s₀, s', rfl, rfl, hcode⟩
    · cases h

/-! ### Branches -/

section Branches

variable {code code' : Node} {t u : Ty} {s s' : StackTy}

theorem typeSeq_singleton {code : Node} {s : StackTy} :
    typeSeq ctx [strip code] s = typeInstr ctx (strip code) s := by
  rw [typeSeq]

/-- The branches of a conditional end with one stack. -/
theorem Types.iIf (ha : Types ctx code s s') (hb : Types ctx code' s s') :
    Types ctx (iIf code code') (.comparable .bool :: s) s' := by
  change (do
    let a ← typeSeq ctx [strip code] s
    let b ← typeSeq ctx [strip code'] s
    merge a b) = _
  rw [typeSeq_singleton, typeSeq_singleton, ha, hb]
  change (if s' = s' then _ else _) = _
  rw [if_pos rfl]

theorem Types.iIfNone (ha : Types ctx code s s') (hb : Types ctx code' (t :: s) s') :
    Types ctx (iIfNone code code') (.option t :: s) s' := by
  change (do
    let a ← typeSeq ctx [strip code] s
    let b ← typeSeq ctx [strip code'] (t :: s)
    merge a b) = _
  rw [typeSeq_singleton, typeSeq_singleton, ha, hb]
  change (if s' = s' then _ else _) = _
  rw [if_pos rfl]

theorem Types.iIfLeft (ha : Types ctx code (t :: s) s') (hb : Types ctx code' (u :: s) s') :
    Types ctx (iIfLeft code code') (.or t u :: s) s' := by
  change (do
    let a ← typeSeq ctx [strip code] (t :: s)
    let b ← typeSeq ctx [strip code'] (u :: s)
    merge a b) = _
  rw [typeSeq_singleton, typeSeq_singleton, ha, hb]
  change (if s' = s' then _ else _) = _
  rw [if_pos rfl]

/-- The body of a loop leaves the next condition. -/
theorem Types.iLoop {code : List Node} (h : Types ctx (seq code) s (.comparable .bool :: s)) :
    Types ctx (prim .iLoop [seq code]) (.comparable .bool :: s) s := by
  unfold Types at h ⊢
  rw [strip_seq] at h
  have hstrip : strip (prim .iLoop [seq code]) = prim .iLoop [strip (seq code)] := rfl
  rw [hstrip, strip_seq]
  have hseq : typeSeq ctx (code.map strip) s = some (.typed (.comparable .bool :: s)) := h
  simp only [prim, seq, typeInstr, hseq]
  rfl

end Branches

/-! ### Stack instructions -/

section Stack

variable {t u : Ty} {s : StackTy}

/-- The instructions that move values do not look at their types. -/
theorem types_iDup : Types ctx iDup (t :: s) (t :: t :: s) := rfl
theorem types_iDrop : Types ctx iDrop (t :: s) s := rfl
theorem types_iSwap : Types ctx iSwap (t :: u :: s) (u :: t :: s) := rfl
/-- Taking a pair apart makes no type that is not there before. -/
theorem types_iUnpair : Types ctx iUnpair (.pair t u :: s) (t :: u :: s) := rfl
theorem types_iUnpiar : Types ctx iUnpiar (.pair t u :: s) (u :: t :: s) := rfl

/-- Making a pair makes a type, which has to be within the limit. -/
theorem types_iPair (h : ctx.admits (.pair t u) = true) :
    Types ctx iPair (t :: u :: s) (.pair t u :: s) := grow_of_admits h

/-- A pair that is made is within the limit. -/
theorem Types.of_iPair {s s' : StackTy} (h : Types ctx iPair s s') :
    ∃ t u s₀, s = t :: u :: s₀ ∧ s' = .pair t u :: s₀ ∧ ctx.admits (.pair t u) = true := by
  match s with
  | [] | [_] => cases h
  | t :: u :: s₀ =>
    obtain ⟨hadmits, hret⟩ := grow_eq_some.1 h
    cases hret
    exact ⟨t, u, s₀, rfl, rfl, hadmits⟩

theorem types_iPiar (h : ctx.admits (.pair u t) = true) :
    Types ctx iPiar (t :: u :: s) (.pair u t :: s) :=
  types_iSwap.cons (types_iPair h).singleton

theorem types_iPushUnit : Types ctx iPushUnit s (.unit :: s) :=
  grow_of_admits (Context.admits_of_size_eq_one rfl)

/-- A comment changes nothing. -/
theorem types_iComment (text : String) : Types ctx (iComment text) s s := rfl

/-- Only a pair can be taken apart. -/
theorem Types.of_iUnpair {s s' : StackTy} (h : Types ctx iUnpair s s') :
    ∃ t u s₀, s = .pair t u :: s₀ ∧ s' = t :: u :: s₀ := by
  cases s with
  | nil => cases h
  | cons a s =>
    cases a with
    | pair t u =>
      cases h
      exact ⟨t, u, s, rfl, rfl⟩
    | _ => cases h

end Stack

end Michelson
