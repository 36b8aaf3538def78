import Ligo.Michelson.Interpreter

/-!
# Running the code the generators build

One equation for each instruction helper of `Syntax`, in the form the proofs about
generated code rewrite with: what the instruction does to the values on top of an
arbitrary rest.
-/

namespace Michelson

section

variable {ctx : Context} {exec : Node → Value Node → Outcome Node (Value Node)} {n : ℕ}

@[simp] theorem steps_nil (s : Stack) : steps ctx exec n [] s = .ok s := rfl

/-- Code runs instruction by instruction; the rest does not run when the first one fails. -/
@[simp] theorem steps_cons (i : Node) (code : List Node) (s : Stack) :
    steps ctx exec n (i :: code) s = step ctx exec n i s >>= steps ctx exec n code := rfl

/-- Code that is put together runs one part after the other. -/
theorem steps_append (code code' : List Node) (s : Stack) :
    steps ctx exec n (code ++ code') s =
      steps ctx exec n code s >>= steps ctx exec n code' := by
  induction code generalizing s with
  | nil => rfl
  | cons i code ih =>
    simp only [List.cons_append, steps_cons, bind_assoc]
    congr 1
    funext s'
    exact ih s'

/-- Running a single instruction as a sequence. -/
theorem steps_singleton (i : Node) (s : Stack) :
    steps ctx exec n [i] s = step ctx exec n i s :=
  bind_pure _

/-- A sequence is its instructions. -/
@[simp] theorem step_seq (code : List Node) (s : Stack) :
    step ctx exec n (seq code) s = steps ctx exec n code s := rfl

@[simp] theorem step_iComment (text : String) (s : Stack) :
    step ctx exec n (iComment text) s = .ok s := rfl

/-- A comment does nothing. -/
theorem steps_iComment (text : String) (code : List Node) (s : Stack) :
    steps ctx exec n (iComment text :: code) s = steps ctx exec n code s := rfl

@[simp] theorem step_iDup (v : Value Node) (s : Stack) :
    step ctx exec n iDup (v :: s) = .ok (v :: v :: s) := rfl

@[simp] theorem step_iDrop (v : Value Node) (s : Stack) :
    step ctx exec n iDrop (v :: s) = .ok s := rfl

@[simp] theorem step_iSwap (v w : Value Node) (s : Stack) :
    step ctx exec n iSwap (v :: w :: s) = .ok (w :: v :: s) := rfl

/-- The instructions on pairs. `PAIR` takes the left component from the top of the stack, and
its mirror the right one. -/
@[simp] theorem step_iPair (v w : Value Node) (s : Stack) :
    step ctx exec n iPair (v :: w :: s) = .ok (.pair v w :: s) := rfl

@[simp] theorem step_iPiar (v w : Value Node) (s : Stack) :
    step ctx exec n iPiar (v :: w :: s) = .ok (.pair w v :: s) := rfl

/-- A projection fails when there is no pair. -/
@[simp] theorem step_iCar (v : Value Node) (s : Stack) :
    step ctx exec n iCar (v :: s) = push v.car s := rfl

@[simp] theorem step_iCdr (v : Value Node) (s : Stack) :
    step ctx exec n iCdr (v :: s) = push v.cdr s := rfl

@[simp] theorem step_iPushUnit (s : Stack) :
    step ctx exec n iPushUnit s = .ok (.unit :: s) := rfl

@[simp] theorem step_iNone (t : Node) (s : Stack) :
    step ctx exec n (iNone t) s = .ok (.none :: s) := rfl

@[simp] theorem step_iNil (t : Node) (s : Stack) :
    step ctx exec n (iNil t) s = .ok (.list [] :: s) := rfl

@[simp] theorem step_iEmptyMap (k t : Node) (s : Stack) :
    step ctx exec n (iEmptyMap k t) s = .ok (.map [] :: s) := rfl

/-- The code of a function runs by the meaning of calls that `step` is given. -/
@[simp] theorem step_iExec (v : Value Node) (f : Node) (s : Stack) :
    step ctx exec n iExec (v :: .lambda f :: s) = push (exec f v) s := rfl

/-- Code under a value. -/
@[simp] theorem step_dip (code : Node) (v : Value Node) (s : Stack) :
    step ctx exec n (dip code) (v :: s) =
      step ctx exec n code s >>= fun s' => .ok (v :: s') := by
  change (steps ctx exec n [code] s >>= fun s' => .ok (v :: s')) = _
  rw [steps_singleton]

/-- Taking a pair apart is a macro of several instructions. -/
@[simp] theorem step_iUnpair (v w : Value Node) (s : Stack) :
    step ctx exec n iUnpair (.pair v w :: s) = .ok (v :: w :: s) := rfl

@[simp] theorem step_iUnpiar (v w : Value Node) (s : Stack) :
    step ctx exec n iUnpiar (.pair v w :: s) = .ok (w :: v :: s) := rfl

/-- Only one branch of a conditional runs. -/
@[simp] theorem step_iIf (a b : Node) (t : Bool) (s : Stack) :
    step ctx exec n (iIf a b) (.bool t :: s) =
      if t then step ctx exec n a s else step ctx exec n b s := by
  change (if t then steps ctx exec n [a] s else steps ctx exec n [b] s) = _
  rw [steps_singleton, steps_singleton]

@[simp] theorem step_iIfNone_none (a b : Node) (s : Stack) :
    step ctx exec n (iIfNone a b) (.none :: s) = step ctx exec n a s :=
  steps_singleton ..

@[simp] theorem step_iIfNone_some (a b : Node) (v : Value Node) (s : Stack) :
    step ctx exec n (iIfNone a b) (.some v :: s) = step ctx exec n b (v :: s) :=
  steps_singleton ..

@[simp] theorem step_iIfLeft_left (a b : Node) (v : Value Node) (s : Stack) :
    step ctx exec n (iIfLeft a b) (.left v :: s) = step ctx exec n a (v :: s) :=
  steps_singleton ..

@[simp] theorem step_iIfLeft_right (a b : Node) (v : Value Node) (s : Stack) :
    step ctx exec n (iIfLeft a b) (.right v :: s) = step ctx exec n b (v :: s) :=
  steps_singleton ..

/-- The datum of a `PUSH`. -/
theorem step_iPush {t d : Node} {τ : Ty} (ht : readTy t = some τ) (s : Stack) :
    step ctx exec n (iPush t d) s =
      match readData ctx τ d with
      | some v => .ok (v :: s)
      | none => stuck := by
  change (match (readTy t).bind fun t => readData ctx t d with
    | some v => .ok (v :: s)
    | none => stuck : Outcome Node Stack) = _
  rw [ht]
  rfl

end

/-! ### Runs that end -/

section Ends

variable {ctx : Context}

/-- An instruction with one result at every depth ends with it. -/
theorem ends_of_step {i : Node} {s s' : Stack}
    (h : ∀ exec n, step ctx exec n i s = .ok s') : Ends ctx i s s' :=
  ⟨0, h _ _⟩

/-- No code leaves the stack as it is. -/
@[simp] theorem ends_nil {s s' : Stack} : Ends ctx (seq []) s s' ↔ s' = s := by
  constructor
  · rintro ⟨d, h⟩
    exact (Except.ok.inj h).symm
  · rintro rfl
    exact ends_of_step fun _ _ => rfl

/-- A sequence ends when its first instruction ends and the rest ends from there. -/
theorem ends_cons {i : Node} {code : List Node} {s s' : Stack} :
    Ends ctx (seq (i :: code)) s s' ↔
      ∃ s₁, Ends ctx i s s₁ ∧ Ends ctx (seq code) s₁ s' := by
  constructor
  · rintro ⟨d, h⟩
    rw [run, step_seq, steps_cons] at h
    obtain ⟨s₁, h₁, h₂⟩ := Fuel.bind_eq_ok.1 h
    exact ⟨s₁, ⟨d, h₁⟩, ⟨d, h₂⟩⟩
  · rintro ⟨s₁, ⟨d₁, h₁⟩, ⟨d₂, h₂⟩⟩
    -- both parts end at the larger of the two depths
    have h₁' := (run_grows ctx i s d₁ (max d₁ d₂) (le_max_left ..)).ok h₁
    have h₂' := (run_grows ctx (seq code) s₁ d₂ (max d₁ d₂) (le_max_right ..)).ok h₂
    refine ⟨max d₁ d₂, ?_⟩
    rw [run, step_seq, steps_cons]
    exact Fuel.bind_eq_ok.2 ⟨s₁, h₁', h₂'⟩

/-- One instruction in a sequence. -/
theorem ends_singleton {i : Node} {s s' : Stack} :
    Ends ctx (seq [i]) s s' ↔ Ends ctx i s s' := by
  rw [ends_cons]
  simp only [ends_nil]
  constructor
  · rintro ⟨s₁, h, rfl⟩
    exact h
  · intro h
    exact ⟨s', h, rfl⟩

/-- Code under a value ends as it does without the value. -/
theorem ends_dip {code : Node} {v : Value Node} {s t : Stack} :
    Ends ctx (dip code) (v :: s) t ↔ ∃ s', Ends ctx code s s' ∧ t = v :: s' := by
  constructor
  · rintro ⟨d, h⟩
    rw [run, step_dip] at h
    obtain ⟨s', hs', h⟩ := Fuel.bind_eq_ok.1 h
    exact ⟨s', ⟨d, hs'⟩, (Except.ok.inj h).symm⟩
  · rintro ⟨s', ⟨d, hs'⟩, rfl⟩
    refine ⟨d, ?_⟩
    rw [run, step_dip]
    exact Fuel.bind_eq_ok.2 ⟨s', hs', rfl⟩

end Ends

end Michelson
