import Ligo.Compiler.Program
import Ligo.Michelson.Typing

/-!
# Predicates fit their arguments

A predicate of the table fits the arguments of a constant when it has their number and
its code, run on a stack with the arguments on top, leaves the result in their place,
whatever lies below. This is the contract between the table of the typer, the table of
the code and the generator.
-/

namespace Ligo.CompilerProgram

open MiniC Michelson Operators
open Fuel (bind_eq_ok map_eq_ok map₂_eq_ok)

variable (ctx : Michelson.Context)

/-- The code of a predicate. -/
def predicateCode : Predicate → Node
  | .constant c | .unary c | .binary c | .ternary c => c

/-- The number of its arguments. -/
def predicateArity : Predicate → ℕ
  | .constant _ => 0
  | .unary _ => 1
  | .binary _ => 2
  | .ternary _ => 3

/-- The code of a predicate follows the code of its arguments, if there are as many as it takes.
-/
theorem applyPredicate_eq_ok {p : Predicate} {arity : ℕ} {pre code : Node} :
    applyPredicate p arity pre = .ok code ↔
      arity = predicateArity p ∧ code = seq [pre, predicateCode p] := by
  constructor
  · intro h
    unfold applyPredicate at h
    split at h
    all_goals first | cases h; exact ⟨rfl, rfl⟩ | cases h
  · rintro ⟨rfl, rfl⟩
    cases p <;> rfl

/-- The predicate of `s` takes arguments of the types `bef` to a result of the type `u`. -/
def Fits (s : String) (ty : TypeValue) (lst : List Expression) (bef : StackTy) (u : Ty) : Prop :=
  ∃ p, getPredicate s ty lst = .ok p ∧ lst.length = predicateArity p ∧
    ∀ rest, Types ctx (predicateCode p) (bef ++ rest) (u :: rest)

variable {ctx}

/-- The constants of the fixed table. -/
theorem fits_of_predicates {s : String} {p : Predicate} {ty : TypeValue} {lst : List Expression}
    {bef : StackTy} {u : Ty} (hp : predicates s = some p) (hlen : lst.length = predicateArity p)
    (hcode : ∀ rest, Types ctx (predicateCode p) (bef ++ rest) (u :: rest)) :
    Fits ctx s ty lst bef u := by
  refine ⟨p, ?_, hlen, hcode⟩
  unfold getPredicate
  rw [hp]

/-! ### Stripping types -/

/-- Stripping keeps the instruction. -/
theorem strip_prim {p : Prim} (children : List Node) (hp : p ≠ .iNop) :
    strip (prim p children) = prim p (children.map strip) := by
  have hnops : ∀ ns, stripNops (.prim p ns []) = .prim p (stripNopsAll ns) [] := by
    intro ns
    rw [stripNops]
    exact fun h => absurd h hp
  change stripNops (.prim p (stripAnnotsAll children) []) = _
  rw [hnops, stripAnnotsAll_eq, stripNopsAll_eq, List.map_map]
  rfl

/-- There are no annotations in the type of an environment. -/
theorem strip_environmentClosure {env : Environment}
    (h : ∀ x ∈ env, ∀ n, CompilerType.type_ x.2 = .ok n → strip n = n) {n : Node}
    (hn : CompilerType.environmentClosure env = .ok n) : strip n = n := by
  induction env generalizing n with
  | nil => cases hn
  | cons x env ih =>
    have hx := h x List.mem_cons_self
    have henv := fun y hy => h y (List.mem_cons_of_mem x hy)
    cases env with
    | nil => exact hx n hn
    | cons y env =>
      obtain ⟨n₁, n₂, hn₁, hn₂, rfl⟩ := map₂_eq_ok.1 hn
      rw [tPair, strip_prim, List.map_cons, List.map_singleton, hx n₁ hn₁, ih henv hn₂]
      decide

/-- The Micheline form of a type holds neither annotations nor comments. -/
theorem strip_type_ {τ : TypeValue} {n : Node} (hn : CompilerType.type_ τ = .ok n) :
    strip n = n := by
  -- along the type; the node of a type carries no annotation and no empty sequence
  induction τ using TypeValue.ind generalizing n with
  | base b =>
    cases hn
    cases b <;> rfl
  | pair a b iha ihb | or a b iha ihb | function a b iha ihb | map a b iha ihb =>
    obtain ⟨n₁, n₂, hn₁, hn₂, rfl⟩ := map₂_eq_ok.1 hn
    rw [strip_prim, List.map_cons, List.map_singleton, iha hn₁, ihb hn₂]
    decide
  | closure env a b ihenv iha ihb =>
    obtain ⟨c, hc, hn⟩ := bind_eq_ok.1 hn
    obtain ⟨n₁, n₂, hn₁, hn₂, rfl⟩ := map₂_eq_ok.1 hn
    have henv := strip_environmentClosure (fun x hx n => ihenv x hx) hc
    rw [tPair, tPair, tLambda, strip_prim, List.map_cons, List.map_singleton, henv, strip_prim,
      List.map_cons, List.map_singleton, ihb hn₂, strip_prim, List.map_cons, List.map_singleton,
      iha hn₁, henv]
    all_goals decide
  | list t ih | contract t ih | option t ih =>
    obtain ⟨n₁, hn₁, rfl⟩ := map_eq_ok.1 hn
    rw [strip_prim, List.map_singleton, ih hn₁]
    decide

/-! ### Typing rules with types -/

section Types

variable {τ : TypeValue} {n : Node} {u : Ty} {s : StackTy}

/-- The Micheline form of a type is accepted where the type is allowed. -/
theorem parseTy_type_ (hu : CompilerType.Ty.type_ τ = .ok u) (hn : CompilerType.type_ τ = .ok n)
    {allowOperation : Bool} (ha : u.allowed allowOperation = true) :
    parseTy allowOperation n = some u :=
  parseTy_eq_some.2 ⟨CompilerType.readTy_type_ hu hn, ha⟩

/-- Instructions that name a type ask the checker to read it. -/
theorem types_iNone (hu : CompilerType.Ty.type_ τ = .ok u) (hn : CompilerType.type_ τ = .ok n)
    (ha : u.allowed true = true) (hadmits : ctx.admits (.option u) = true) :
    Types ctx (iNone n) s (.option u :: s) := by
  unfold Types
  rw [iNone, strip_prim [n] (p := .iNone) nofun, List.map_singleton, strip_type_ hn]
  simp only [prim, typeInstr, parseTy_type_ hu hn ha]
  exact grow_of_admits hadmits

/-- `NONE` needs a type that is allowed in an option, and an option within the limit. -/
theorem allowed_of_iNone (hu : CompilerType.Ty.type_ τ = .ok u)
    (hn : CompilerType.type_ τ = .ok n) {s' : StackTy} (h : Types ctx (iNone n) s s') :
    u.allowed true = true ∧ ctx.admits (.option u) = true := by
  unfold Types at h
  rw [iNone, strip_prim [n] (p := .iNone) nofun, List.map_singleton, strip_type_ hn] at h
  simp only [prim, typeInstr] at h
  cases ht : parseTy true n with
  | none =>
    rw [ht] at h
    cases h
  | some t =>
    obtain ⟨hread, ha⟩ := parseTy_eq_some.1 ht
    rw [CompilerType.readTy_type_ hu hn] at hread
    cases hread
    rw [ht] at h
    exact ⟨ha, (grow_eq_some.1 h).1⟩

theorem types_iLeft (hu : CompilerType.Ty.type_ τ = .ok u) (hn : CompilerType.type_ τ = .ok n)
    (ha : u.allowed true = true) {t : Ty} :
    Types ctx (prim .iLeft [n]) (t :: s) (.or t u :: s) := by
  unfold Types
  rw [strip_prim [n] (p := .iLeft) nofun, List.map_singleton, strip_type_ hn]
  simp only [prim, typeInstr, parseTy_type_ hu hn ha]
  rfl

theorem types_iRight (hu : CompilerType.Ty.type_ τ = .ok u) (hn : CompilerType.type_ τ = .ok n)
    (ha : u.allowed true = true) {t : Ty} :
    Types ctx (prim .iRight [n]) (t :: s) (.or u t :: s) := by
  unfold Types
  rw [strip_prim [n] (p := .iRight) nofun, List.map_singleton, strip_type_ hn]
  simp only [prim, typeInstr, parseTy_type_ hu hn ha]
  rfl

/-- An injection writes the type of the other side into the code. -/
theorem fits_left {σ : TypeValue} {e : Expression} {t : Ty}
    (hu : CompilerType.Ty.type_ τ = .ok u) (hn : CompilerType.type_ τ = .ok n)
    (ha : u.allowed true = true) : Fits ctx "LEFT" (.tOr σ τ) [e] [t] (.or t u) := by
  refine ⟨.unary (prim .iLeft [n]), ?_, rfl, fun rest => types_iLeft hu hn ha⟩
  change (CompilerType.type_ τ >>= fun rTy => Except.ok (Predicate.unary (prim .iLeft [rTy]))) = _
  rw [hn]
  rfl

theorem fits_right {σ : TypeValue} {e : Expression} {t : Ty}
    (hu : CompilerType.Ty.type_ τ = .ok u) (hn : CompilerType.type_ τ = .ok n)
    (ha : u.allowed true = true) : Fits ctx "RIGHT" (.tOr τ σ) [e] [t] (.or u t) := by
  refine ⟨.unary (prim .iRight [n]), ?_, rfl, fun rest => types_iRight hu hn ha⟩
  change (CompilerType.type_ τ >>= fun lTy => Except.ok (Predicate.unary (prim .iRight [lTy]))) = _
  rw [hn]
  rfl

/-- The parameter of a contract is free of operations. -/
theorem types_iContract (hu : CompilerType.Ty.type_ τ = .ok u)
    (hn : CompilerType.type_ τ = .ok n) (ha : u.allowed false = true)
    (hadmits : ctx.admits (.option (.contract u)) = true) :
    Types ctx (prim .iContract [n]) (.comparable .address :: s) (.option (.contract u) :: s) := by
  unfold Types
  rw [strip_prim [n] (p := .iContract) nofun, List.map_singleton, strip_type_ hn]
  simp only [prim, typeInstr, parseTy_type_ hu hn ha]
  exact grow_of_admits hadmits

/-- `CONTRACT` needs an address, a type that is allowed as a parameter and a result within
the limit. -/
theorem allowed_of_iContract (hu : CompilerType.Ty.type_ τ = .ok u)
    (hn : CompilerType.type_ τ = .ok n) {a : Ty} {s' : StackTy}
    (h : Types ctx (prim .iContract [n]) (a :: s) s') :
    a = .comparable .address ∧ u.allowed false = true ∧
      ctx.admits (.option (.contract u)) = true := by
  -- the rule asks for an address below a type that the protocol allows here
  unfold Types at h
  rw [strip_prim [n] (p := .iContract) nofun, List.map_singleton, strip_type_ hn] at h
  cases a with
  | comparable c =>
    cases c with
    | address =>
      refine ⟨rfl, ?_⟩
      simp only [prim, typeInstr] at h
      cases ht : parseTy false n with
      | none =>
        rw [ht] at h
        cases h
      | some t =>
        obtain ⟨hread, ha⟩ := parseTy_eq_some.1 ht
        rw [CompilerType.readTy_type_ hu hn] at hread
        cases hread
        rw [ht] at h
        exact ⟨ha, (grow_eq_some.1 h).1⟩
    | _ => cases h
  | _ => cases h

/-- The rule for data without functions. -/
theorem typeInstr_iPush {t d : Node} {a : Michelson.Value Node}
    (ht : parseTy false t = some u) (hd : readData ctx u d = some a)
    (hbodies : typeBodies ctx u d = true) (hadmits : ctx.admits u = true) :
    typeInstr ctx (iPush t d) s = some (.typed (u :: s)) := by
  rw [iPush, prim, typeInstr, ht]
  change (if (readData ctx u d).isSome && typeBodies ctx u d then grow ctx u s else none) = _
  rw [hd, hbodies]
  exact grow_of_admits hadmits

/-- The message of a failed assertion is a string of the protocol. -/
theorem types_iAssertSomeMsg {msg : String} (hmsg : printableAscii msg = true) :
    Types ctx (iAssertSomeMsg (iPushString msg)) (.option u :: s) (u :: s) := by
  have hdata : readData ctx (.comparable .string) (.string msg) = some (.string msg) := by
    rw [readData, if_pos hmsg]
  have hpush : typeInstr ctx (iPushString msg) s = some (.typed (.comparable .string :: s)) :=
    typeInstr_iPush rfl hdata rfl (Context.admits_of_size_eq_one rfl)
  have hnone : typeSeq ctx [seq [iPushString msg, iFailwith]] s = some .failed := by
    change typeSeq ctx [iPushString msg, iFailwith] s = _
    rw [typeSeq, hpush]
    · rfl
    · intro hnil
      cases hnil
  -- one branch never returns, the other one leaves the stack alone
  change (do
    let a ← typeSeq ctx [seq [iPushString msg, iFailwith]] s
    let b ← typeSeq ctx [seq []] (u :: s)
    merge a b) = _
  rw [hnone]
  rfl

end Types

end Ligo.CompilerProgram
