import Ligo.Compiler.Program
import Ligo.MiniC.Plain

/-!
# Compiling literals

A literal becomes a Micheline datum, which the interpreter reads at the type of the
literal. What it reads is what the literal denotes in the reference semantics, when a
function token is the code of the function (`readData_translateValue`).
-/

namespace Ligo.CompilerProgram

open MiniC Michelson
open Fuel (bind_eq_ok map_eq_ok map₂_eq_ok)

variable (ctx : Michelson.Context)

/-- The code of a function, if it compiles. -/
def compileQuote (f : AnonFunction) : Option Node :=
  (translateFunction ctx f).toOption

variable {ctx}

theorem compileQuote_eq_some {f : AnonFunction} {n : Node} :
    compileQuote ctx f = some n ↔ translateFunction ctx f = .ok n := by
  unfold compileQuote
  cases translateFunction ctx f <;> simp [Except.toOption]

/-- The code of a function is a sequence that starts with a comment, so it is not the
datum of any other type. -/
theorem translateFunction_shape {f : AnonFunction} {n : Node}
    (h : translateFunction ctx f = .ok n) :
    ∃ code, n = seq [seq (iComment "function result" :: code)] := by
  obtain ⟨b, i, o, r⟩ := f
  obtain ⟨body, hbody, rfl⟩ := map_eq_ok.1 h
  obtain ⟨p, -, hbody⟩ := bind_eq_ok.1 hbody
  obtain ⟨_, -, hbody⟩ := bind_eq_ok.1 hbody
  obtain ⟨_, -, hbody⟩ := bind_eq_ok.1 hbody
  obtain ⟨_, -, hbody⟩ := bind_eq_ok.1 hbody
  cases hbody
  exact ⟨[p.1], rfl⟩

/-- No literal is written as an entry of a map. -/
theorem translateValue_ne_dElt {v : MiniC.Value} {n : Node} (h : translateValue ctx v = .ok n)
    (children : List Node) (annots : List String) : n ≠ .prim .dElt children annots := by
  rintro rfl
  cases v with
  | dBool b => cases b <;> cases h
  | dFunction f =>
    have hf : translateFunction ctx f = .ok _ := h
    obtain ⟨code, h⟩ := translateFunction_shape hf
    cases h
  | dPair a b =>
    obtain ⟨_, _, -, -, h⟩ := map₂_eq_ok.1 h
    cases h
  | dLeft a | dRight a | dSome a | dMap a | dList a =>
    obtain ⟨_, -, h⟩ := bind_eq_ok.1 h
    cases h
  | _ => cases h

/-- An entry of a map is a datum of no type. -/
theorem readData_dElt (τ : Ty) (children : List Node) (annots : List String) :
    readData ctx τ (.prim .dElt children annots) = none := by
  cases τ with
  | comparable c => cases c <;> rfl
  | _ => rfl

theorem readEntries_eq_none {k : ComparableTy} {t : Ty} {n : Node} {ns : List Node}
    (h : ∀ children annots, n ≠ .prim .dElt children annots) :
    readEntries ctx k t (n :: ns) = none := by
  unfold readEntries
  split
  · rename_i heq
    cases heq
  · rename_i heq
    cases heq
    exact absurd rfl (h _ _)
  · rfl

theorem readItems_translateValues {t : Ty} {lst : List MiniC.Value} {ns : List Node}
    (h : translateValues ctx lst = .ok ns) (hs : QuoteShapedAll t lst)
    (ih : ∀ v ∈ lst, ∀ {n : Node} {τ : Ty}, translateValue ctx v = .ok n →
      QuoteShaped τ v → readData ctx τ n = denote ctx (compileQuote ctx) τ v) :
    readItems ctx t ns = denoteList ctx (compileQuote ctx) t lst := by
  induction lst generalizing ns with
  | nil =>
    cases h
    rfl
  | cons v lst ihlst =>
    obtain ⟨n, ns, hn, hns, rfl⟩ := map₂_eq_ok.1 h
    have hv := ih v (by simp) hn hs.1
    have hlst := ihlst hns hs.2 fun v hv => ih v (List.mem_cons_of_mem _ hv)
    simp only [readItems, denoteList, hv, hlst]

theorem readEntries_translateEntries {k : ComparableTy} {t : Ty}
    {lst : List (MiniC.Value × MiniC.Value)} {ns : List Node}
    (h : translateEntries ctx lst = .ok ns) (hs : QuoteShapedEntries t lst)
    (ih : ∀ x ∈ lst, (∀ {n : Node} {τ : Ty}, translateValue ctx x.1 = .ok n →
        QuoteShaped τ x.1 → readData ctx τ n = denote ctx (compileQuote ctx) τ x.1) ∧
      ∀ {n : Node} {τ : Ty}, translateValue ctx x.2 = .ok n →
        QuoteShaped τ x.2 → readData ctx τ n = denote ctx (compileQuote ctx) τ x.2) :
    readEntries ctx k t ns = denoteEntries ctx (compileQuote ctx) k t lst := by
  induction lst generalizing ns with
  | nil =>
    cases h
    rfl
  | cons x lst ihlst =>
    obtain ⟨a, b⟩ := x
    obtain ⟨na, ha, h⟩ := bind_eq_ok.1 h
    obtain ⟨nb, ns, hb, hns, rfl⟩ := map₂_eq_ok.1 h
    obtain ⟨iha, ihb⟩ := ih (a, b) (by simp)
    -- a key has a comparable type, at which no function is read
    have hva := iha ha (quoteShaped_comparable k a)
    have hvb := ihb hb hs.1
    have hlst := ihlst hns hs.2 fun x hx => ih x (List.mem_cons_of_mem _ hx)
    simp only [prim, readEntries, denoteEntries, hva, hvb, hlst]
    -- only atoms are keys
    cases denote ctx (compileQuote ctx) (.comparable k) a with
    | none => rfl
    | some v => cases v <;> rfl

/-- What a literal is read as is what it denotes. -/
theorem readData_translateValue {v : MiniC.Value} {n : Node} {τ : Ty}
    (h : translateValue ctx v = .ok n) (hs : QuoteShaped τ v) :
    readData ctx τ n = denote ctx (compileQuote ctx) τ v := by
  -- by cases on the form of the value and then on the type; at a type of another form
  -- neither side gives a value
  induction v using MiniC.Value.ind generalizing n τ with
  | unit | nat z | tez z | int z | string s | bytes b | none =>
    cases h
    cases τ with
    | comparable c => cases c <;> rfl
    | lambda => exact hs.elim
    | _ => rfl
  | bool b =>
    cases h
    cases τ with
    | comparable c => cases c <;> cases b <;> rfl
    | lambda => exact hs.elim
    | _ => cases b <;> rfl
  | pair a b iha ihb =>
    obtain ⟨na, nb, ha, hb, rfl⟩ := map₂_eq_ok.1 h
    cases τ with
    | comparable c => cases c <;> rfl
    | lambda => exact hs.elim
    | pair s t => simp only [prim, readData, denote, iha ha hs.1, ihb hb hs.2]
    | _ => rfl
  | left a ih | right a ih | some a ih =>
    obtain ⟨na, ha, rfl⟩ := map_eq_ok.1 h
    cases τ with
    | comparable c => cases c <;> rfl
    | lambda => exact hs.elim
    | or s t => first | rfl | simp only [prim, readData, denote, ih ha hs]
    | option t => first | rfl | simp only [prim, readData, denote, ih ha hs]
    | _ => rfl
  | map lst ih =>
    obtain ⟨ns, hns, rfl⟩ := map_eq_ok.1 h
    cases τ with
    | comparable c => cases c <;> rfl
    | lambda => exact hs.elim
    | map k t =>
      simp only [seq, readData, denote, readEntries_translateEntries hns hs ih]
    | list t =>
      cases lst with
      | nil =>
        cases hns
        rfl
      | cons x lst =>
        obtain ⟨_, -, hns⟩ := bind_eq_ok.1 hns
        obtain ⟨_, _, -, -, rfl⟩ := map₂_eq_ok.1 hns
        simp [seq, prim, readData, readItems, readData_dElt, denote]
    | _ => rfl
  | list lst ih =>
    obtain ⟨ns, hns, rfl⟩ := map_eq_ok.1 h
    cases τ with
    | comparable c => cases c <;> rfl
    | lambda => exact hs.elim
    | list t => simp only [seq, readData, denote, readItems_translateValues hns hs ih]
    | map k t =>
      cases lst with
      | nil =>
        cases hns
        rfl
      | cons v lst =>
        obtain ⟨_, _, hv, -, rfl⟩ := map₂_eq_ok.1 hns
        simp [seq, readData, readEntries_eq_none (translateValue_ne_dElt hv), denote]
    | _ => rfl
  | function f =>
    have hq : compileQuote ctx f = some n := compileQuote_eq_some.2 h
    obtain ⟨code, rfl⟩ := translateFunction_shape h
    cases τ with
    | lambda s t =>
      -- a lambda is read as its code, which is what `compileQuote` gives
      simp only [denote, hq]
      rfl
    | list => exact hs.elim
    | comparable c => cases c <;> rfl
    | _ => rfl
  | operation op => cases h

end Ligo.CompilerProgram
