import Ligo.Compiler.Predicate
import Ligo.Operators.Typer
import Ligo.Transpiler.Types

/-!
# The tables of the operators agree

The typer of a constant and its predicate are written in two tables. For arguments that
the typer accepts and that have Michelson types, the predicate fits them, except for the
three constants whose typers ask for less than their code does: `PACK` has no code,
`CONTRACT` takes any argument, and `MAP_REMOVE` puts a `NONE` of the type of the values,
which `parse_ty` rejects where an operation stands in the parameter of a contract.

Besides, the code of four constants makes an option, which the protocol rejects when it is
larger than the limit on the size of types. Where there is no limit, the typing rules alone
decide.
-/

namespace Ligo.Operators

open AstTyped
open CompilerProgram
open Fuel (bind_eq_ok map_eq_ok map₂_eq_ok)
open Transpiler (translateType)
open Michelson (Ty StackTy Types)

variable {ctx : Michelson.Context}

/-- The Michelson type of a source type, through the type `τ` of the intermediate
language. -/
def Denotes (t : TypeValue) (τ : MiniC.TypeValue) (u : Ty) : Prop :=
  translateType t = .ok τ ∧ CompilerType.Ty.type_ τ = .ok u

/-- Arguments of the given types, as the transpiler hands them to the generator, and the
types they have on the stack. -/
inductive Arguments : List TypeValue → List MiniC.Expression → StackTy → Prop
  | nil : Arguments [] [] []
  | cons {a args e lst u s} (ha : Denotes a e.typeValue u) (hargs : Arguments args lst s) :
    Arguments (a :: args) (e :: lst) (u :: s)

variable (ctx) in
/-- The predicate of `name` takes the arguments to a value of the translation of `t`. -/
def TablesAgree (name : String) (lst : List MiniC.Expression) (bef : StackTy)
    (t : TypeValue) : Prop :=
  ∃ τ u, Denotes t τ u ∧ Fits ctx name τ lst bef u

/-! ### Translated types -/

/-- What holds of the leaves that succeed and is preserved at the nodes holds of the result
of a fold. -/
theorem foldNe_induct {α : Type} {P : α → Prop} {node : α → α → Result α}
    (hnode : ∀ a b c, P a → P b → node a b = .ok c → P c) {rs : List (Result α)}
    (hrs : ∀ r ∈ rs, ∀ a, r = .ok a → P a) {a : α}
    (h : Transpiler.foldNe id node (AppendTree.ofList rs) = .ok a) : P a := by
  cases ht : AppendTree.ofList rs with
  | none =>
    rw [ht] at h
    cases h
  | some t =>
    rw [ht] at h
    have hleaves : ∀ r ∈ t.toList, ∀ a, r = .ok a → P a := by
      rw [AppendTree.toList_ofList ht]
      exact hrs
    clear ht
    induction t generalizing a with
    | leaf r => exact hleaves r (by simp [AppendTree.toList]) a h
    | node l r size full ihl ihr =>
      obtain ⟨a₁, h₁, h⟩ := bind_eq_ok.1 h
      obtain ⟨a₂, h₂, h⟩ := bind_eq_ok.1 h
      have hl := ihl h₁ fun x hx => hleaves x (List.mem_append_left _ hx)
      have hr := ihr h₂ fun x hx => hleaves x (List.mem_append_right _ hx)
      exact hnode a₁ a₂ a hl hr h

/-- A property of the types of the intermediate language that its type formers preserve
holds of every translated type: translated types have no closures. -/
theorem translateType_induct {P : MiniC.TypeValue → Prop} (base : ∀ b, P (.tBase b))
    (pair : ∀ a b, P a → P b → P (.tPair a b)) (or : ∀ a b, P a → P b → P (.tOr a b))
    (function : ∀ a b, P a → P b → P (.tFunction a b))
    (map : ∀ k v, P k → P v → P (.tMap k v)) (list : ∀ t, P t → P (.tList t))
    (contract : ∀ t, P t → P (.tContract t)) (option : ∀ t, P t → P (.tOption t))
    {t : TypeValue} {τ : MiniC.TypeValue} (h : translateType t = .ok τ) : P τ := by
  induction t using TypeValue.ind generalizing τ with
  | tuple lst ih =>
    rw [translateType, Transpiler.translateTypes_eq] at h
    refine foldNe_induct (fun a b c ha hb hc => ?_) (fun r hr a ha => ?_) h
    · cases hc
      exact pair a b ha hb
    · obtain ⟨t, ht, rfl⟩ := List.mem_map.1 hr
      exact ih t ht ha
  | sum m ih =>
    rw [translateType, Transpiler.translateFieldTypes_eq] at h
    refine foldNe_induct (fun a b c ha hb hc => ?_) (fun r hr a ha => ?_) h
    · cases hc
      exact or a b ha hb
    · obtain ⟨x, hx, rfl⟩ := List.mem_map.1 hr
      exact ih x hx ha
  | record m ih =>
    rw [translateType, Transpiler.translateFieldTypes_eq] at h
    refine foldNe_induct (fun a b c ha hb hc => ?_) (fun r hr a ha => ?_) h
    · cases hc
      exact pair a b ha hb
    · obtain ⟨x, hx, rfl⟩ := List.mem_map.1 hr
      exact ih x hx ha
  | constant name lst ih =>
    rw [translateType, Transpiler.translateTypes_eq] at h
    have hlst : ∀ r ∈ lst.map translateType, ∀ a, r = .ok a → P a := by
      intro r hr a ha
      obtain ⟨t, ht, rfl⟩ := List.mem_map.1 hr
      exact ih t ht ha
    unfold Transpiler.translateTypeConstant at h
    split at h
    -- the base types, and after them the types with arguments
    iterate 8
      cases h
      exact base _
    · rename_i x heq
      obtain ⟨a, ha, rfl⟩ := map_eq_ok.1 h
      exact contract a (hlst x (by rw [heq]; simp) a ha)
    · rename_i k v heq
      obtain ⟨a, b, ha, hb, rfl⟩ := map₂_eq_ok.1 h
      exact map a b (hlst k (by rw [heq]; simp) a ha) (hlst v (by rw [heq]; simp) b hb)
    · rename_i x heq
      obtain ⟨a, ha, rfl⟩ := map_eq_ok.1 h
      exact list a (hlst x (by rw [heq]; simp) a ha)
    · rename_i x heq
      obtain ⟨a, ha, rfl⟩ := map_eq_ok.1 h
      exact option a (hlst x (by rw [heq]; simp) a ha)
    · cases h
  | function a b iha ihb =>
    obtain ⟨α, β, hα, hβ, rfl⟩ := map₂_eq_ok.1 h
    exact function α β (iha hα) (ihb hβ)

/-- A translated type with a Michelson type has a Micheline form. -/
theorem type_of_denotes {t : TypeValue} {τ : MiniC.TypeValue} {u : Ty}
    (h : Denotes t τ u) : ∃ n, CompilerType.type_ τ = .ok n := by
  have hall : ∀ u, CompilerType.Ty.type_ τ = .ok u → ∃ n, CompilerType.type_ τ = .ok n := by
    refine translateType_induct (P := fun τ => ∀ u, CompilerType.Ty.type_ τ = .ok u →
      ∃ n, CompilerType.type_ τ = .ok n) ?_ ?_ ?_ ?_ ?_ ?_ ?_ ?_ h.1
    · exact fun b _ _ => ⟨_, rfl⟩
    iterate 3
      intro a b iha ihb u hu
      obtain ⟨t₁, ht₁, hu⟩ := bind_eq_ok.1 hu
      obtain ⟨t₂, ht₂, hu⟩ := bind_eq_ok.1 hu
      obtain ⟨n₁, hn₁⟩ := iha t₁ ht₁
      obtain ⟨n₂, hn₂⟩ := ihb t₂ ht₂
      exact ⟨_, by rw [CompilerType.type_, hn₁, hn₂]; rfl⟩
    · intro k v ihk ihv u hu
      obtain ⟨c, hc, hu⟩ := bind_eq_ok.1 hu
      obtain ⟨t₂, ht₂, hu⟩ := bind_eq_ok.1 hu
      obtain ⟨n₁, hn₁⟩ := ihk _ (CompilerType.type_of_comparableType hc)
      obtain ⟨n₂, hn₂⟩ := ihv t₂ ht₂
      exact ⟨_, by rw [CompilerType.type_, hn₁, hn₂]; rfl⟩
    iterate 3
      intro a ih u hu
      obtain ⟨t₁, ht₁, hu⟩ := bind_eq_ok.1 hu
      obtain ⟨n₁, hn₁⟩ := ih t₁ ht₁
      exact ⟨_, by rw [CompilerType.type_, hn₁]; rfl⟩
  exact hall u h.2

/-- A type of the source has one type of the intermediate language and one type on the
stack. -/
theorem Denotes.unique {t : TypeValue} {τ τ' : MiniC.TypeValue} {u u' : Ty}
    (h : Denotes t τ u) (h' : Denotes t τ' u') : τ' = τ ∧ u' = u := by
  obtain ⟨ht, hu⟩ := h
  obtain ⟨ht', hu'⟩ := h'
  rw [ht] at ht'
  cases ht'
  rw [hu] at hu'
  cases hu'
  exact ⟨rfl, rfl⟩

/-- A base type denotes one Michelson type. -/
theorem Denotes.of_base {t : TypeValue} {b : MiniC.TypeBase} {τ : MiniC.TypeValue} {u : Ty}
    (h : Denotes t τ u) (ht : translateType t = .ok (.tBase b)) :
    u = CompilerType.Ty.baseType b :=
  (Denotes.unique ⟨ht, rfl⟩ h).2

/-- The types of maps, lists and contracts denote theirs part by part. -/
theorem Denotes.of_tMap {k v : TypeValue} {τ : MiniC.TypeValue} {u : Ty}
    (h : Denotes (tMap k v) τ u) :
    ∃ κ ω c w, τ = .tMap κ ω ∧ u = .map c w ∧ Denotes k κ (.comparable c) ∧ Denotes v ω w := by
  obtain ⟨ht, hu⟩ := h
  obtain ⟨κ, ω, hk, hv, rfl⟩ := map₂_eq_ok.1 ht
  obtain ⟨c, w, hc, hw, rfl⟩ := map₂_eq_ok.1 hu
  exact ⟨κ, ω, c, w, rfl, rfl, ⟨hk, CompilerType.type_of_comparableType hc⟩, hv, hw⟩

theorem Denotes.of_tList {a : TypeValue} {τ : MiniC.TypeValue} {u : Ty}
    (h : Denotes (tList a) τ u) : ∃ w, u = .list w := by
  obtain ⟨ht, hu⟩ := h
  obtain ⟨α, ha, rfl⟩ := map_eq_ok.1 ht
  obtain ⟨w, hw, rfl⟩ := map_eq_ok.1 hu
  exact ⟨w, rfl⟩

theorem Denotes.of_tContract {a : TypeValue} {τ : MiniC.TypeValue} {u : Ty}
    (h : Denotes (tContract a) τ u) :
    ∃ α w, τ = .tContract α ∧ u = .contract w ∧ Denotes a α w := by
  obtain ⟨ht, hu⟩ := h
  obtain ⟨α, ha, rfl⟩ := map_eq_ok.1 ht
  obtain ⟨w, hw, rfl⟩ := map_eq_ok.1 hu
  exact ⟨α, w, rfl, rfl, ha, hw⟩

/-- An option of what denotes a type. -/
theorem Denotes.tOption {a : TypeValue} {α : MiniC.TypeValue} {w : Ty} (h : Denotes a α w) :
    Denotes (tOption a) (.tOption α) (.option w) := by
  obtain ⟨ha, hw⟩ := h
  refine ⟨?_, ?_⟩
  · change (do
      let o' ← translateType a
      return MiniC.TypeValue.tOption o') = _
    rw [ha]
    rfl
  · rw [CompilerType.Ty.type_, hw]
    rfl

theorem Denotes.tContract {a : TypeValue} {α : MiniC.TypeValue} {w : Ty} (h : Denotes a α w) :
    Denotes (tContract a) (.tContract α) (.contract w) := by
  obtain ⟨ha, hw⟩ := h
  refine ⟨?_, ?_⟩
  · change (do
      let x' ← translateType a
      return MiniC.TypeValue.tContract x') = _
    rw [ha]
    rfl
  · rw [CompilerType.Ty.type_, hw]
    rfl

/-- Byte sequences have no translation. -/
theorem not_denotes_tBytes {τ : MiniC.TypeValue} {u : Ty} : ¬ Denotes tBytes τ u := by
  rintro ⟨ht, _⟩
  cases ht

/-! ### The arguments -/

section Arguments

variable {a b c t : TypeValue} {name : String} {lst : List MiniC.Expression} {bef : StackTy}

/-- The arguments of a constant by their number. -/
theorem Arguments.of_nil (h : Arguments [] lst bef) : lst = [] ∧ bef = [] := by
  cases h
  exact ⟨rfl, rfl⟩

theorem Arguments.of_one (h : Arguments [a] lst bef) :
    ∃ e u, lst = [e] ∧ bef = [u] ∧ Denotes a e.typeValue u := by
  cases h with
  | cons ha h =>
    obtain ⟨rfl, rfl⟩ := h.of_nil
    exact ⟨_, _, rfl, rfl, ha⟩

theorem Arguments.of_two (h : Arguments [a, b] lst bef) :
    ∃ e₁ e₂ u v, lst = [e₁, e₂] ∧ bef = [u, v] ∧ Denotes a e₁.typeValue u ∧
      Denotes b e₂.typeValue v := by
  cases h with
  | cons ha h =>
    obtain ⟨e₂, v, rfl, rfl, hb⟩ := h.of_one
    exact ⟨_, e₂, _, v, rfl, rfl, ha, hb⟩

theorem Arguments.of_three (h : Arguments [a, b, c] lst bef) :
    ∃ e₁ e₂ e₃ u v w, lst = [e₁, e₂, e₃] ∧ bef = [u, v, w] ∧ Denotes a e₁.typeValue u ∧
      Denotes b e₂.typeValue v ∧ Denotes c e₃.typeValue w := by
  cases h with
  | cons ha h =>
    obtain ⟨e₂, e₃, v, w, rfl, rfl, hb, hc⟩ := h.of_two
    exact ⟨_, e₂, e₃, _, v, w, rfl, rfl, ha, hb, hc⟩

/-- Only addresses have the type of addresses on the stack. -/
theorem type_eq_address {τ : MiniC.TypeValue}
    (h : CompilerType.Ty.type_ τ = .ok (.comparable .address)) : τ = .tBase .address := by
  cases τ with
  | tBase b => cases b <;> first | rfl | cases h
  | tPair | tOr | tFunction | tMap | tDeepClosure =>
    obtain ⟨_, _, h⟩ := bind_eq_ok.1 h
    obtain ⟨_, _, h⟩ := bind_eq_ok.1 h
    first | cases h | (obtain ⟨_, _, h⟩ := bind_eq_ok.1 h; cases h)
  | tList | tContract | tOption =>
    obtain ⟨_, _, h⟩ := bind_eq_ok.1 h
    cases h

/-- The only type that is translated to the base type of addresses is their own. -/
theorem Arguments.address_iff (h : Arguments [a] lst bef) :
    bef = [.comparable .address] ↔ [a].map translateType = [.ok (.tBase .address)] := by
  obtain ⟨e, u, rfl, rfl, ht, hu⟩ := h.of_one
  rw [List.map_singleton, List.singleton_inj, List.singleton_inj, ht, Except.ok.injEq]
  constructor
  · rintro rfl
    exact type_eq_address hu
  · intro he
    rw [he] at hu
    cases hu
    rfl

end Arguments

/-! ### The constants of the fixed table -/

section Table

variable {a b c t : TypeValue} {name : String} {p : Predicate} {code : Michelson.Node}
  {lst : List MiniC.Expression} {bef : StackTy} {τ : MiniC.TypeValue} {u : Ty}

/-- A constant without arguments. -/
theorem agree_constant (h : Arguments [] lst bef) (hp : predicates name = some (.constant code))
    (ht : Denotes t τ u) (hcode : ∀ rest, Types ctx code rest (u :: rest)) :
    TablesAgree ctx name lst bef t := by
  obtain ⟨rfl, rfl⟩ := h.of_nil
  exact ⟨τ, u, ht, fits_of_predicates hp rfl hcode⟩

/-- A constant with one argument of the base type `α`. -/
theorem agree_unary {α : MiniC.TypeBase} (h : Arguments [a] lst bef)
    (ha : translateType a = .ok (.tBase α)) (hp : predicates name = some (.unary code))
    (ht : Denotes t τ u)
    (hcode : ∀ rest, Types ctx code (CompilerType.Ty.baseType α :: rest) (u :: rest)) :
    TablesAgree ctx name lst bef t := by
  obtain ⟨e, v, rfl, rfl, hv⟩ := h.of_one
  obtain rfl := hv.of_base ha
  exact ⟨τ, u, ht, fits_of_predicates hp rfl hcode⟩

/-- A constant with two arguments of base types. -/
theorem agree_binary {α β : MiniC.TypeBase} (h : Arguments [a, b] lst bef)
    (ha : translateType a = .ok (.tBase α)) (hb : translateType b = .ok (.tBase β))
    (hp : predicates name = some (.binary code)) (ht : Denotes t τ u)
    (hcode : ∀ rest, Types ctx code
      (CompilerType.Ty.baseType α :: CompilerType.Ty.baseType β :: rest) (u :: rest)) :
    TablesAgree ctx name lst bef t := by
  obtain ⟨e₁, e₂, v, w, rfl, rfl, hv, hw⟩ := h.of_two
  obtain rfl := hv.of_base ha
  obtain rfl := hw.of_base hb
  exact ⟨τ, u, ht, fits_of_predicates hp rfl hcode⟩

end Table

/-! ### Typing the code of the table -/

section Code

open Michelson

variable {k : ComparableTy} {a v : Ty} {rest : StackTy}

/-- A comparison is `COMPARE` and a test of its result. -/
theorem types_compare {p : Prim} {c : ComparableTy}
    (hp : p ∈ [Prim.iEq, .iNeq, .iLt, .iLe, .iGt, .iGe]) :
    Types ctx (seq [prim .iCompare [], prim p []]) (.comparable c :: .comparable c :: rest)
      (.comparable .bool :: rest) := by
  have hcompare : Types ctx (prim .iCompare []) (.comparable c :: .comparable c :: rest)
      (.comparable .int :: rest) := by
    change (if c = c then Michelson.grow ctx (.comparable .int) rest else .none) = _
    rw [if_pos rfl]
    exact grow_of_admits (Context.admits_of_size_eq_one rfl)
  refine hcompare.cons (Types.singleton ?_)
  simp only [List.mem_cons, List.not_mem_nil, or_false] at hp
  obtain rfl | rfl | rfl | rfl | rfl | rfl := hp <;> rfl

/-- `SOME` asks only for an option within the limit. -/
theorem types_iSome_iff {t : Ty} :
    Types ctx iSome (t :: rest) (.option t :: rest) ↔ ctx.admits (.option t) = true :=
  ⟨fun h => (grow_eq_some.1 h).1, grow_of_admits⟩

theorem types_iUnit : Types ctx (prim .iUnit []) rest (.unit :: rest) :=
  grow_of_admits (Context.admits_of_size_eq_one rfl)

/-- The instructions on maps ask for a key of the key type. -/
theorem types_iUpdate :
    Types ctx (prim .iUpdate []) (.comparable k :: .option v :: .map k v :: rest)
      (.map k v :: rest) := by
  change (if Ty.comparable k = .comparable k ∧ v = v then Michelson.ret (.map k v) rest else .none) = _
  rw [if_pos ⟨rfl, rfl⟩]
  rfl

theorem types_iGet :
    Types ctx (prim .iGet []) (.comparable k :: .map k v :: rest) (.option v :: rest) := by
  change (if Ty.comparable k = .comparable k then Michelson.ret (.option v) rest else .none) = _
  rw [if_pos rfl]
  rfl

/-- A transfer asks for a contract of the type of its parameter. -/
theorem types_iTransferTokens :
    Types ctx (prim .iTransferTokens []) (a :: .comparable .mutez :: .contract a :: rest)
      (.operation :: rest) := by
  change (if a = a then Michelson.grow ctx .operation rest else .none) = _
  rw [if_pos rfl]
  exact grow_of_admits (Context.admits_of_size_eq_one rfl)

/-- The quotient or the remainder of two numbers. -/
theorem types_ediv {c d q r : ComparableTy} {msg : String} {p : Prim} {t : Ty}
    (hmsg : printableAscii msg = true) (hdiv : ComparableTy.ediv c d = .some (q, r))
    (hp : Types ctx (prim p []) (.pair (.comparable q) (.comparable r) :: rest) (t :: rest)) :
    Types ctx (seq [prim .iEdiv [], iAssertSomeMsg (iPushString msg), prim p []])
      (.comparable c :: .comparable d :: rest) (t :: rest) := by
  have hediv : Types ctx (prim .iEdiv []) (.comparable c :: .comparable d :: rest)
      (.option (.pair (.comparable q) (.comparable r)) :: rest) := by
    change ((ComparableTy.ediv c d).bind fun x =>
      Michelson.ret (.option (.pair (.comparable x.1) (.comparable x.2))) rest) = _
    rw [hdiv]
    rfl
  exact hediv.cons ((types_iAssertSomeMsg hmsg).cons hp.singleton)

end Code

/-! ### The constants that depend on types -/

section Polymorphic

variable {k v p : TypeValue} {e : Option TypeValue} {lst : List MiniC.Expression}
  {bef : StackTy}

/-- `SOME` fits when the option is within the limit. -/
theorem agree_some_iff (h : Arguments [v] lst bef) :
    TablesAgree ctx "SOME" lst bef (tOption v) ↔
      ∀ τ u, Denotes v τ u → ctx.admits (.option u) = true := by
  obtain ⟨e₁, u₁, rfl, rfl, h₁⟩ := h.of_one
  constructor
  · rintro ⟨τ, u, ht, q, hq, -, hcode⟩ τ' u' hv
    obtain ⟨-, rfl⟩ := h₁.unique hv
    obtain ⟨-, rfl⟩ := h₁.tOption.unique ht
    cases hq
    exact types_iSome_iff.1 (hcode [])
  · intro hwithin
    exact ⟨_, _, h₁.tOption, fits_of_predicates rfl rfl fun rest =>
      types_iSome_iff.2 (hwithin _ _ h₁)⟩

/-- `MAP_UPDATE` fits when the option of a value is within the limit. -/
theorem agree_mapUpdate_iff (h : Arguments [k, v, tMap k v] lst bef) :
    TablesAgree ctx "MAP_UPDATE" lst bef (tMap k v) ↔
      ∀ τ u, Denotes v τ u → ctx.admits (.option u) = true := by
  obtain ⟨e₁, e₂, e₃, u₁, u₂, u₃, rfl, rfl, h₁, h₂, h₃⟩ := h.of_three
  obtain ⟨κ, ω, c, w, hτ, rfl, hk, hv⟩ := h₃.of_tMap
  obtain ⟨-, rfl⟩ := hk.unique h₁
  obtain ⟨-, rfl⟩ := hv.unique h₂
  -- the new value is wrapped below the key
  constructor
  · rintro ⟨τ, u, ht, q, hq, -, hcode⟩ τ' u' hv'
    obtain ⟨-, rfl⟩ := hv.unique hv'
    cases hq
    obtain ⟨s₁, hdip, -⟩ := Michelson.Types.of_cons (hcode [])
    obtain ⟨_, s₀, s', hbef, -, hsome⟩ := Michelson.Types.of_dip hdip
    cases hbef
    exact (Michelson.grow_eq_some.1 hsome).1
  · intro hwithin
    refine ⟨_, _, h₃, fits_of_predicates rfl rfl fun rest => ?_⟩
    have hsome : Types ctx (Michelson.dip Michelson.iSome)
        (.comparable c :: u₂ :: .map c u₂ :: rest)
        (.comparable c :: .option u₂ :: .map c u₂ :: rest) :=
      Michelson.Types.dip (types_iSome_iff.2 (hwithin _ _ hv))
    exact hsome.cons types_iUpdate.singleton

/-- The entries of the two tables agree for looking up a key that has to be there. -/
theorem agree_getForce (h : Arguments [k, tMap k v] lst bef) :
    TablesAgree ctx "MAP_GET_FORCE" lst bef v := by
  obtain ⟨e₁, e₂, u₁, u₂, rfl, rfl, h₁, h₂⟩ := h.of_two
  obtain ⟨κ, ω, c, w, hτ, rfl, hk, hv⟩ := h₂.of_tMap
  obtain ⟨-, rfl⟩ := hk.unique h₁
  refine ⟨_, _, hv, fits_of_predicates rfl rfl fun rest => ?_⟩
  exact types_iGet.cons (types_iAssertSomeMsg (by decide)).singleton

/-- They agree for calls of a contract. -/
theorem agree_call (h : Arguments [p, tTez, tContract p] lst bef) :
    TablesAgree ctx "CALL" lst bef tOperation := by
  obtain ⟨e₁, e₂, e₃, u₁, u₂, u₃, rfl, rfl, h₁, h₂, h₃⟩ := h.of_three
  obtain ⟨α, w, hτ, rfl, hp⟩ := h₃.of_tContract
  obtain ⟨-, rfl⟩ := hp.unique h₁
  obtain rfl := h₂.of_base rfl
  exact ⟨.tBase .operation, _, ⟨rfl, rfl⟩, fits_of_predicates rfl rfl fun rest =>
    types_iTransferTokens⟩

/-- `MAP_REMOVE` fits when the type of the values may stand in an option, and this option is
within the limit. -/
theorem agree_mapRemove_iff (h : Arguments [k, tMap k v] lst bef) :
    TablesAgree ctx "MAP_REMOVE" lst bef (tMap k v) ↔
      ∀ τ u, Denotes v τ u → u.allowed true = true ∧ ctx.admits (.option u) = true := by
  obtain ⟨e₁, e₂, u₁, u₂, rfl, rfl, h₁, h₂⟩ := h.of_two
  obtain ⟨κ, ω, c, w, hτ, rfl, hk, hv⟩ := h₂.of_tMap
  obtain ⟨-, rfl⟩ := hk.unique h₁
  obtain ⟨n, hn⟩ := type_of_denotes hv
  have hpred : ∀ τ, getPredicate "MAP_REMOVE" τ [e₁, e₂] =
      .ok (.binary (Michelson.seq [Michelson.dip (Michelson.iNone n),
        Michelson.prim .iUpdate []])) := by
    intro τ
    unfold getPredicate
    change ((MiniC.getTMap e₂.typeValue).map Prod.snd >>= fun v => CompilerType.type_ v >>=
      fun vTy => _) = _
    rw [hτ]
    change (CompilerType.type_ ω >>= fun vTy => _) = _
    rw [hn]
    rfl
  constructor
  · rintro ⟨τ, u, ht, q, hq, hlen, hcode⟩ τ' w' hv'
    rw [hpred τ] at hq
    cases hq
    obtain ⟨-, rfl⟩ := hv.unique hv'
    obtain ⟨s₁, hdip, -⟩ := Michelson.Types.of_cons (hcode [])
    obtain ⟨-, s₀, s', -, -, hnone⟩ := Michelson.Types.of_dip hdip
    exact allowed_of_iNone hv.2 hn hnone
  · intro h
    obtain ⟨ha, hwithin⟩ := h ω w hv
    refine ⟨_, _, h₂, _, hpred _, rfl, fun rest => ?_⟩
    have hnone : Types ctx (Michelson.dip (Michelson.iNone n))
        (.comparable c :: .map c w :: rest)
        (.comparable c :: .option w :: .map c w :: rest) :=
      Michelson.Types.dip (types_iNone hv.2 hn ha hwithin)
    exact hnone.cons types_iUpdate.singleton

/-- `CONTRACT` fits when its argument is an address, the parameter may stand in a contract
and the option of the contract is within the limit. -/
theorem agree_contract_iff {a : TypeValue} (h : Arguments [a] lst bef) :
    TablesAgree ctx "CONTRACT" lst bef (tContract p) ↔
      bef = [.comparable .address] ∧ ∃ τ u, Denotes p τ u ∧ u.allowed false = true ∧
        ctx.admits (.option (.contract u)) = true := by
  obtain ⟨e₁, u₁, rfl, rfl, h₁⟩ := h.of_one
  have hpred : ∀ α n, CompilerType.type_ α = .ok n →
      getPredicate "CONTRACT" (.tContract α) [e₁] =
        .ok (.unary (Michelson.seq [Michelson.prim .iContract [n],
          Michelson.iAssertSomeMsg (Michelson.iPushString "bad address for get_contract")])) := by
    intro α n hn
    unfold getPredicate
    change (CompilerType.type_ α >>= fun rTy => _) = _
    rw [hn]
    rfl
  constructor
  · rintro ⟨τ, u, ht, q, hq, hlen, hcode⟩
    obtain ⟨α, w, rfl, rfl, hp⟩ := ht.of_tContract
    obtain ⟨n, hn⟩ := type_of_denotes hp
    rw [hpred α n hn] at hq
    cases hq
    obtain ⟨s₁, hcontract, -⟩ := Michelson.Types.of_cons (hcode [])
    obtain ⟨rfl, ha⟩ := allowed_of_iContract hp.2 hn hcontract
    exact ⟨rfl, α, w, hp, ha⟩
  · rintro ⟨hbef, α, w, hp, ha, hwithin⟩
    obtain ⟨n, hn⟩ := type_of_denotes hp
    cases hbef
    refine ⟨_, _, hp.tContract, _, hpred α n hn, rfl, fun rest => ?_⟩
    exact (types_iContract hp.2 hn ha hwithin).cons (types_iAssertSomeMsg (by decide)).singleton

/-- The comparable types, except for byte sequences, are base types that can be compared
on the stack. -/
theorem comparable_cases {a : TypeValue} (ha : Typer.Comparable a) :
    a = tBytes ∨ ∃ b c, translateType a = .ok (.tBase b) ∧
      CompilerType.Ty.baseType b = .comparable c := by
  simp only [Typer.Comparable, List.mem_cons, List.not_mem_nil, or_false] at ha
  obtain rfl | rfl | rfl | rfl | rfl | rfl := ha
  · exact .inr ⟨.int, .int, rfl, rfl⟩
  · exact .inr ⟨.nat, .nat, rfl, rfl⟩
  · exact .inr ⟨.tez, .mutez, rfl, rfl⟩
  · exact .inr ⟨.string, .string, rfl, rfl⟩
  · exact .inl rfl
  · exact .inr ⟨.address, .address, rfl, rfl⟩

/-- They agree for comparisons at comparable types. -/
theorem agree_compare {s : String} {a : TypeValue}
    (hs : s ∈ ["EQ", "NEQ", "LT", "GT", "LE", "GE"]) (ha : Typer.Comparable a)
    (h : Arguments [a, a] lst bef) : TablesAgree ctx s lst bef tBool := by
  obtain rfl | ⟨b, c, hb, hc⟩ := comparable_cases ha
  · obtain ⟨e₁, e₂, u, v, rfl, rfl, h₁, h₂⟩ := h.of_two
    exact absurd h₁ not_denotes_tBytes
  · have hp : ∃ p, p ∈ [Michelson.Prim.iEq, .iNeq, .iLt, .iLe, .iGt, .iGe] ∧
        predicates s = .some (.binary (Michelson.seq
          [Michelson.prim .iCompare [], Michelson.prim p []])) := by
      simp only [List.mem_cons, List.not_mem_nil, or_false] at hs
      obtain rfl | rfl | rfl | rfl | rfl | rfl := hs
      · exact ⟨.iEq, by simp, rfl⟩
      · exact ⟨.iNeq, by simp, rfl⟩
      · exact ⟨.iLt, by simp, rfl⟩
      · exact ⟨.iGt, by simp, rfl⟩
      · exact ⟨.iLe, by simp, rfl⟩
      · exact ⟨.iGe, by simp, rfl⟩
    obtain ⟨p, hmem, hp⟩ := hp
    refine agree_binary h hb hb hp ⟨rfl, rfl⟩ fun rest => ?_
    rw [hc]
    exact types_compare hmem

end Polymorphic

/-! ### Agreement -/

variable (ctx) in
/-- What the typers leave unchecked: that the constant has code, that the values of a map
may stand in an option where `MAP_REMOVE` puts one, and for `CONTRACT` that the argument
is an address and the annotated parameter may stand in a contract; and that the options that
the code makes are within the limit. -/
def Covered (name : String) (args : List TypeValue) (e : Option TypeValue) : Prop :=
  name ≠ "PACK" ∧
  (name = "SOME" → ∀ a, args = [a] →
    ∀ τ u, Denotes a τ u → ctx.admits (.option u) = true) ∧
  (name = "MAP_UPDATE" → ∀ k v, args = [k, v, tMap k v] →
    ∀ τ u, Denotes v τ u → ctx.admits (.option u) = true) ∧
  (name = "MAP_REMOVE" → ∀ k v, args = [k, tMap k v] →
    ∀ τ u, Denotes v τ u → u.allowed true = true ∧ ctx.admits (.option u) = true) ∧
  (name = "CONTRACT" → args.map translateType = [.ok (.tBase .address)] ∧
    ∀ p, e = some (tContract p) → ∃ τ u, Denotes p τ u ∧ u.allowed false = true ∧
      ctx.admits (.option (.contract u)) = true)

section Main

variable {name name' : String} {args : List TypeValue} {e : Option TypeValue}
  {t : TypeValue} {lst : List MiniC.Expression} {bef : StackTy}

/-- Only five constants have a condition. -/
theorem covered_of_ne (hpack : name ≠ "PACK") (hsome : name ≠ "SOME")
    (hupdate : name ≠ "MAP_UPDATE") (hremove : name ≠ "MAP_REMOVE")
    (hcontract : name ≠ "CONTRACT") : Covered ctx name args e :=
  ⟨hpack, fun h => absurd h hsome, fun h => absurd h hupdate, fun h => absurd h hremove,
    fun h => absurd h hcontract⟩

/-- Every other constant of the table. -/
theorem agree_of_accepts (ha : Typer.Accepts name args e t) (h : Arguments args lst bef)
    (hnone : name ≠ "NONE") (hpack : name ≠ "PACK") (hsome : name ≠ "SOME")
    (hupdate : name ≠ "MAP_UPDATE") (hremove : name ≠ "MAP_REMOVE")
    (hcontract : name ≠ "CONTRACT") : TablesAgree ctx name lst bef t := by
  cases ha with
  | addNat | addInt | addNatInt | addIntNat | timesNat | timesInt | timesNatTez
  | timesTezNat => exact agree_binary h rfl rfl rfl ⟨rfl, rfl⟩ fun _ => rfl
  | divNat | divInt =>
    refine agree_binary h rfl rfl rfl ⟨rfl, rfl⟩ fun _ => ?_
    exact types_ediv (by decide) rfl rfl
  | mod ha hb =>
    simp only [List.mem_cons, List.not_mem_nil, or_false] at ha hb
    obtain rfl | rfl := ha <;> obtain rfl | rfl := hb <;>
      exact agree_binary h rfl rfl rfl ⟨rfl, rfl⟩ fun _ => types_ediv (by decide) rfl rfl
  | sub ha =>
    simp only [List.mem_cons, List.not_mem_nil, or_false] at ha
    obtain rfl | rfl := ha <;> exact agree_binary h rfl rfl rfl ⟨rfl, rfl⟩ fun _ => rfl
  | none => exact absurd rfl hnone
  | some => exact absurd rfl hsome
  | compare hs ha =>
    exact agree_compare hs ha h
  | logical hs =>
    simp only [List.mem_cons, List.not_mem_nil, or_false] at hs
    obtain rfl | rfl := hs <;> exact agree_binary h rfl rfl rfl ⟨rfl, rfl⟩ fun _ => rfl
  | mapRemove => exact absurd rfl hremove
  | mapUpdate => exact absurd rfl hupdate
  | int | abs => exact agree_unary h rfl rfl ⟨rfl, rfl⟩ fun _ => rfl
  | sizeMap =>
    obtain ⟨e₁, u, rfl, rfl, h₁⟩ := h.of_one
    obtain ⟨κ, ω, c, w, hτ, rfl, -, -⟩ := h₁.of_tMap
    exact ⟨_, _, ⟨rfl, rfl⟩, fits_of_predicates rfl rfl fun _ => rfl⟩
  | sizeList =>
    obtain ⟨e₁, u, rfl, rfl, h₁⟩ := h.of_one
    obtain ⟨w, rfl⟩ := h₁.of_tList
    exact ⟨_, _, ⟨rfl, rfl⟩, fits_of_predicates rfl rfl fun _ => rfl⟩
  | getForce => exact agree_getForce h
  | pack => exact absurd rfl hpack
  | unpack | hash =>
    obtain ⟨e₁, u, rfl, rfl, h₁⟩ := h.of_one
    exact absurd h₁ not_denotes_tBytes
  | unit => exact agree_constant h rfl ⟨rfl, rfl⟩ fun _ => types_iUnit
  | sender | source | amount => exact agree_constant h rfl ⟨rfl, rfl⟩ fun _ => rfl
  | call => exact agree_call h
  | contract => exact absurd rfl hcontract

/-- `PACK` has neither code nor a type for its result. -/
theorem not_agree_pack {a : TypeValue} : ¬ TablesAgree ctx "PACK" lst bef a := by
  rintro ⟨τ, u, ht, p, hp, -, -⟩
  cases hp

/-- The tables of the typer and of the code generator agree on the constant exactly when
nothing that the typer leaves unchecked fails. -/
theorem tables_agree_iff (hname : name ≠ "NONE")
    (ht : Typer.typeConstant name args e = .ok (name', t)) (h : Arguments args lst bef) :
    TablesAgree ctx name' lst bef t ↔ Covered ctx name args e := by
  obtain ⟨rfl, ha⟩ := Typer.accepts_of_typeConstant ht
  by_cases hpack : name' = "PACK"
  · subst hpack
    exact ⟨fun h => absurd h not_agree_pack, fun h => absurd rfl h.1⟩
  by_cases hsome : name' = "SOME"
  · obtain ⟨a, rfl, rfl⟩ := ha.of_some hsome
    subst hsome
    rw [agree_some_iff h]
    constructor
    · intro hwithin
      refine ⟨hpack, fun _ a' heq => ?_, by simp, by simp, by simp⟩
      cases heq
      exact hwithin
    · rintro ⟨-, hwithin, -⟩
      exact hwithin rfl a rfl
  by_cases hupdate : name' = "MAP_UPDATE"
  · obtain ⟨k, v, rfl, rfl⟩ := ha.of_mapUpdate hupdate
    subst hupdate
    rw [agree_mapUpdate_iff h]
    constructor
    · intro hwithin
      refine ⟨hpack, by simp, fun _ k' v' heq => ?_, by simp, by simp⟩
      cases heq
      exact hwithin
    · rintro ⟨-, -, hwithin, -⟩
      exact hwithin rfl k v rfl
  by_cases hremove : name' = "MAP_REMOVE"
  · obtain ⟨k, v, rfl, rfl⟩ := ha.of_mapRemove hremove
    subst hremove
    rw [agree_mapRemove_iff h]
    constructor
    · intro hv
      refine ⟨hpack, by simp, by simp, fun _ k' v' heq => ?_, by simp⟩
      cases heq
      exact hv
    · rintro ⟨-, -, -, hv, -⟩
      exact hv rfl k v rfl
  by_cases hcontract : name' = "CONTRACT"
  · obtain ⟨a, p, rfl, rfl, rfl⟩ := ha.of_contract hcontract
    subst hcontract
    rw [agree_contract_iff h, h.address_iff]
    constructor
    · rintro ⟨haddress, hp⟩
      refine ⟨hpack, by simp, by simp, by simp, fun _ => ⟨haddress, fun p' heq => ?_⟩⟩
      cases heq
      exact hp
    · rintro ⟨-, -, -, -, hc⟩
      obtain ⟨haddress, hp⟩ := hc rfl
      exact ⟨haddress, hp p rfl⟩
  -- no other constant depends on anything that is unchecked
  exact ⟨fun _ => covered_of_ne hpack hsome hupdate hremove hcontract,
    fun _ => agree_of_accepts ha h hname hpack hsome hupdate hremove hcontract⟩

/-- Adding an integer and a natural number. -/
theorem tables_agree_add :
    TablesAgree Michelson.Context.empty "ADD"
      [.mk (.eVariable "x") (.tBase .int), .mk (.eVariable "n") (.tBase .nat)]
      [.comparable .int, .comparable .nat] tInt :=
  (@tables_agree_iff _ "ADD" "ADD" [tInt, tNat] .none tInt _ _ (by decide) rfl
    (.cons ⟨rfl, rfl⟩ (.cons ⟨rfl, rfl⟩ .nil))).2
    (covered_of_ne (by decide) (by decide) (by decide) (by decide) (by decide))

/-- The typer accepts the contract at an integer, whose code does not typecheck. -/
theorem contract_of_int :
    Typer.typeConstant "CONTRACT" [tInt] (.some (tContract tUnit)) =
        .ok ("CONTRACT", tContract tUnit) ∧
      Arguments [tInt] [.mk (.eVariable "x") (.tBase .int)] [.comparable .int] ∧
      ¬ TablesAgree Michelson.Context.empty "CONTRACT"
        [.mk (.eVariable "x") (.tBase .int)] [.comparable .int] (tContract tUnit) := by
  have hargs : Arguments [tInt] [.mk (.eVariable "x") (.tBase .int)] [.comparable .int] :=
    .cons ⟨rfl, rfl⟩ .nil
  refine ⟨rfl, hargs, fun h => ?_⟩
  obtain ⟨haddress, -⟩ := (agree_contract_iff hargs).1 h
  cases haddress

end Main

end Ligo.Operators
