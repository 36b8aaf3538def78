import Ligo.AstTyped.TypeEquality
import Ligo.Library.Fuel
import Ligo.Typer.Expression
import Mathlib.Data.List.Perm.Subperm

/-!
# Exhaustive matches

The clauses of a match on variants name the constructors of one sum. The type checker tests
that every constructor of the sum has a clause and that there are as many clauses as
constructors (`assertCases_eq_ok`). The constructors of a sum are distinct, so together the
tests leave exactly the permutations of the constructors (`typeMatchVariant_iff`).
-/

namespace Ligo.Typer

open AstTyped
open Fuel (bind_eq_ok map_eq_ok map₂_eq_ok)

variable {e : Environment}

/-! ### The sum of a match -/

/-- A constructor resolves to a sum that has it. -/
theorem getConstructor_eq_some {k : String} {c V : TypeValue}
    (h : Environment.getConstructor k e = some (c, V)) :
    ∃ types ∈ e.typesHd :: e.typesTl, ∃ x ∈ types, x.2 = V ∧
      ∃ m, V = .tSum m ∧ m.lookup k = some c := by
  obtain ⟨types, htypes, h⟩ := List.exists_of_findSome?_eq_some h
  obtain ⟨⟨name, t⟩, hx, h⟩ := List.exists_of_findSome?_eq_some h
  cases t with
  | tSum m =>
    obtain ⟨c', hc, heq⟩ := Option.map_eq_some_iff.1 h
    cases heq
    exact ⟨types, htypes, _, hx, rfl, m, rfl, hc⟩
  | _ => cases h

/-- A constructor of a clause resolves to the sum of the clauses before. -/
theorem variantStep_some {V : TypeValue} {n : String} {o : Option TypeValue} :
    variantStep e (some V) n = .ok o ↔
      (∃ c, Environment.getConstructor n e = some (c, V)) ∧ o = some V := by
  rw [variantStep, bind_eq_ok]
  constructor
  · rintro ⟨⟨c, V'⟩, hc, h⟩
    change (assertTypeValueEq V' V >>= fun _ => Except.ok (some V')) = .ok o at h
    obtain ⟨_, hcheck, hret⟩ := bind_eq_ok.1 h
    obtain rfl := assertTypeValueEq_iff.1 hcheck
    cases hret
    exact ⟨⟨c, traceOption_eq_ok.1 hc⟩, rfl⟩
  · rintro ⟨⟨c, hc⟩, rfl⟩
    refine ⟨(c, V), traceOption_eq_ok.2 hc, bind_eq_ok.2 ⟨(), ?_, rfl⟩⟩
    exact assertTypeValueEq_iff.2 rfl

/-- After the first clause, all clauses have to belong to the sum of the first. -/
theorem foldlM_variantStep_some {V : TypeValue} {names : List String} {o : Option TypeValue} :
    names.foldlM (variantStep e) (some V) = .ok o ↔
      (∀ n ∈ names, ∃ c, Environment.getConstructor n e = some (c, V)) ∧ o = some V := by
  induction names with
  | nil => simp [pure, Except.pure, eq_comm]
  | cons n names ih =>
    rw [List.foldlM_cons, bind_eq_ok, List.forall_mem_cons]
    constructor
    · rintro ⟨o', hstep, h⟩
      obtain ⟨hn, rfl⟩ := variantStep_some.1 hstep
      obtain ⟨hnames, rfl⟩ := ih.1 h
      exact ⟨⟨hn, hnames⟩, rfl⟩
    · rintro ⟨⟨hn, hnames⟩, rfl⟩
      exact ⟨some V, variantStep_some.2 ⟨hn, rfl⟩, ih.2 ⟨hnames, rfl⟩⟩

/-- The sum of the clauses is the one that all their constructors resolve to. -/
theorem foldlM_variantStep_iff {V : TypeValue} {names : List String} :
    names.foldlM (variantStep e) none = .ok (some V) ↔
      names ≠ [] ∧ ∀ n ∈ names, ∃ c, Environment.getConstructor n e = some (c, V) := by
  cases names with
  | nil => simp [pure, Except.pure]
  | cons n names =>
    rw [List.foldlM_cons, bind_eq_ok, List.forall_mem_cons]
    constructor
    · rintro ⟨o', hstep, h⟩
      obtain ⟨⟨c, V'⟩, hc, hstep⟩ := bind_eq_ok.1 hstep
      cases hstep
      obtain ⟨hnames, heq⟩ := foldlM_variantStep_some.1 h
      cases heq
      exact ⟨List.cons_ne_nil _ _, ⟨c, traceOption_eq_ok.1 hc⟩, hnames⟩
    · rintro ⟨-, ⟨c, hc⟩, hnames⟩
      refine ⟨some V, ?_, foldlM_variantStep_some.2 ⟨hnames, rfl⟩⟩
      exact bind_eq_ok.2 ⟨(c, V), traceOption_eq_ok.2 hc, rfl⟩

/-! ### The tests of the clauses -/

/-- A check on a list passes when it passes on each element. -/
theorem forM_eq_ok {α : Type} {f : α → Result Unit} {l : List α} :
    l.forM f = .ok () ↔ ∀ x ∈ l, f x = .ok () := by
  induction l with
  | nil => simp [pure, Except.pure]
  | cons x l ih =>
    change (f x >>= fun _ => l.forM f) = .ok () ↔ _
    rw [assert_bind_eq_ok, ih, List.forall_mem_cons]

/-- The clauses are compared with the constructors by their names and by their number. -/
theorem assertCases_eq_ok {V : TypeValue} {names : List String} :
    assertCases V names = .ok () ↔
      ∃ m, V = .tSum m ∧ (∀ x ∈ m, x.1 ∈ names) ∧ m.length = names.length := by
  rw [assertCases, bind_eq_ok]
  constructor
  -- the checks are that every constructor has a clause and that there are no more clauses
  · rintro ⟨m, hm, h⟩
    cases V <;> cases hm
    rw [assert_bind_eq_ok, trace_eq_ok, forM_eq_ok, traceStrong_eq_ok, assertTrue_eq_ok,
      beq_iff_eq] at h
    obtain ⟨hcases, hlen⟩ := h
    refine ⟨m, rfl, fun x hx => ?_, hlen⟩
    have hcase := hcases x (List.mem_reverse.2 hx)
    exact List.contains_iff_mem.1 (assertTrue_eq_ok.1 hcase)
  · rintro ⟨m, rfl, hcases, hlen⟩
    refine ⟨m, rfl, ?_⟩
    rw [assert_bind_eq_ok, trace_eq_ok, forM_eq_ok, traceStrong_eq_ok, assertTrue_eq_ok,
      beq_iff_eq]
    refine ⟨fun x hx => assertTrue_eq_ok.2 ?_, hlen⟩
    exact List.contains_iff_mem.2 (hcases x (List.mem_reverse.1 hx))

/-- Names that cover a list without repetitions, and are as many, are a permutation of it. -/
theorem perm_iff {α : Type} {names keys : List α} (hkeys : keys.Nodup) :
    names.Perm keys ↔ (∀ k ∈ keys, k ∈ names) ∧ keys.length = names.length := by
  constructor
  · intro h
    exact ⟨fun k hk => h.mem_iff.2 hk, h.length_eq.symm⟩
  · rintro ⟨hsub, hlen⟩
    have hsubperm := List.subperm_of_subset hkeys hsub
    exact (hsubperm.perm_of_length_le hlen.ge).symm

/-! ### Environments of finite maps -/

/-- The sums of the declared types are finite maps, and so are their parts. -/
def Environment.Wf (e : Environment) : Prop :=
  ∀ types ∈ e.typesHd :: e.typesTl, ∀ x ∈ types, x.2.Wf

/-- An environment whose declared types are well formed. -/
abbrev WfEnvironment := {e : Environment // e.Wf}

/-- Ascending keys are different. -/
theorem nodup_keys {κ α : Type} [LinearOrder κ] {m : List (κ × α)} (h : SortedMap.Sorted m) :
    (m.map Prod.fst).Nodup := by
  rw [List.Nodup, List.pairwise_map]
  exact h.imp ne_of_lt

/-- The sum of a constructor has no constructor twice. -/
theorem nodup_getConstructor (he : e.Wf) {k : String} {c : TypeValue}
    {m : List (String × TypeValue)} (h : Environment.getConstructor k e = some (c, .tSum m)) :
    (m.map Prod.fst).Nodup := by
  obtain ⟨types, htypes, x, hx, hsum, -⟩ := getConstructor_eq_some h
  have hwf := he types htypes x hx
  rw [hsum] at hwf
  cases hwf with
  | sum hm _ => exact nodup_keys hm

theorem evaluateTypes_wf {lst : List AstSimplified.TypeExpression} {lst' : List TypeValue}
    (ih : ∀ te ∈ lst, ∀ t, evaluateType e te = .ok t → t.Wf) (h : evaluateTypes e lst = .ok lst') :
    ∀ t ∈ lst', t.Wf := by
  induction lst generalizing lst' with
  | nil =>
    cases h
    simp
  | cons te lst ihl =>
    rw [evaluateTypes] at h
    obtain ⟨t, rest, ht, hrest, rfl⟩ := map₂_eq_ok.1 h
    have hrec := ihl (fun te hte => ih te (List.mem_cons_of_mem _ hte)) hrest
    exact List.forall_mem_cons.2 ⟨ih te List.mem_cons_self t ht, hrec⟩

theorem evaluateTypeMap_wf {m : List (String × AstSimplified.TypeExpression)}
    {m' : List (String × TypeValue)} (ih : ∀ x ∈ m, ∀ t, evaluateType e x.2 = .ok t → t.Wf)
    (h : evaluateTypeMap e m = .ok m') :
    m'.map Prod.fst = m.map Prod.fst ∧ ∀ x ∈ m', x.2.Wf := by
  induction m generalizing m' with
  | nil =>
    cases h
    simp
  | cons x m ihm =>
    obtain ⟨k, te⟩ := x
    rw [evaluateTypeMap] at h
    obtain ⟨t, rest, ht, hrest, rfl⟩ := map₂_eq_ok.1 h
    obtain ⟨hkeys, hwf⟩ := ihm (fun x hx => ih x (List.mem_cons_of_mem _ hx)) hrest
    refine ⟨by rw [List.map_cons, List.map_cons, hkeys], ?_⟩
    exact List.forall_mem_cons.2 ⟨ih _ List.mem_cons_self t ht, hwf⟩

/-- Whether a list of bindings is a map depends on its keys. -/
theorem sorted_congr {κ α β : Type} [LinearOrder κ] {m : List (κ × α)} {m' : List (κ × β)}
    (h : m'.map Prod.fst = m.map Prod.fst) (hm : SortedMap.Sorted m) : SortedMap.Sorted m' := by
  have hkeys : (m.map Prod.fst).Pairwise (· < ·) := List.pairwise_map.2 hm
  rw [← h] at hkeys
  exact List.pairwise_map.1 hkeys

/-- What a type expression evaluates to is well formed; by induction on the expression. -/
theorem evaluateType_wf (he : e.Wf) {te : AstSimplified.TypeExpression} (hte : te.Wf)
    {t : TypeValue} (h : evaluateType e te = .ok t) : t.Wf := by
  -- along the expression; only a variable is looked up in the environment
  induction hte generalizing t with
  | tuple _ ih =>
    rw [evaluateType] at h
    obtain ⟨lst', hlst', rfl⟩ := map_eq_ok.1 h
    exact .tuple (evaluateTypes_wf (fun te hte _ => ih te hte) hlst')
  | constant _ ih =>
    rw [evaluateType] at h
    obtain ⟨lst', hlst', rfl⟩ := map_eq_ok.1 h
    exact .constant (evaluateTypes_wf (fun te hte _ => ih te hte) hlst')
  | sum hm _ ih =>
    rw [evaluateType] at h
    obtain ⟨m', hm', rfl⟩ := map_eq_ok.1 h
    obtain ⟨hkeys, hwf⟩ := evaluateTypeMap_wf (fun x hx _ => ih x hx) hm'
    exact .sum (sorted_congr hkeys hm) hwf
  | record hm _ ih =>
    rw [evaluateType] at h
    obtain ⟨m', hm', rfl⟩ := map_eq_ok.1 h
    obtain ⟨hkeys, hwf⟩ := evaluateTypeMap_wf (fun x hx _ => ih x hx) hm'
    exact .record (sorted_congr hkeys hm) hwf
  | function _ _ iha ihb =>
    rw [evaluateType] at h
    obtain ⟨a', b', ha', hb', rfl⟩ := map₂_eq_ok.1 h
    exact .function (iha ha') (ihb hb')
  | @variable' name =>
    rw [evaluateType] at h
    obtain ⟨types, htypes, h⟩ := List.exists_of_findSome?_eq_some (traceOption_eq_ok.1 h)
    obtain ⟨l₁, l₂, rfl, -⟩ := List.lookup_eq_some_iff.1 h
    exact he _ htypes (name, t) (by simp)

/-- The environments of a program are well formed. -/
theorem typeDeclaration_wf (he : e.Wf) {d : AstSimplified.Declaration}
    (hd : ∀ name te, d = .declarationType name te → te.Wf) {e' : Environment}
    {d' : Option Declaration} (h : typeDeclaration e d = .ok (e', d')) : e'.Wf := by
  cases d with
  | declarationType name te =>
    obtain ⟨tv, htv, h⟩ := bind_eq_ok.1 h
    cases h
    have htv := evaluateType_wf he (hd name te rfl) htv
    intro types htypes x hx
    -- the new binding is the first one of its scope
    obtain rfl | htypes := List.mem_cons.1 htypes
    · obtain rfl | hx := List.mem_cons.1 hx
      · exact htv
      · exact he _ List.mem_cons_self x hx
    · exact he _ (List.mem_cons_of_mem _ htypes) x hx
  | declarationConstant name tvOpt expr =>
    obtain ⟨tvOpt', -, h⟩ := bind_eq_ok.1 h
    obtain ⟨ae', -, h⟩ := bind_eq_ok.1 h
    cases h
    obtain ⟨⟨hd, tl⟩, types, typesTl⟩ := e
    exact he

/-! ### The check -/

/-- What the check of the clauses returns is the sum that all of them belong to, with as many
constructors as there are clauses. -/
theorem matchedVariant_iff {names : List String} {V : TypeValue} :
    matchedVariant e names = .ok V ↔
      names ≠ [] ∧ (∀ n ∈ names, ∃ c, Environment.getConstructor n e = some (c, V)) ∧
        ∃ m, V = .tSum m ∧ (∀ x ∈ m, x.1 ∈ names) ∧ m.length = names.length := by
  rw [← assertCases_eq_ok, ← and_assoc, ← foldlM_variantStep_iff, matchedVariant, bind_eq_ok]
  constructor
  · rintro ⟨o, ho, h⟩
    obtain ⟨V', hV', h⟩ := bind_eq_ok.1 h
    obtain ⟨_, hcases, h⟩ := bind_eq_ok.1 h
    cases h
    obtain rfl := traceOption_eq_ok.1 hV'
    exact ⟨trace_eq_ok.1 ho, hcases⟩
  · rintro ⟨ho, hcases⟩
    refine ⟨some V, trace_eq_ok.2 ho, ?_⟩
    change (assertCases V names >>= fun _ => .ok V) = .ok V
    rw [hcases]
    rfl

/-- The names of the clauses are the constructors of the sum that all of them resolve to,
each of them once. -/
def Exhaustive (e : Environment) (names : List String) : Prop :=
  ∃ m, (∀ n ∈ names, ∃ c, Environment.getConstructor n e = some (c, .tSum m)) ∧
    names.Perm (m.map Prod.fst)

/-- The bodies of the clauses have types, each where the parameter of its constructor is
bound. -/
def BodiesTyped (e : Environment) (lst : List ((String × String) × AstSimplified.Expression)) :
    Prop :=
  ∀ x ∈ lst, ∀ c V, Environment.getConstructor x.1.1 e = some (c, V) →
    ∃ b', typeExpression (Environment.addEzBinder x.1.2 c e) none x.2 = .ok b'

/-- The bodies are typed one after the other. -/
theorem typeCases_isOk {lst : List ((String × String) × AstSimplified.Expression)}
    (hbodies : BodiesTyped e lst)
    (hnames : ∀ x ∈ lst, ∃ c V, Environment.getConstructor x.1.1 e = some (c, V)) :
    ∃ lst', typeCases e lst = .ok lst' := by
  induction lst with
  | nil => exact ⟨[], rfl⟩
  | cons x lst ih =>
    obtain ⟨⟨n, name⟩, b⟩ := x
    obtain ⟨c, V, hc⟩ := hnames _ List.mem_cons_self
    obtain ⟨b', hb'⟩ := hbodies _ List.mem_cons_self c V hc
    obtain ⟨lst', hlst'⟩ := ih (fun x hx => hbodies x (List.mem_cons_of_mem _ hx))
      fun x hx => hnames x (List.mem_cons_of_mem _ hx)
    refine ⟨((n, name), b') :: lst', ?_⟩
    rw [typeCases]
    refine bind_eq_ok.2 ⟨(c, V), traceOption_eq_ok.2 hc, ?_⟩
    exact map₂_eq_ok.2 ⟨b', lst', hb', hlst', rfl⟩

/-- The check accepts the exhaustive lists of clauses. -/
theorem typeMatchVariant_isOk_iff (he : e.Wf)
    {lst : List ((String × String) × AstSimplified.Expression)} (hne : lst ≠ [])
    (hbodies : BodiesTyped e lst) :
    (∃ m', typeMatchVariant e (lst.map fun x => x.1.1) (typeCases e lst) = .ok m') ↔
      Exhaustive e (lst.map fun x => x.1.1) := by
  constructor
  · rintro ⟨m', h⟩
    obtain ⟨V, hV, -⟩ := bind_eq_ok.1 h
    obtain ⟨-, hnames, m, rfl, hcases, hlen⟩ := matchedVariant_iff.1 hV
    refine ⟨m, hnames, ?_⟩
    obtain ⟨x, lst, rfl⟩ := List.exists_cons_of_ne_nil hne
    obtain ⟨c, hc⟩ := hnames _ List.mem_cons_self
    -- distinct constructors that all have clauses, and as many clauses, are a permutation
    rw [perm_iff (nodup_getConstructor he hc)]
    refine ⟨fun k hk => ?_, (List.length_map _).trans hlen⟩
    obtain ⟨y, hy, rfl⟩ := List.mem_map.1 hk
    exact hcases y hy
  · rintro ⟨m, hnames, hperm⟩
    -- the other way round, the first clause finds the variant, which passes the checks
    have hmatched : matchedVariant e (lst.map fun x => x.1.1) = .ok (.tSum m) := by
      refine matchedVariant_iff.2 ⟨by simpa using hne, hnames, m, rfl, fun x hx => ?_, ?_⟩
      · exact hperm.mem_iff.2 (List.mem_map_of_mem hx)
      · rw [hperm.length_eq, List.length_map]
    obtain ⟨lst', hlst'⟩ := typeCases_isOk hbodies fun x hx => by
      obtain ⟨c, hc⟩ := hnames x.1.1 (List.mem_map.2 ⟨x, hx, rfl⟩)
      exact ⟨c, _, hc⟩
    exact ⟨_, map₂_eq_ok.2 ⟨_, lst', hmatched, hlst', rfl⟩⟩

end Ligo.Typer
