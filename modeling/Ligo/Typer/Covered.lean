import Ligo.AstTyped.Clauses
import Ligo.Typer.Accessor
import Ligo.Typer.Exhaustive

/-!
# The matches of a typed program

What the type checker returns has a clause for every constructor in each of its matches on
variants (`typeExpression_covered`). A match is accepted with all its clauses
(`matchedVariant_iff`), and the type checker builds no other match on variants.
-/

namespace Ligo.Typer

open AstTyped
open Fuel (bind_eq_ok map_eq_ok map₂_eq_ok)

variable {e : Environment} {tvOpt : Option TypeValue}

/-- What the type checker makes of the expression has all its clauses. -/
def ChecksCovered (expr : AstSimplified.Expression) : Prop :=
  ∀ (e : Environment) (tvOpt : Option TypeValue) (ae : AnnotatedExpression),
    typeExpression e tvOpt expr = .ok ae → Covered ae

/-- Annotating an expression changes nothing within it. -/
theorem annotate_covered {expr : Expression} {tv : TypeValue} {ae : AnnotatedExpression}
    (h : annotate e tvOpt expr tv = .ok ae) (here : expr.CoversHere)
    (parts : ∀ p ∈ expr.parts, Covered p) : Covered ae := by
  obtain ⟨-, rfl⟩ := annotate_iff.1 h
  exact .mk here parts

/-- A match is covered when its clauses are and all parts of it. -/
theorem branches_covered {ex' ae : AnnotatedExpression} {m' : AstTyped.MatchingExpr}
    (h : branches e tvOpt ex' m' = .ok ae) (hex : Covered ex') (here : m'.Covers)
    (bodies : ∀ b ∈ m'.bodies, Covered b) : Covered ae := by
  obtain ⟨_, -, h⟩ := bind_eq_ok.1 h
  obtain ⟨_, -, h⟩ := bind_eq_ok.1 h
  exact annotate_covered h here (List.forall_mem_cons.2 ⟨hex, bodies⟩)

/-- Lists, fields and entries, by the hypotheses of the induction on the source. -/
theorem typeAll_covered {lst : List AstSimplified.Expression} {lst' : List AnnotatedExpression}
    (ih : ∀ expr ∈ lst, ChecksCovered expr) (h : typeAll e lst = .ok lst') :
    ∀ ae ∈ lst', Covered ae := by
  induction lst generalizing lst' with
  | nil =>
    cases h
    simp
  | cons expr lst ihl =>
    rw [typeAll] at h
    obtain ⟨ae, rest, hae, hrest, rfl⟩ := map₂_eq_ok.1 h
    have hrec := ihl (fun expr hexpr => ih expr (List.mem_cons_of_mem _ hexpr)) hrest
    exact List.forall_mem_cons.2 ⟨ih _ List.mem_cons_self _ _ _ hae, hrec⟩

theorem typeFields_covered {m : List (String × AstSimplified.Expression)}
    {m' : List (String × AnnotatedExpression)} (ih : ∀ x ∈ m, ChecksCovered x.2)
    (h : typeFields e m = .ok m') : ∀ x ∈ m', Covered x.2 := by
  induction m generalizing m' with
  | nil =>
    cases h
    simp
  | cons x m ihm =>
    obtain ⟨k, expr⟩ := x
    rw [typeFields] at h
    obtain ⟨ae, rest, hae, hrest, rfl⟩ := map₂_eq_ok.1 h
    have hrec := ihm (fun x hx => ih x (List.mem_cons_of_mem _ hx)) hrest
    exact List.forall_mem_cons.2 ⟨ih _ List.mem_cons_self _ _ _ hae, hrec⟩

theorem typeEntries_covered {m : List (AstSimplified.Expression × AstSimplified.Expression)}
    {m' : List (AnnotatedExpression × AnnotatedExpression)}
    (ih : ∀ x ∈ m, ChecksCovered x.1 ∧ ChecksCovered x.2) (h : typeEntries e m = .ok m') :
    ∀ x ∈ m', Covered x.1 ∧ Covered x.2 := by
  induction m generalizing m' with
  | nil =>
    cases h
    simp
  | cons x m ihm =>
    obtain ⟨k, v⟩ := x
    rw [typeEntries] at h
    obtain ⟨k', hk, h⟩ := bind_eq_ok.1 h
    obtain ⟨v', rest, hv, hrest, rfl⟩ := map₂_eq_ok.1 h
    obtain ⟨ihk, ihv⟩ := ih _ List.mem_cons_self
    have hrec := ihm (fun x hx => ih x (List.mem_cons_of_mem _ hx)) hrest
    exact List.forall_mem_cons.2 ⟨⟨ihk _ _ _ hk, ihv _ _ _ hv⟩, hrec⟩

/-- The clauses keep their names. -/
theorem typeCases_covered {lst : List ((String × String) × AstSimplified.Expression)}
    {lst' : List ((String × String) × AnnotatedExpression)} (ih : ∀ x ∈ lst, ChecksCovered x.2)
    (h : typeCases e lst = .ok lst') :
    lst'.map Prod.fst = lst.map Prod.fst ∧ ∀ x ∈ lst', Covered x.2 := by
  induction lst generalizing lst' with
  | nil =>
    cases h
    simp
  | cons x lst ihl =>
    obtain ⟨c, b⟩ := x
    rw [typeCases] at h
    obtain ⟨⟨t, V⟩, -, h⟩ := bind_eq_ok.1 h
    obtain ⟨b', rest, hb, hrest, rfl⟩ := map₂_eq_ok.1 h
    obtain ⟨hnames, hcovered⟩ := ihl (fun x hx => ih x (List.mem_cons_of_mem _ hx)) hrest
    refine ⟨by rw [List.map_cons, List.map_cons, hnames], ?_⟩
    exact List.forall_mem_cons.2 ⟨ih _ List.mem_cons_self _ _ _ hb, hcovered⟩

/-- Every step of an accessor keeps what it reads from. -/
theorem typeAccess_covered {prev ae : AnnotatedExpression} {a : AstSimplified.Access}
    (hprev : Covered prev) (ih : ∀ key, a = .map key → ChecksCovered key)
    (h : typeAccess e tvOpt prev a = .ok ae) : Covered ae := by
  cases a with
  | tuple index =>
    obtain ⟨_, -, h⟩ := bind_eq_ok.1 h
    obtain ⟨_, -, h⟩ := bind_eq_ok.1 h
    exact annotate_covered h trivial (List.forall_mem_singleton.2 hprev)
  | record property =>
    obtain ⟨_, -, h⟩ := bind_eq_ok.1 h
    obtain ⟨_, -, h⟩ := bind_eq_ok.1 h
    exact annotate_covered h trivial (List.forall_mem_singleton.2 hprev)
  | map key =>
    -- the key is typed before its type is compared with the one of the map
    rw [typeAccess] at h
    obtain ⟨key', hkey, h⟩ := bind_eq_ok.1 h
    obtain ⟨⟨k, v⟩, -, h⟩ := bind_eq_ok.1 h
    obtain ⟨_, -, h⟩ := bind_eq_ok.1 h
    have hkey' := ih key rfl _ _ _ hkey
    exact annotate_covered h trivial (by simpa [Expression.parts] using ⟨hprev, hkey'⟩)

/-- The keys that a path looks up are covered. -/
theorem typeAccesses_covered {prev ae : AnnotatedExpression} {path : List AstSimplified.Access}
    (hprev : Covered prev) (ih : ∀ key, AstSimplified.Access.map key ∈ path → ChecksCovered key)
    (h : typeAccesses e tvOpt prev path = .ok ae) : Covered ae := by
  induction path generalizing prev with
  | nil =>
    cases h
    exact hprev
  | cons a path ihp =>
    rw [typeAccesses] at h
    obtain ⟨ae', hstep, h⟩ := bind_eq_ok.1 h
    refine ihp (typeAccess_covered hprev ?_ hstep) ?_ h
    · rintro key rfl
      exact ih key List.mem_cons_self
    · intro key hkey
      exact ih key (List.mem_cons_of_mem _ hkey)

/-- The clauses that the type checker accepts cover their sum. -/
theorem typeMatchVariant_covers {lst : List ((String × String) × AstSimplified.Expression)}
    {m' : AstTyped.MatchingExpr} (ih : ∀ x ∈ lst, ChecksCovered x.2)
    (h : typeMatchVariant e (lst.map fun x => x.1.1) (typeCases e lst) = .ok m') :
    m'.Covers ∧ ∀ b ∈ m'.bodies, Covered b := by
  obtain ⟨V, lst', hV, hlst', rfl⟩ := map₂_eq_ok.1 h
  obtain ⟨-, -, m, rfl, hcases, -⟩ := matchedVariant_iff.1 hV
  obtain ⟨hnames, hcovered⟩ := typeCases_covered ih hlst'
  constructor
  · intro x hx
    -- the clauses keep their patterns, so what covers the variant before covers it after
    have hsame : lst'.map (fun c => c.1.1) = lst.map fun c => c.1.1 := by
      have hfst := congrArg (List.map Prod.fst) hnames
      rw [List.map_map, List.map_map] at hfst
      exact hfst
    rw [hsame]
    exact hcases x hx
  · intro b hb
    obtain ⟨x, hx, rfl⟩ := List.mem_map.1 hb
    exact hcovered x hx

/-- An assertion keeps what it tests and what it fails with. -/
theorem typeMatchBool_covered {ex' ae : AnnotatedExpression} {a b : AstSimplified.Expression}
    (hex : Covered ex') (iha : ChecksCovered a)
    (ihfw : ∀ fw, a = .eFailwith fw → ChecksCovered fw) (ihb : ChecksCovered b)
    (h : typeMatching e tvOpt ex' (.matchBool a b) = .ok ae) : Covered ae := by
  -- a first branch that fails is an assertion, whose message is typed instead of the branch
  by_cases hfw : ∃ fw, a = .eFailwith fw
  · obtain ⟨fw, rfl⟩ := hfw
    rw [typeMatching] at h
    obtain ⟨fw', hfw, h⟩ := bind_eq_ok.1 h
    obtain ⟨b', hb, h⟩ := bind_eq_ok.1 h
    obtain ⟨_, -, h⟩ := bind_eq_ok.1 h
    obtain ⟨_, -, h⟩ := bind_eq_ok.1 h
    have hfw' := ihfw fw rfl _ _ _ hfw
    have hb' := ihb _ _ _ hb
    have hassert : ∀ p ∈ (Expression.eConstant "ASSERT" [ex', fw']).parts, Covered p := by
      simpa [Expression.parts] using ⟨hex, hfw'⟩
    refine annotate_covered h trivial (List.forall_mem_cons.2 ⟨hex, ?_⟩)
    exact List.forall_mem_cons.2 ⟨.mk trivial hassert, List.forall_mem_singleton.2 hb'⟩
  · rw [typeMatching] at h
    · obtain ⟨_, -, h⟩ := bind_eq_ok.1 h
      obtain ⟨a', ha, h⟩ := bind_eq_ok.1 h
      obtain ⟨b', hb, h⟩ := bind_eq_ok.1 h
      have ha' := iha _ _ _ ha
      have hb' := ihb _ _ _ hb
      exact branches_covered h hex trivial (by simpa [MatchingExpr.bodies] using ⟨ha', hb'⟩)
    · exact fun fw heq => hfw ⟨fw, heq⟩

/-- In what the checker returns, every match on a sum has a clause for each constructor. -/
theorem typeExpression_covered (expr : AstSimplified.Expression) : ChecksCovered expr := by
  -- by induction on the source: matches apart, only the parts are to be covered
  induction expr using AstSimplified.Expression.ind with
  | literal l =>
    intro e tvOpt ae h
    rw [typeExpression, trace_eq_ok] at h
    exact annotate_covered h trivial (by simp [Expression.parts])
  | skip =>
    intro e tvOpt ae h
    rw [typeExpression, trace_eq_ok] at h
    exact annotate_covered h trivial (by simp [Expression.parts])
  | variable' name =>
    intro e tvOpt ae h
    rw [typeExpression, trace_eq_ok] at h
    obtain ⟨_, -, h⟩ := bind_eq_ok.1 h
    exact annotate_covered h trivial (by simp [Expression.parts])
  | failwith _ _ =>
    intro e tvOpt ae h
    rw [typeExpression, trace_eq_ok] at h
    cases h
  | constant name lst ih =>
    intro e tvOpt ae h
    rw [typeExpression, trace_eq_ok] at h
    obtain ⟨lst', hlst, h⟩ := bind_eq_ok.1 h
    obtain ⟨⟨name', tv⟩, -, h⟩ := bind_eq_ok.1 h
    exact annotate_covered h trivial (typeAll_covered ih hlst)
  | tuple lst ih =>
    intro e tvOpt ae h
    rw [typeExpression, trace_eq_ok] at h
    obtain ⟨lst', hlst, h⟩ := bind_eq_ok.1 h
    exact annotate_covered h trivial (typeAll_covered ih hlst)
  | list lst ih =>
    intro e tvOpt ae h
    rw [typeExpression, trace_eq_ok] at h
    obtain ⟨lst', hlst, h⟩ := bind_eq_ok.1 h
    obtain ⟨_, -, h⟩ := bind_eq_ok.1 h
    obtain ⟨_, -, h⟩ := bind_eq_ok.1 h
    obtain ⟨_, -, h⟩ := bind_eq_ok.1 h
    exact annotate_covered h trivial (typeAll_covered ih hlst)
  | record m ih =>
    intro e tvOpt ae h
    rw [typeExpression, trace_eq_ok] at h
    obtain ⟨m', hm, h⟩ := bind_eq_ok.1 h
    refine annotate_covered h trivial fun p hp => ?_
    obtain ⟨x, hx, rfl⟩ := List.mem_map.1 hp
    exact typeFields_covered ih hm x hx
  | map m ih =>
    intro e tvOpt ae h
    rw [typeExpression, trace_eq_ok] at h
    obtain ⟨m', hm, h⟩ := bind_eq_ok.1 h
    obtain ⟨_, -, h⟩ := bind_eq_ok.1 h
    obtain ⟨_, -, h⟩ := bind_eq_ok.1 h
    refine annotate_covered h trivial fun p hp => ?_
    obtain hp | hp := List.mem_append.1 hp
    · obtain ⟨x, hx, rfl⟩ := List.mem_map.1 hp
      exact (typeEntries_covered ih hm x hx).1
    · obtain ⟨x, hx, rfl⟩ := List.mem_map.1 hp
      exact (typeEntries_covered ih hm x hx).2
  | lambda b bt it ot r ih =>
    intro e tvOpt ae h
    rw [typeExpression, trace_eq_ok] at h
    obtain ⟨_, -, h⟩ := bind_eq_ok.1 h
    obtain ⟨_, -, h⟩ := bind_eq_ok.1 h
    obtain ⟨_, -, h⟩ := bind_eq_ok.1 h
    obtain ⟨_, -, h⟩ := bind_eq_ok.1 h
    obtain ⟨r', hr, h⟩ := bind_eq_ok.1 h
    exact annotate_covered h trivial (List.forall_mem_singleton.2 (ih _ _ _ hr))
  | application f arg ihf iharg =>
    intro e tvOpt ae h
    rw [typeExpression, trace_eq_ok] at h
    obtain ⟨f', hf, h⟩ := bind_eq_ok.1 h
    obtain ⟨arg', harg, h⟩ := bind_eq_ok.1 h
    split at h
    · obtain ⟨_, -, h⟩ := bind_eq_ok.1 h
      have hf' := ihf _ _ _ hf
      have harg' := iharg _ _ _ harg
      exact annotate_covered h trivial (by simpa [Expression.parts] using ⟨hf', harg'⟩)
    · cases h
  | letIn b bt rhs r ihrhs ihr =>
    intro e tvOpt ae h
    rw [typeExpression, trace_eq_ok] at h
    obtain ⟨_, -, h⟩ := bind_eq_ok.1 h
    obtain ⟨rhs', hrhs, h⟩ := bind_eq_ok.1 h
    obtain ⟨r', hr, h⟩ := bind_eq_ok.1 h
    have hrhs' := ihrhs _ _ _ hrhs
    have hr' := ihr _ _ _ hr
    exact annotate_covered h trivial (by simpa [Expression.parts] using ⟨hrhs', hr'⟩)
  | constructor' name expr ih =>
    intro e tvOpt ae h
    rw [typeExpression, trace_eq_ok] at h
    obtain ⟨⟨c, V⟩, -, h⟩ := bind_eq_ok.1 h
    obtain ⟨expr', hexpr, h⟩ := bind_eq_ok.1 h
    obtain ⟨_, -, h⟩ := bind_eq_ok.1 h
    exact annotate_covered h trivial (List.forall_mem_singleton.2 (ih _ _ _ hexpr))
  | accessor expr path ih ihpath =>
    intro e tvOpt ae h
    obtain ⟨ae', hexpr, h⟩ := typeExpression_accessor_iff.1 h
    exact typeAccesses_covered (ih _ _ _ hexpr) ihpath h
  | lookUp ds i ihds ihi =>
    intro e tvOpt ae h
    rw [typeExpression, trace_eq_ok] at h
    obtain ⟨ds', hds, h⟩ := bind_eq_ok.1 h
    obtain ⟨i', hi, h⟩ := bind_eq_ok.1 h
    obtain ⟨⟨src, dst⟩, -, h⟩ := bind_eq_ok.1 h
    obtain ⟨_, -, h⟩ := bind_eq_ok.1 h
    have hds' := ihds _ _ _ hds
    have hi' := ihi _ _ _ hi
    exact annotate_covered h trivial (by simpa [Expression.parts] using ⟨hds', hi'⟩)
  | sequence a b iha ihb =>
    intro e tvOpt ae h
    rw [typeExpression, trace_eq_ok] at h
    obtain ⟨a', ha, h⟩ := bind_eq_ok.1 h
    obtain ⟨b', hb, h⟩ := bind_eq_ok.1 h
    obtain ⟨_, -, h⟩ := bind_eq_ok.1 h
    have ha' := iha _ _ _ ha
    have hb' := ihb _ _ _ hb
    exact annotate_covered h trivial (by simpa [Expression.parts] using ⟨ha', hb'⟩)
  | loop a b iha ihb =>
    intro e tvOpt ae h
    rw [typeExpression, trace_eq_ok] at h
    obtain ⟨a', ha, h⟩ := bind_eq_ok.1 h
    obtain ⟨b', hb, h⟩ := bind_eq_ok.1 h
    obtain ⟨_, -, h⟩ := bind_eq_ok.1 h
    obtain ⟨_, -, h⟩ := bind_eq_ok.1 h
    have ha' := iha _ _ _ ha
    have hb' := ihb _ _ _ hb
    exact annotate_covered h trivial (by simpa [Expression.parts] using ⟨ha', hb'⟩)
  | assign name path expr ih =>
    intro e tvOpt ae h
    rw [typeExpression, trace_eq_ok] at h
    obtain ⟨_, -, h⟩ := bind_eq_ok.1 h
    obtain ⟨⟨_, _⟩, -, h⟩ := bind_eq_ok.1 h
    obtain ⟨expr', hexpr, h⟩ := bind_eq_ok.1 h
    obtain ⟨_, -, h⟩ := bind_eq_ok.1 h
    exact annotate_covered h trivial (List.forall_mem_singleton.2 (ih _ _ _ hexpr))
  | annotated expr te ih =>
    intro e tvOpt ae h
    rw [typeExpression, trace_eq_ok] at h
    -- an annotation changes nothing but the type
    obtain ⟨_, -, h⟩ := bind_eq_ok.1 h
    obtain ⟨⟨expr', t', env'⟩, hexpr, h⟩ := bind_eq_ok.1 h
    obtain ⟨_, -, rfl⟩ := map_eq_ok.1 h
    exact (ih _ _ _ hexpr).retype
  | matchBool ex a b ihex iha ihfw ihb =>
    intro e tvOpt ae h
    rw [typeExpression, trace_eq_ok] at h
    obtain ⟨ex', hex, h⟩ := bind_eq_ok.1 h
    exact typeMatchBool_covered (ihex _ _ _ hex) iha ihfw ihb h
  | matchOption ex n name s ihex ihn ihs =>
    intro e tvOpt ae h
    rw [typeExpression, trace_eq_ok] at h
    obtain ⟨ex', hex, h⟩ := bind_eq_ok.1 h
    rw [typeMatching] at h
    obtain ⟨_, -, h⟩ := bind_eq_ok.1 h
    obtain ⟨n', hn, h⟩ := bind_eq_ok.1 h
    obtain ⟨s', hs, h⟩ := bind_eq_ok.1 h
    have hn' := ihn _ _ _ hn
    have hs' := ihs _ _ _ hs
    exact branches_covered h (ihex _ _ _ hex) trivial
      (by simpa [MatchingExpr.bodies] using ⟨hn', hs'⟩)
  | matchList ex n hd tl c ihex ihn ihc =>
    intro e tvOpt ae h
    rw [typeExpression, trace_eq_ok] at h
    obtain ⟨ex', hex, h⟩ := bind_eq_ok.1 h
    rw [typeMatching] at h
    obtain ⟨_, -, h⟩ := bind_eq_ok.1 h
    obtain ⟨n', hn, h⟩ := bind_eq_ok.1 h
    obtain ⟨c', hc, h⟩ := bind_eq_ok.1 h
    have hn' := ihn _ _ _ hn
    have hc' := ihc _ _ _ hc
    exact branches_covered h (ihex _ _ _ hex) trivial
      (by simpa [MatchingExpr.bodies] using ⟨hn', hc'⟩)
  | matchTuple ex lst b ihex ihb =>
    intro e tvOpt ae h
    rw [typeExpression, trace_eq_ok] at h
    obtain ⟨ex', hex, h⟩ := bind_eq_ok.1 h
    rw [typeMatching] at h
    obtain ⟨tys, -, h⟩ := bind_eq_ok.1 h
    split at h
    · obtain ⟨b', hb, h⟩ := bind_eq_ok.1 h
      exact branches_covered h (ihex _ _ _ hex) trivial
        (List.forall_mem_singleton.2 (ihb _ _ _ hb))
    · cases h
  | matchVariant ex lst ihex ihlst =>
    intro e tvOpt ae h
    rw [typeExpression, trace_eq_ok] at h
    obtain ⟨ex', hex, h⟩ := bind_eq_ok.1 h
    rw [typeMatching] at h
    obtain ⟨m', hm', h⟩ := bind_eq_ok.1 h
    -- the clauses are compared with the sum here, and nowhere else
    obtain ⟨here, bodies⟩ := typeMatchVariant_covers ihlst hm'
    exact branches_covered h (ihex _ _ _ hex) here bodies

end Ligo.Typer
