import Ligo.Ligodity.Parser
import Ligo.Simplify.Ligodity

/-!
# The order of the declarations of Ligodity

A declaration expands into a binding of its own and the projections for the variables of its
pattern (`expand`). The parser conses the projections onto the binding, then the expansion of
a declaration onto the ones after it, and reverses the whole at the end. So the expansions are
reversed twice, except the last one, and the program comes out with its declarations in the
opposite order (`program_decl`); it is in the order of the source when there is one
declaration (`simplProgram_inOrder_iff`).
-/

namespace Ligo.Simplify.Ligodity

open Ligo.Pascaligo (Nseq Reg Pos)
open Ligo.Ligodity
open Ligo.Ligodity.Raw

/-! ### Expansions -/

/-- The binding of a declaration, with the variables of its pattern. -/
def expand (d : Reg DeclarationSyntax) : Parsing (Reg Declaration × VMap) :=
  match d.value with
  | .letEntry binding => do
    let binding ← entryBinding binding
    return (⟨d.region, .letEntry binding⟩, [])
  | .typeDecl name typeExpr => return (⟨d.region, .typeDecl name typeExpr⟩, [])
  | .let' binding => do
    let (binding, map) ← letBinding binding
    return (⟨d.region, .let' binding⟩, map)

/-- A binding before its projections. -/
def expansion (x : Reg Declaration × VMap) : List (Reg Declaration) := x.1 :: x.2.map newLet

/-- The declarations come in the order of the source, each binding before its projections. -/
def SourceOrder (xs : List (Reg Declaration × VMap)) (decls : List (Reg Declaration)) : Prop :=
  ∃ ls, List.Forall₂ (fun x l => ∃ projs, l = x.1 :: projs ∧ projs.Perm (x.2.map newLet)) xs ls ∧
    decls = ls.flatten

variable {ds : List (Reg DeclarationSyntax)} {d : Reg DeclarationSyntax}
  {x : Reg Declaration × VMap} {xs : List (Reg Declaration × VMap)} {n n' : ℕ}

/-- An expanded declaration keeps its region. -/
theorem expand_region (h : expand d n = .ok (x, n')) : x.1.region = d.region := by
  obtain ⟨region, value⟩ := d
  cases value with
  | letEntry binding =>
    obtain ⟨binding, m, -, h⟩ := bind_run_eq_ok.1 h
    cases h
    rfl
  | typeDecl name typeExpr =>
    cases h
    rfl
  | let' binding =>
    obtain ⟨binding, m, -, h⟩ := bind_run_eq_ok.1 h
    cases h
    rfl

/-- A declaration is expanded, and its bindings follow it. -/
theorem declaration_eq (d : Reg DeclarationSyntax) :
    declaration d = expand d >>= fun x => pure (mkLetBindings x.2 ⟨x.1, []⟩) := by
  obtain ⟨region, value⟩ := d
  cases value with
  | letEntry binding =>
    simp only [declaration, expand, bind_assoc]
    rfl
  | typeDecl name typeExpr => rfl
  | let' binding =>
    simp only [declaration, expand, bind_assoc]
    rfl

/-- The projections are consed onto the binding. -/
theorem mkLetBindings_toList (map : VMap) (s : Nseq (Reg Declaration)) :
    (mkLetBindings map s).toList = (map.map newLet).reverse ++ s.toList := by
  induction map generalizing s with
  | nil => rfl
  | cons x map ih =>
    rw [mkLetBindings, List.foldl_cons, ← mkLetBindings, ih, List.map_cons, List.reverse_cons,
      List.append_assoc]
    rfl

/-- The bindings of a pattern are put in front of the declaration, in reverse. -/
theorem expansion_toList (x : Reg Declaration × VMap) :
    (mkLetBindings x.2 ⟨x.1, []⟩).toList = (expansion x).reverse := by
  rw [mkLetBindings_toList, expansion, List.reverse_cons]
  rfl

/-- Folding with a cons reverses. -/
theorem nseqFoldl_cons_toList {α : Type} (s t : Nseq α) :
    (nseqFoldl (fun x y => nseqCons y x) s t).toList = t.toList.reverse ++ s.toList := by
  rw [nseqFoldl, ← Nseq.toList]
  induction t.toList generalizing s with
  | nil => rfl
  | cons y l ih =>
    rw [List.foldl_cons, ih, List.reverse_cons, List.append_assoc]
    rfl

/-! ### The program -/

/-- The expansion of the last declaration is the only one that is reversed. -/
theorem declarations_run (h : declarations d ds n = .ok (s, n')) :
    ∃ xs x, (d :: ds).mapM expand n = .ok (xs ++ [x], n') ∧
      s.toList = xs.flatMap expansion ++ (expansion x).reverse := by
  induction ds generalizing d s n with
  | nil =>
    rw [declarations, declaration_eq] at h
    obtain ⟨x, m, hx, h⟩ := bind_run_eq_ok.1 h
    cases h
    refine ⟨[], x, ?_, ?_⟩
    · rw [List.mapM_cons, bind_run_eq_ok]
      exact ⟨x, n', hx, rfl⟩
    · rw [expansion_toList]
      rfl
  | cons d' ds ih =>
    simp only [declarations, declaration_eq, bind_assoc, pure_bind] at h
    obtain ⟨x, m, hx, h⟩ := bind_run_eq_ok.1 h
    obtain ⟨t, m', ht, h⟩ := bind_run_eq_ok.1 h
    cases h
    obtain ⟨xs, y, hxs, ht⟩ := ih ht
    refine ⟨x :: xs, y, ?_, ?_⟩
    · rw [List.mapM_cons, bind_run_eq_ok]
      exact ⟨x, m, hx, bind_run_eq_ok.2 ⟨xs ++ [y], n', hxs, rfl⟩⟩
    · rw [nseqFoldl_cons_toList, expansion_toList, ht, List.reverse_reverse, List.flatMap_cons,
        List.append_assoc]

/-- The declarations come in the opposite order, up to the expansion of the last one. -/
theorem program_decl {ds : Nseq (Reg DeclarationSyntax)} {ast : Ast}
    (h : program ds n = .ok (ast, n')) :
    ∃ xs x, ds.toList.mapM expand n = .ok (xs ++ [x], n') ∧
      ast.decl.toList = expansion x ++ (xs.flatMap expansion).reverse := by
  obtain ⟨s, m, hs, h⟩ := bind_run_eq_ok.1 h
  cases h
  obtain ⟨xs, x, hxs, hs⟩ := declarations_run hs
  refine ⟨xs, x, hxs, ?_⟩
  rw [nseqRev_toList, hs, List.reverse_append, List.reverse_reverse]

/-! ### The order -/

/-- The simplified program has the declarations that the source expands into, in the order of
the source. -/
def InSourceOrder (ds : List (Reg DeclarationSyntax)) (n : ℕ)
    (prog : List (Reg AstSimplified.Declaration)) : Prop :=
  ∃ xs n', ds.mapM expand n = .ok (xs, n') ∧ ∃ decls, SourceOrder xs decls ∧
    List.Forall₂ (fun d p => simplDeclaration d = pure p) decls prog

/-- All declarations keep their regions. -/
theorem mapM_expand_region (h : ds.mapM expand n = .ok (xs, n')) :
    xs.map (fun x => x.1.region) = ds.map Reg.region := by
  induction ds generalizing xs n with
  | nil =>
    cases h
    rfl
  | cons d ds ih =>
    rw [List.mapM_cons, bind_run_eq_ok] at h
    obtain ⟨x, m, hx, h⟩ := h
    obtain ⟨xs, m', hxs, h⟩ := bind_run_eq_ok.1 h
    cases h
    rw [List.map_cons, List.map_cons, expand_region hx, ih hxs]

/-- Simplifying keeps the region as well. -/
theorem simplDeclaration_region {p : Reg AstSimplified.Declaration} {d : Reg Declaration}
    (h : simplDeclaration d = pure p) : p.region = d.region := by
  obtain ⟨region, value⟩ := d
  cases value with
  | let' binding =>
    obtain ⟨te, -, h⟩ := Raising.bind_eq_pure.1 h
    obtain ⟨rhs, -, h⟩ := Raising.bind_eq_pure.1 h
    cases h
    rfl
  | letEntry binding => cases h
  | typeDecl name typeExpr =>
    obtain ⟨te, -, h⟩ := Raising.bind_eq_pure.1 h
    cases h
    rfl

/-- The declarations of a program are in the order of the source exactly when there is one. -/
theorem simplProgram_inOrder_iff {ds : Nseq (Reg DeclarationSyntax)} {ast : Ast}
    {prog : List (Reg AstSimplified.Declaration)} (hreg : (ds.toList.map Reg.region).Nodup)
    (hparse : program ds n = .ok (ast, n')) (hsimpl : simplProgram ast = pure prog) :
    InSourceOrder ds.toList n prog ↔ ds.tl = [] := by
  obtain ⟨xs, x, hxs, hdecl⟩ := program_decl hparse
  have hprog := Raising.mapListRev_eq_pure.1 hsimpl
  rw [hdecl] at hprog
  constructor
  · rintro ⟨ys, m, hys, decls, ⟨ls, hls, rfl⟩, hdecls⟩
    obtain rfl : ys = xs ++ [x] := by
      rw [hxs] at hys
      cases hys
      rfl
    have hregions := mapM_expand_region hxs
    cases xs with
    | nil =>
      have hlen := congrArg List.length hregions
      rw [List.length_map, List.length_map] at hlen
      exact List.eq_nil_of_length_eq_zero (Nat.succ.inj hlen).symm
    | cons y xs =>
      -- the first declaration of the program would be the first and the last one of the source
      exfalso
      obtain ⟨l, ls, ⟨projs, rfl, -⟩, -, rfl⟩ := List.forall₂_cons_left_iff.1 hls
      obtain ⟨p, prog, hp, -, rfl⟩ := List.forall₂_cons_left_iff.1 hprog
      have hp' := (List.forall₂_cons.1 hdecls).1
      have heq : y.1.region = x.1.region :=
        (simplDeclaration_region hp').symm.trans (simplDeclaration_region hp)
      rw [← hregions, List.cons_append, List.map_cons, List.map_append] at hreg
      exact (List.nodup_cons.1 hreg).1 (List.mem_append_right _ (List.mem_singleton.2 heq))
  · intro htl
    have hlen := congrArg List.length (mapM_expand_region hxs)
    rw [List.length_map, List.length_map, List.length_append, Nseq.toList, htl] at hlen
    obtain rfl : xs = [] := List.eq_nil_of_length_eq_zero (Nat.succ.inj hlen)
    refine ⟨[x], n', hxs, expansion x, ⟨[expansion x], ?_, ?_⟩, ?_⟩
    · exact .cons ⟨x.2.map newLet, rfl, List.Perm.refl _⟩ .nil
    · exact (List.append_nil _).symm
    · rwa [List.flatMap_nil, List.reverse_nil, List.append_nil] at hprog

/-- `let a = () let b = a`. -/
def letAB : Nseq (Reg DeclarationSyntax) :=
  ⟨⟨⟨Pos.min, Pos.min.shiftBytes 10⟩, .let' (.pattern (.pVar "a") none (pure .eUnit))⟩,
    [⟨⟨Pos.min.shiftBytes 11, Pos.min.shiftBytes 20⟩,
      .let' (.pattern (.pVar "b") none (pure (.eVar "a")))⟩]⟩

/-- In the simplified program, `b` is declared before the variable that it reads. -/
theorem letAB_out_of_order :
    ∃ ast n' prog, program letAB 0 = .ok (ast, n') ∧ simplProgram ast = pure prog ∧
      ¬ InSourceOrder letAB.toList 0 prog := by
  refine ⟨_, _, _, rfl, rfl, fun h => ?_⟩
  have htl := (simplProgram_inOrder_iff (by decide) rfl rfl).1 h
  cases htl

/-- `let (b, a) = ((), ())`. -/
def letPair : Nseq (Reg DeclarationSyntax) :=
  ⟨⟨⟨Pos.min, Pos.min.shiftBytes 21⟩, .let' (.pattern
    (.pPar (.pTuple ⟨.pVar "b", [.pVar "a"]⟩)) none (pure (.eTuple ⟨.eUnit, [.eUnit]⟩)))⟩, []⟩

/-- The fresh binding, then the projections of `a` and of `b`. -/
theorem letPair_inOrder :
    ∃ ast n' prog, program letPair 0 = .ok (ast, n') ∧ simplProgram ast = pure prog ∧
      InSourceOrder letPair.toList 0 prog :=
  ⟨_, _, _, rfl, rfl, (simplProgram_inOrder_iff (by decide) rfl rfl).2 rfl⟩

end Ligo.Simplify.Ligodity
