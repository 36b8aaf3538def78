import Ligo.Library.Fuel
import Ligo.Library.SortedMap
import Ligo.Ligodity.Ast
import Mathlib.Data.String.Basic

/-!
# The semantic actions of the parser of Ligodity

A `let` of a pattern becomes a binding of one name and a projection of this name for each
variable of the pattern (`letBinding`), around the body (`mkLetInBindings`) or after the
declaration (`mkLetBindings`); a function of several parameters becomes nested functions
(`normFunExpr`). The actions on the other expressions only build a node of the tree.

The actions draw fresh names from one counter and exit on an error (`Parsing`); an expression
is parsed before the action that uses it.
-/

namespace Ligo.Ligodity

open Pascaligo (Nseq Reg Region)
open Pascaligo.Raw (TypeExpr Selection Projection)

/-! ### Sequences -/

section Sequences

variable {α β : Type}

def nseqCons (x : α) (s : Nseq α) : Nseq α := ⟨x, s.hd :: s.tl⟩

def nseqFoldl (f : β → α → β) (a : β) (s : Nseq α) : β := (s.hd :: s.tl).foldl f a

/-- `nseq_rev`, with the elements that are reversed already. -/
def nseqRevAux (acc : Nseq α) : List α → Nseq α
  | [] => acc
  | x :: l => nseqRevAux (nseqCons x acc) l

def nseqRev (s : Nseq α) : Nseq α := nseqRevAux ⟨s.hd, []⟩ s.tl

/-- `nsepseq_rev`, with the elements that are reversed already. -/
def nsepseqRevAux : List α → α → List α → Nseq α
  | acc, hd, snd :: tl => nsepseqRevAux (hd :: acc) snd tl
  | acc, hd, [] => ⟨hd, acc⟩

def nsepseqRev : Nseq α → Nseq α
  | ⟨hd, snd :: tl⟩ => nsepseqRevAux [hd] snd tl
  | s => s

/-- A list whose items are separated, or each terminated, by a separator. -/
inductive SepOrTerm (α : Type) where
  | separated (seq : Nseq α)
  | terminated (seq : Nseq α)

/-- The items of the list, in their order in the source. -/
def SepOrTerm.toList : SepOrTerm α → List α
  | separated seq | terminated seq => seq.toList

/-- `trans`. -/
def trans (seq : List α) : List α → List α
  | [] => seq
  | item :: others => trans (item :: seq) others

def sepOrTermList : SepOrTerm α → Nseq α
  | .separated seq => seq
  | .terminated seq => ⟨seq.hd, (trans [] seq.tl).reverse⟩

theorem nseqRevAux_toList (acc : Nseq α) (l : List α) :
    (nseqRevAux acc l).toList = l.reverse ++ acc.toList := by
  induction l generalizing acc with
  | nil => rfl
  | cons x l ih =>
    rw [nseqRevAux, ih, List.reverse_cons, List.append_assoc]
    rfl

/-- Reversing a sequence that is not empty reverses its list. -/
theorem nseqRev_toList (s : Nseq α) : (nseqRev s).toList = s.toList.reverse := by
  rw [nseqRev, nseqRevAux_toList]
  exact List.reverse_cons.symm

theorem nsepseqRevAux_toList (acc : List α) (hd : α) (tl : List α) :
    (nsepseqRevAux acc hd tl).toList = (hd :: tl).reverse ++ acc := by
  induction tl generalizing acc hd with
  | nil => rfl
  | cons snd tl ih =>
    rw [nsepseqRevAux, ih, List.reverse_cons (a := hd), List.append_assoc]
    rfl

theorem nsepseqRev_toList (s : Nseq α) : (nsepseqRev s).toList = s.toList.reverse := by
  match s with
  | ⟨hd, []⟩ => rfl
  | ⟨hd, snd :: tl⟩ =>
    rw [nsepseqRev, nsepseqRevAux_toList, Nseq.toList, List.reverse_cons (a := hd)]

/-- The items of either form come in their order. -/
theorem sepOrTermList_toList (s : SepOrTerm α) : (sepOrTermList s).toList = s.toList := by
  have htrans : ∀ acc l : List α, trans acc l = l.reverse ++ acc := by
    intro acc l
    induction l generalizing acc with
    | nil => rfl
    | cons x l ih =>
      rw [trans, ih, List.reverse_cons, List.append_assoc]
      rfl
  cases s with
  | separated seq => rfl
  | terminated seq =>
    show seq.hd :: (trans [] seq.tl).reverse = seq.hd :: seq.tl
    rw [htrans, List.append_nil, List.reverse_reverse]

end Sequences

/-! ### Effects -/

/-- The effects of the semantic actions: the counter of the fresh names, and the exit with the
text of an error. -/
abbrev Parsing (α : Type) := StateT ℕ (Except String) α

/-- `prerr` and `exit 1`. -/
def fail {α : Type} (value : String) : Parsing α := throw value

def genSym : Parsing String := do
  modify (· + 1)
  return "#" ++ toString (← get)

section Run

variable {α β : Type} {n n' : ℕ}

@[simp] theorem pure_run {a : α} : (pure a : Parsing α) n = .ok (a, n) := rfl

/-- A chain of parsers succeeds when each of them does, on the state that the one before has
left. -/
theorem bind_run_eq_ok {x : Parsing α} {f : α → Parsing β} {b : β} :
    (x >>= f) n = .ok (b, n') ↔ ∃ a m, x n = .ok (a, m) ∧ f a m = .ok (b, n') := by
  show (x n >>= fun p => f p.1 p.2) = .ok (b, n') ↔ _
  rw [Fuel.bind_eq_ok]
  exact Prod.exists

end Run

/-- The error text names the region of the type, which is left out. -/
def failSynUnif {α : Type} : Parsing α := fail "Unification is not implemented."

/-! ### Patterns -/

open Raw

/-- The variables of a pattern, with their projections. -/
abbrev VMap := List (String × (Option TypeAnnotation × Projection))

def mkComponent (rank : ℕ) : Selection := .component rank

/-- `mk_field_path`, of a path by its head and its tail. -/
def mkFieldPath : ℕ → List ℕ → Nseq Selection
  | rank, [] => ⟨mkComponent rank, []⟩
  | rank, hd :: tl => nseqCons (mkComponent rank) (mkFieldPath hd tl)

def mkProjection (fresh : String) (path : Nseq ℕ) : Projection :=
  ⟨fresh, nsepseqRev (mkFieldPath path.hd path.tl)⟩

/-- The type `unit`, without a place in the source. -/
def unitType : TypeAnnotation := ⟨Region.ghost, .tAlias "unit"⟩

mutual

def split (fresh : String) (path : Nseq ℕ) (map : VMap) : Pattern → Parsing VMap
  | .pTuple ⟨hd, tl⟩ => do
    let map ← split fresh (nseqCons 1 path) map hd
    subRec fresh path map 2 tl
  | .pPar inside => split fresh path map inside
  | .pVar v =>
    if (SortedMap.lookup v map).isSome then fail "Non-linear pattern."
    else return SortedMap.insert v (none, mkProjection fresh path) map
  | .pWild => return map
  | .pUnit => do
    let anon ← genSym
    return SortedMap.insert anon (some unitType, mkProjection fresh path) map
  | .pRecord | .pConstr _ _ | .pTyped _ _ => fail "Not implemented yet."
  | .pInt | .pTrue | .pFalse | .pString | .pSugar _ | .pCons _ _ => fail "Incomplete pattern."

/-- The components of a tuple, from a rank on. -/
def subRec (fresh : String) (path : Nseq ℕ) (map : VMap) (rank : ℕ) :
    List Pattern → Parsing VMap
  | [] => return map
  | pattern :: others => do
    let map ← split fresh (nseqCons rank path) map pattern
    subRec fresh path map (rank + 1) others

end

/-- The components of the tuple of a whole pattern. -/
def splitComponents (fresh : String) (map : VMap) (rank : ℕ) : List Pattern → Parsing VMap
  | [] => return map
  | pattern :: others => do
    let map ← split fresh ⟨rank, []⟩ map pattern
    splitComponents fresh map (rank + 1) others

def splitPattern : Pattern → Parsing (String × Option TypeAnnotation × VMap)
  | .pPar inside => splitPattern inside
  | .pVar v => return (v, none, [])
  | .pWild => do
    let fresh ← genSym
    return (fresh, none, [])
  | .pUnit => do
    let fresh ← genSym
    return (fresh, some unitType, [])
  | .pTyped pattern typeExpr => do
    let (var', type', map) ← splitPattern pattern
    match type' with
    | none => return (var', some typeExpr, map)
    | some t =>
      -- regions are objects, so types are equal only when they stand at one place
      if t.region = typeExpr.region then return (var', some t, map) else failSynUnif
  | .pTuple t => do
    let fresh ← genSym
    let map ← splitComponents fresh [] 1 t.toList
    return (fresh, none, map)
  | .pRecord | .pConstr _ _ => fail "Not implemented yet."
  | .pInt | .pTrue | .pFalse | .pString | .pSugar _ | .pCons _ _ => fail "Incomplete pattern."

/-! ### Bindings -/

/-- The declaration of a variable of a pattern. -/
def newLet (x : String × (Option TypeAnnotation × Projection)) : Reg Declaration :=
  ⟨Region.ghost, .let' ⟨x.1, x.2.1, .eProj x.2.2⟩⟩

def mkLetBindings (map : VMap) (decl : Nseq (Reg Declaration)) : Nseq (Reg Declaration) :=
  map.foldl (fun acc x => nseqCons (newLet x) acc) decl

def mkLetInBindings (map : VMap) (body : Expr) : Expr :=
  map.foldl (fun acc x => .eLetIn x.1 x.2.1 (.eProj x.2.2) acc) body

/-- A function of one pattern. -/
def funExpr (pattern : Pattern) (expr : Expr) : Parsing Expr :=
  match pattern with
  | .pVar var => return .eFun var none expr
  | .pTyped pattern typeExpr => do
    let fresh ← genSym
    return .eFun fresh (some typeExpr) (.eCase (.eVar fresh) ⟨⟨pattern, expr⟩, []⟩)
  | pattern => do
    let fresh ← genSym
    return .eFun fresh none (.eCase (.eVar fresh) ⟨⟨pattern, expr⟩, []⟩)

def normFunExpr (patterns : Nseq Pattern) (expr : Expr) : Parsing Expr :=
  patterns.toList.foldr (fun pattern acc => acc >>= funExpr pattern) (pure expr)

/-- The two forms of a binding. The right-hand side comes with the action that builds it. -/
inductive BindingSyntax where
  | function (name : String) (params : Nseq Pattern) (lhsType : Option TypeAnnotation)
      (expr : Parsing Expr)
  | pattern (p : Pattern) (lhsType : Option TypeAnnotation) (expr : Parsing Expr)

def letBinding : BindingSyntax → Parsing (LetBinding × VMap)
  | .function name params lhsType expr => do
    let letRhs ← normFunExpr params (← expr)
    return (⟨name, lhsType, letRhs⟩, [])
  | .pattern p lhsType expr => do
    let letRhs ← expr
    let (var, typeOpt, map) ← splitPattern p
    match typeOpt, lhsType with
    | some type1, some type2 =>
      if type1.region ≠ type2.region then failSynUnif
      else return (⟨var, lhsType, letRhs⟩, map)
    | some type1, none => return (⟨var, some type1, letRhs⟩, map)
    | _, _ => return (⟨var, lhsType, letRhs⟩, map)

/-- The node of a `let` expression, around what its body becomes. -/
def mkLetIn (x : LetBinding × VMap) (body : Expr) : Expr :=
  .eLetIn x.1.var x.1.lhsType x.1.letRhs (mkLetInBindings x.2 body)

def letExpr (binding : BindingSyntax) (body : Parsing Expr) : Parsing Expr := do
  let x ← letBinding binding
  return mkLetIn x (← body)

/-- The two forms of an entry point: with parameters, or with a function. -/
inductive EntrySyntax where
  | params (name : String) (params : Nseq Pattern) (lhsType : Option TypeAnnotation)
      (expr : Parsing Expr)
  | funExpr (name : String) (lhsType : Option TypeAnnotation) (expr : Parsing Expr)

def entryBinding : EntrySyntax → Parsing LetBinding
  | .params name params lhsType expr => do
    let letRhs ← normFunExpr params (← expr)
    return ⟨name, lhsType, letRhs⟩
  | .funExpr name lhsType expr => return ⟨name, lhsType, ← expr⟩

def sequence (elements : SepOrTerm Expr) : Expr := .eSeq (sepOrTermList elements).toList

/-! ### Declarations -/

inductive DeclarationSyntax where
  | letEntry (binding : EntrySyntax)
  | typeDecl (name : String) (typeExpr : TypeExpr)
  | let' (binding : BindingSyntax)

def declaration (d : Reg DeclarationSyntax) : Parsing (Nseq (Reg Declaration)) :=
  match d.value with
  | .letEntry binding => do
    let binding ← entryBinding binding
    return ⟨⟨d.region, .letEntry binding⟩, []⟩
  | .typeDecl name typeExpr => return ⟨⟨d.region, .typeDecl name typeExpr⟩, []⟩
  | .let' binding => do
    let (binding, map) ← letBinding binding
    return mkLetBindings map ⟨⟨d.region, .let' binding⟩, []⟩

/-- `declarations`, of the first declaration and the ones after it. -/
def declarations (d : Reg DeclarationSyntax) :
    List (Reg DeclarationSyntax) → Parsing (Nseq (Reg Declaration))
  | [] => declaration d
  | d' :: ds => do
    let first ← declaration d
    let others ← declarations d' ds
    return nseqFoldl (fun x y => nseqCons y x) others first

def program (ds : Nseq (Reg DeclarationSyntax)) : Parsing Ast := do
  let decl ← declarations ds.hd ds.tl
  return ⟨nseqRev decl⟩

end Ligo.Ligodity
