import Ligo.Simplify.Pascaligo

/-!
# When the simplifier raises

Two partial functions of the simplifier can be reached from a program. `assert false` is
reached at a sum type with a constructor that has no arguments, and `Z.to_int` overflows on a
literal or an index of a tuple that is no integer of the host. The others are not: a string
has its quotes, a block has a statement, and the head of a list of patterns is read after its
length.

`SafeType`, `SafeExpr`, `SafeStatement`, … say that neither occurs where the simplifier looks.
It does not look behind an error (`SupportedType`, `SupportedExpr`, … say when there is none),
except that all elements of one list are looked at. `simplProgram_returns_iff` is the exact
condition.
-/

namespace Ligo.Simplify.Pascaligo

open AstSimplified (Expression TypeExpression Access)
open Ligo.Pascaligo (Nseq StringLexeme)
open Ligo.Pascaligo.Raw hiding Declaration
open Operators.Simplify (typeConstants)
open Operators.Simplify.Pascaligo (constants)
open Raising

/-- Nothing is known of a value. -/
abbrev Any {α : Type} : α → Prop := fun _ => True

/-! ### Types -/

mutual

/-- Every type that is applied is a constant of the language. -/
def SupportedType : TypeExpr → Prop
  | .tPar inside => SupportedType inside
  | .tAlias _ => True
  | .tFun a b => SupportedType a ∧ SupportedType b
  | .tApp name ⟨hd, tl⟩ =>
    (SupportedType hd ∧ SupportedTypes tl) ∧ (typeConstants.lookup name).isSome
  | .tProd cartesian => SupportedProduct cartesian
  | .tRecord elements => SupportedFieldDecls elements
  | .tSum ⟨hd, tl⟩ => SupportedVariant hd ∧ SupportedVariants tl

def SupportedTypes : List TypeExpr → Prop
  | [] => True
  | t :: lst => SupportedType t ∧ SupportedTypes lst

def SupportedProduct : Nseq TypeExpr → Prop
  | ⟨hd, tl⟩ => SupportedType hd ∧ SupportedTypes tl

def SupportedFieldDecl : FieldDecl → Prop
  | .mk _ t => SupportedType t

def SupportedFieldDecls : List FieldDecl → Prop
  | [] => True
  | x :: lst => SupportedFieldDecl x ∧ SupportedFieldDecls lst

def SupportedVariant : Variant → Prop
  | .mk _ none => True
  | .mk _ (some product) => SupportedProduct product

def SupportedVariants : List Variant → Prop
  | [] => True
  | v :: lst => SupportedVariant v ∧ SupportedVariants lst

end

mutual

/-- Every constructor of a sum has arguments. -/
def SafeType : TypeExpr → Prop
  | .tPar inside => SafeType inside
  | .tAlias _ => True
  | .tFun a b => SafeType a ∧ SafeType b
  | .tApp _ ⟨hd, tl⟩ => SafeType hd ∧ SafeTypes tl
  | .tProd cartesian => SafeProduct cartesian
  | .tRecord elements => SafeFieldDecls elements
  | .tSum ⟨hd, tl⟩ => SafeVariant hd ∧ SafeVariants tl

def SafeTypes : List TypeExpr → Prop
  | [] => True
  | t :: lst => SafeType t ∧ SafeTypes lst

def SafeProduct : Nseq TypeExpr → Prop
  | ⟨hd, tl⟩ => SafeType hd ∧ SafeTypes tl

def SafeFieldDecl : FieldDecl → Prop
  | .mk _ t => SafeType t

def SafeFieldDecls : List FieldDecl → Prop
  | [] => True
  | x :: lst => SafeFieldDecl x ∧ SafeFieldDecls lst

def SafeVariant : Variant → Prop
  | .mk _ none => False
  | .mk _ (some product) => SafeProduct product

def SafeVariants : List Variant → Prop
  | [] => True
  | v :: lst => SafeVariant v ∧ SafeVariants lst

end

/-- A look-up that may fail. -/
theorem settles_traceOption {α : Type} (title : String) (o : Option α) :
    Settles (lift (traceOption title o)) True (o.isSome : Prop) Any := by
  refine settles_lift ?_ fun _ _ => trivial
  rw [Option.isSome_iff_exists]
  exact exists_congr fun a => traceOption_eq_ok

mutual

/-- Types: the only exception is the `assert false` of a constructor that has no arguments. -/
theorem simplTypeExpression_settles :
    ∀ t, Settles (simplTypeExpression t) (SafeType t) (SupportedType t) Any
  | .tPar inside => simplTypeExpression_settles inside
  | .tAlias v => by
    -- one case for each form of a type; a name is a constant or a variable of the environment
    rw [simplTypeExpression]
    split <;> exact settles_pure trivial
  | .tFun a b =>
    ((simplTypeExpression_settles a).pair (simplTypeExpression_settles b)).map
      fun _ _ => trivial
  | .tApp name ⟨hd, tl⟩ =>
    (((simplTypeExpression_settles hd).consRev (simplTypeExpressions_settles tl)).bind
      fun _ _ => (settles_traceOption _ _).map fun _ _ => trivial).congr
      (by simp [SafeType]) (by simp [SupportedType])
  | .tProd cartesian => simplListTypeExpression_settles cartesian
  | .tRecord elements => (simplFieldDecls_settles elements).map fun _ _ => trivial
  | .tSum ⟨hd, tl⟩ =>
    ((simplVariant_settles hd).consRev (simplVariants_settles tl)).map fun _ _ => trivial

theorem simplTypeExpressions_settles :
    ∀ lst, Settles (simplTypeExpressions lst) (SafeTypes lst) (SupportedTypes lst) Any
  | [] => settles_pure trivial
  | t :: lst =>
    ((simplTypeExpression_settles t).consRev (simplTypeExpressions_settles lst)).mono
      -- what the tuple pattern holds is a variable
      fun _ _ => trivial

/-- The parts of a product are simplified from the left, and the first that fails decides. -/
theorem simplListTypeExpression_settles :
    ∀ p, Settles (simplListTypeExpression p) (SafeProduct p) (SupportedProduct p) Any
  | ⟨hd, []⟩ => (simplTypeExpression_settles hd).congr
      (by simp [SafeProduct, SafeTypes]) (by simp [SupportedProduct, SupportedTypes])
  | ⟨hd, t :: tl⟩ =>
    ((simplTypeExpression_settles hd).consRev (simplTypeExpressions_settles (t :: tl))).map
      fun _ _ => trivial

theorem simplFieldDecl_settles :
    ∀ x, Settles (simplFieldDecl x) (SafeFieldDecl x) (SupportedFieldDecl x) Any
  | .mk _ t => (simplTypeExpression_settles t).map fun _ _ => trivial

theorem simplFieldDecls_settles :
    ∀ lst, Settles (simplFieldDecls lst) (SafeFieldDecls lst) (SupportedFieldDecls lst) Any
  | [] => settles_pure trivial
  | x :: lst =>
    ((simplFieldDecl_settles x).consRev (simplFieldDecls_settles lst)).mono fun _ _ => trivial

/-- A variant without arguments asks for the simplification of an empty product, which raises.
-/
theorem simplVariant_settles :
    ∀ v, Settles (simplVariant v) (SafeVariant v) (SupportedVariant v) Any
  | .mk _ none => settles_raise _
  | .mk _ (some product) => (simplListTypeExpression_settles product).map fun _ _ => trivial

theorem simplVariants_settles :
    ∀ lst, Settles (simplVariants lst) (SafeVariants lst) (SupportedVariants lst) Any
  | [] => settles_pure trivial
  | v :: lst =>
    ((simplVariant_settles v).consRev (simplVariants_settles lst)).mono fun _ _ => trivial

end

/-! ### Lists that are mapped -/

section Lists

variable {α β : Type} {f : α → Raising β} {S A : α → Prop} {Q : α → β → Prop}

/-- `bind_map_list`: every element is simplified before the first error is returned, so every
element has to be safe. -/
theorem mapList_settles : ∀ {lst : List α}, (∀ x ∈ lst, Settles (f x) (S x) (A x) (Q x)) →
    Settles (mapList f lst) (∀ x ∈ lst, S x) (∀ x ∈ lst, A x) (List.Forall₂ Q lst)
  | [], _ => (settles_pure .nil).congr (by simp) (by simp)
  | x :: lst, h => by
    have hx := h x List.mem_cons_self
    have hlst := mapList_settles fun y hy => h y (List.mem_cons_of_mem x hy)
    refine ((hx.cons hlst).mono ?_).congr (by simp) (by simp)
    rintro _ ⟨a, as, rfl, ha, has⟩
    exact .cons ha has

/-- The same for the fold that simplifies the elements from the last to the first. -/
theorem mapListRev_settles : ∀ {lst : List α}, (∀ x ∈ lst, Settles (f x) (S x) (A x) (Q x)) →
    Settles (mapListRev f lst) (∀ x ∈ lst, S x) (∀ x ∈ lst, A x) (List.Forall₂ Q lst)
  | [], _ => (settles_pure .nil).congr (by simp) (by simp)
  | x :: lst, h => by
    have hx := h x List.mem_cons_self
    have hlst := mapListRev_settles fun y hy => h y (List.mem_cons_of_mem x hy)
    refine ((hx.consRev hlst).mono ?_).congr (by simp) (by simp)
    rintro _ ⟨a, as, rfl, ha, has⟩
    exact .cons ha has

end Lists

/-! ### Patterns -/

def IsVar : Pattern → Prop
  | .pVar _ => True
  | _ => False

/-- A constructor with a variable. -/
def IsConstr : Pattern → Prop
  | .pConstr _ p => ∃ v, getTuple p = [.pVar v]
  | _ => False

/-- Patterns of clauses that make a match, in either order where there are two. -/
def IsMatch : List Pattern → Prop
  | [.pFalse, .pTrue] | [.pTrue, .pFalse] => True
  | [.pSome v, .pNone] | [.pNone, .pSome v] => IsVar v
  | [.pCons c, .pNil] | [.pNil, .pCons c] => ∃ a b, c = ⟨a, [b]⟩ ∧ IsVar a ∧ IsVar b
  | lst => ∀ p ∈ lst, IsConstr p

/-- Every pattern has one component, and the components make a match. -/
def SupportedCases (ps : List Pattern) : Prop :=
  ∃ qs, List.Forall₂ (fun p q => getTuple p = [q]) ps qs ∧ IsMatch qs

/-- The helpers that read patterns return errors and never raise. -/
theorem getVar_settles (p : Pattern) : Settles (getVar p) True (IsVar p) Any := by
  unfold getVar
  split
  · exact settles_pure trivial
  · rename_i h
    refine (settles_fail _).congr Iff.rfl fun _ => ?_
    cases p <;> first | exact absurd rfl (h _) | exact Iff.rfl

theorem assertSingle_settles {α : Type} (title : String) (lst : List α) :
    Settles (assertSingle title lst) True (lst.length = 1) (fun _ => lst.length = 1) := by
  unfold assertSingle
  by_cases hlen : lst.length = 1
  · rw [if_pos hlen]
    exact settles_lift (by simp [traceStrong, hlen]) fun _ _ => hlen
  · rw [if_neg hlen]
    exact settles_lift (by simp [traceStrong, simpleFail, hlen]) nofun

/-- The head of a list of which the length has been checked. -/
theorem single_settles (title : String) (p : Pattern) :
    Settles (do assertSingle title (getTuple p); head (getTuple p)) True
      (∃ q, getTuple p = [q]) (fun q => getTuple p = [q]) := by
  have hhead : ∀ _ : Unit, (getTuple p).length = 1 →
      Settles (head (getTuple p)) True True (fun q => getTuple p = [q]) := by
    intro _ hlen
    obtain ⟨q, hq⟩ := List.length_eq_one_iff.1 hlen
    rw [hq]
    exact settles_pure rfl
  exact ((assertSingle_settles title _).bind hhead).congr (by simp)
    (by simp [List.length_eq_one_iff])

/-- What is kept of the pattern of a clause: the only part of its tuple. -/
theorem clausePattern_settles {α : Type} (x : Pattern × α) :
    Settles (clausePattern x) True (∃ q, getTuple x.1 = [q])
      (fun y => getTuple x.1 = [y.1] ∧ y.2 = x.2) := by
  have h := single_settles "no tuple in patterns yet" x.1
  have hmap : Settles (do let p ← (do assertSingle _ _; head _); return (p, x.2)) _ _
      (fun y : Pattern × α => getTuple x.1 = [y.1] ∧ y.2 = x.2) := h.map fun q hq => ⟨hq, rfl⟩
  rwa [bind_assoc] at hmap

theorem getConstr_settles (p : Pattern) : Settles (getConstr p) True (IsConstr p) Any := by
  unfold getConstr
  split
  · rename_i constr p
    have hvar : ∀ v, getTuple p = [v] →
        Settles (do let var ← getVar v; return (constr, var)) True
          (∃ var, getTuple p = [.pVar var]) Any := by
      intro v hv
      refine ((getVar_settles v).map fun _ _ => trivial).congr Iff.rfl fun _ => ?_
      rw [hv]
      cases v <;> simp [IsVar]
    refine ((single_settles "not single" p).bind hvar).congr (by simp) fun _ => ?_
    constructor
    · exact fun h => h.2
    · rintro ⟨var, h⟩
      exact ⟨⟨_, h⟩, var, h⟩
  · rename_i h
    refine (settles_fail _).congr Iff.rfl fun _ => ?_
    cases p <;> first | exact absurd rfl (h _ _) | exact Iff.rfl

theorem clauseConstr_settles {α : Type} (x : Pattern × α) :
    Settles (clauseConstr x) True (IsConstr x.1) Any :=
  ((getConstr_settles x.1).trace "Pattern").map fun _ _ => trivial

theorem getConsVars_settles (c : Nseq Pattern) :
    Settles (getConsVars c) True (∃ a b, c = ⟨a, [b]⟩ ∧ IsVar a ∧ IsVar b) Any := by
  -- only a head and one tail, both variables
  unfold getConsVars
  split
  · rename_i a b
    refine ((getVar_settles a).bind fun _ _ => (getVar_settles b).map fun _ _ => trivial).congr
      (by simp) fun _ => ?_
    constructor
    · exact fun h => ⟨a, b, rfl, h⟩
    · rintro ⟨_, _, ⟨⟩, h⟩
      exact h
  · rename_i h
    refine (settles_fail _).congr Iff.rfl fun _ => ?_
    constructor
    · exact False.elim
    · rintro ⟨a, b, rfl, -⟩
      exact h a b rfl

/-- Two clauses with given patterns. -/
theorem eq_pair_of_map_fst {lst : List (Pattern × Expression)} {p q : Pattern}
    (h : lst.map Prod.fst = [p, q]) : ∃ e e', lst = [(p, e), (q, e')] := by
  match lst, h with
  | [(_, e), (_, e')], h =>
    cases h
    exact ⟨e, e', rfl⟩

/-- Clauses that are of none of the special forms. -/
theorem isMatch_default {lst : List (Pattern × Expression)}
    (hbool : ∀ f t, lst = [(.pFalse, f), (.pTrue, t)] → False)
    (hbool' : ∀ t f, lst = [(.pTrue, t), (.pFalse, f)] → False)
    (hoption : ∀ v s n, lst = [(.pSome v, s), (.pNone, n)] → False)
    (hoption' : ∀ n v s, lst = [(.pNone, n), (.pSome v, s)] → False)
    (hlist : ∀ c s n, lst = [(.pCons c, s), (.pNil, n)] → False)
    -- every other shape of two clauses has been treated, so the clauses are of constructors
    (hlist' : ∀ n c s, lst = [(.pNil, n), (.pCons c, s)] → False) :
    IsMatch (lst.map Prod.fst) ↔ ∀ x ∈ lst, IsConstr x.1 := by
  unfold IsMatch
  split
  case h_7 => simp
  all_goals
    rename_i h
    obtain ⟨e, e', heq⟩ := eq_pair_of_map_fst h
    exfalso
    first
      | exact hbool _ _ heq
      | exact hbool' _ _ heq
      | exact hoption _ _ _ heq
      | exact hoption' _ _ _ heq
      | exact hlist _ _ _ heq
      | exact hlist' _ _ _ heq

/-- The rows of `matching` for options: anything but a variable within `Some` is an error. -/
theorem matchOption_settles (v : Pattern) (none' some' : Expression) :
    Settles (match v with
      | .pVar v => pure (.matchOption none' v some')
      | _ => lift (simpleFail "complex none patterns not supported yet") :
        Raising AstSimplified.MatchingExpr) True (IsVar v) Any := by
  split
  · exact settles_pure trivial
  · rename_i h
    refine (settles_fail _).congr Iff.rfl fun _ => ?_
    cases v <;> first | exact absurd rfl (h _) | exact Iff.rfl

/-- Whatever the patterns are, putting a match together returns; it succeeds on the lists of
patterns that make a match. -/
theorem matchPatterns_settles (lst : List (Pattern × Expression)) :
    Settles (matchPatterns lst) True (IsMatch (lst.map Prod.fst)) Any := by
  unfold matchPatterns
  split
  · exact settles_pure trivial
  · exact settles_pure trivial
  · exact matchOption_settles _ _ _
  · exact matchOption_settles _ _ _
  · exact (getConsVars_settles _).map fun _ _ => trivial
  · exact (getConsVars_settles _).map fun _ _ => trivial
  · rename_i hbool hbool' hoption hoption' hlist hlist'
    have hconstrs := mapList_settles fun x (_ : x ∈ lst) => clauseConstr_settles x
    refine ((hconstrs.map fun _ _ => trivial).trace _).congr (by simp) fun _ => ?_
    exact (isMatch_default hbool hbool' hoption hoption' hlist hlist').symm

/-- A match never raises. -/
theorem simplCases_settles (t : List (Pattern × Expression)) :
    Settles (simplCases t) True (SupportedCases (t.map Prod.fst)) Any := by
  -- the patterns are taken out of their parentheses before the match is built
  have hpatterns := mapList_settles fun x (_ : x ∈ t) => clausePattern_settles x
  have hmatch : ∀ lst, List.Forall₂ (fun x y => getTuple x.1 = [y.1] ∧ y.2 = x.2) t lst →
      Settles (matchPatterns lst) True (SupportedCases (t.map Prod.fst)) Any := by
    intro lst hlst
    refine (matchPatterns_settles lst).congr Iff.rfl fun _ => ?_
    have hcomponents : List.Forall₂ (fun p q => getTuple p = [q]) (t.map Prod.fst)
        (lst.map Prod.fst) := by
      rw [List.forall₂_map_left_iff, List.forall₂_map_right_iff]
      exact hlst.imp fun x y h => h.1
    constructor
    · exact fun h => ⟨_, hcomponents, h⟩
    · rintro ⟨qs, hqs, h⟩
      -- the component of a pattern is unique, so both conditions speak of the same patterns
      have hunique : Relator.RightUnique fun (p q : Pattern) => getTuple p = [q] := by
        intro p q q' hq hq'
        exact List.head_eq_of_cons_eq (hq.symm.trans hq')
      rwa [List.right_unique_forall₂' hunique hcomponents hqs]
  refine (hpatterns.bind hmatch).congr (by simp) fun _ => ?_
  constructor
  · exact fun h => h.2
  · rintro ⟨qs, hqs, h⟩
    rw [List.forall₂_map_left_iff] at hqs
    have hsingle := (List.forall₂_and_left _ _).1
      (hqs.imp fun x q hq => (⟨⟨q, hq⟩, hq⟩ : (∃ q, getTuple x.1 = [q]) ∧ getTuple x.1 = [q]))
    exact ⟨hsingle.1, qs, List.forall₂_map_left_iff.2 hqs, h⟩

/-! ### Expressions -/

/-- The integers of the host. -/
def InRange (n : ℤ) : Prop := -2 ^ 62 ≤ n ∧ n < 2 ^ 62

instance (n : ℤ) : Decidable (InRange n) := inferInstanceAs (Decidable (_ ∧ _))

def SafeSelection : Selection → Prop
  | .fieldName _ => True
  | .component index => InRange index

def SafeProjection (p : Projection) : Prop := ∀ s ∈ p.fieldPath.toList, SafeSelection s

def SafePath : Path → Prop
  | .name _ => True
  | .path p => SafeProjection p

mutual

/-- The simplifier has a rule for every construct that it comes to. -/
def SupportedExpr : Expr → Prop
  | .eAnnot expr typeExpr => SupportedExpr expr ∧ SupportedType typeExpr
  | .eVar _ | .eUnit | .eBytes _ | .eProj _ | .eNoneExpr | .eInt _ | .eNat _ | .eMtz _
  | .eString _ | .eBool _ | .eNil => True
  | .eCall _ args | .eConstrApp _ args | .eSomeApp args | .eTuple args => SupportedArgs args
  | .ePar inside => SupportedExpr inside
  | .eRecord elements => SupportedFields elements
  | .eArith _ a b | .eLogic _ a b | .eCons a b => SupportedExpr a ∧ SupportedExpr b
  | .eNeg _ | .eCat _ _ | .eSet => False
  | .eNot a => SupportedExpr a
  | .eList elements => SupportedExprs elements
  | .eCase expr ⟨hd, tl⟩ =>
    SupportedExpr expr ∧ (SupportedClause hd ∧ SupportedClauses tl) ∧
      SupportedCases (hd.pattern :: tl.map CaseClause.pattern)
  | .eMapInj elements => SupportedBindings elements
  | .eMapLookUp _ index => SupportedExpr index

def SupportedExprs : List Expr → Prop
  | [] => True
  | e :: lst => SupportedExpr e ∧ SupportedExprs lst

def SupportedArgs : Nseq Expr → Prop
  | ⟨hd, tl⟩ => SupportedExpr hd ∧ SupportedExprs tl

def SupportedField : String × Expr → Prop
  | (_, v) => SupportedExpr v

def SupportedFields : List (String × Expr) → Prop
  | [] => True
  | x :: lst => SupportedField x ∧ SupportedFields lst

def SupportedBinding : Expr × Expr → Prop
  | (source, image) => SupportedExpr source ∧ SupportedExpr image

def SupportedBindings : List (Expr × Expr) → Prop
  | [] => True
  | x :: lst => SupportedBinding x ∧ SupportedBindings lst

def SupportedClause : CaseClause Expr → Prop
  | ⟨_, rhs⟩ => SupportedExpr rhs

def SupportedClauses : List (CaseClause Expr) → Prop
  | [] => True
  | x :: lst => SupportedClause x ∧ SupportedClauses lst

end

mutual

/-- The types that the simplifier comes to are safe, and the numbers are in range. -/
def SafeExpr : Expr → Prop
  | .eAnnot expr typeExpr => SafeExpr expr ∧ (SupportedExpr expr → SafeType typeExpr)
  | .eVar _ | .eUnit | .eBytes _ | .eNoneExpr | .eString _ | .eBool _ | .eNil | .eNeg _
  | .eCat _ _ | .eSet => True
  | .eProj p => SafeProjection p
  | .eInt n | .eNat n | .eMtz n => InRange n
  | .eCall _ args | .eConstrApp _ args | .eSomeApp args | .eTuple args => SafeArgs args
  | .ePar inside => SafeExpr inside
  | .eRecord elements => SafeFields elements
  | .eArith _ a b | .eLogic _ a b | .eCons a b => SafeExpr a ∧ (SupportedExpr a → SafeExpr b)
  | .eNot a => SafeExpr a
  | .eList elements => SafeExprs elements
  | .eCase expr ⟨hd, tl⟩ => SafeExpr expr ∧ (SupportedExpr expr → SafeClause hd ∧ SafeClauses tl)
  | .eMapInj elements => SafeBindings elements
  | .eMapLookUp path index => SafePath path ∧ SafeExpr index

def SafeExprs : List Expr → Prop
  | [] => True
  | e :: lst => SafeExpr e ∧ SafeExprs lst

def SafeArgs : Nseq Expr → Prop
  | ⟨hd, tl⟩ => SafeExpr hd ∧ SafeExprs tl

def SafeField : String × Expr → Prop
  | (_, v) => SafeExpr v

def SafeFields : List (String × Expr) → Prop
  | [] => True
  | x :: lst => SafeField x ∧ SafeFields lst

def SafeBinding : Expr × Expr → Prop
  | (source, image) => SafeExpr source ∧ (SupportedExpr source → SafeExpr image)

def SafeBindings : List (Expr × Expr) → Prop
  | [] => True
  | x :: lst => SafeBinding x ∧ SafeBindings lst

def SafeClause : CaseClause Expr → Prop
  | ⟨_, rhs⟩ => SafeExpr rhs

def SafeClauses : List (CaseClause Expr) → Prop
  | [] => True
  | x :: lst => SafeClause x ∧ SafeClauses lst

end

/-- `Z.to_int` raises outside the range of OCaml's integers. -/
theorem zToInt_settles (n : ℤ) : Settles (zToInt n) (InRange n) True Any := by
  unfold zToInt OInt.ofInt
  by_cases h : -2 ^ 62 ≤ n ∧ n < 2 ^ 62
  · rw [dif_pos h]
    exact (settles_pure trivial).congr (iff_of_true trivial h) fun _ => Iff.rfl
  · rw [dif_neg h]
    have hraise : Settles (raise .overflow) False True (Any : OInt → Prop) := settles_raise _
    exact hraise.congr (iff_of_false id h) fun _ => Iff.rfl

/-- Cutting off the quotes of a string. -/
theorem stringSub_settles (s : StringLexeme) :
    Settles (stringSub s.value 1 (s.value.length - 2)) True True Any := by
  obtain ⟨body, hbody⟩ := s.quoted
  have hlen : s.value.length = body.length + 2 := by
    rw [← String.length_toList, hbody]
    simp
  unfold stringSub
  rw [if_pos (by omega)]
  exact settles_pure trivial

theorem simplSelection_settles (s : Selection) :
    Settles (simplSelection s) (SafeSelection s) True Any := by
  cases s with
  | fieldName _ => exact settles_pure trivial
  | component index => exact (zToInt_settles index).map fun _ _ => trivial

/-- The components of a path are read from the last to the first, so any number that is out of
range raises. -/
theorem simplSelections_settles (p : Projection) :
    Settles (mapListRev simplSelection p.fieldPath.toList) (SafeProjection p) True Any :=
  ((mapListRev_settles fun s _ => simplSelection_settles s).mono fun _ _ => trivial).congr
    Iff.rfl (by simp)

theorem simplProjection_settles (p : Projection) :
    Settles (simplProjection p) (SafeProjection p) True Any :=
  (simplSelections_settles p).map fun _ _ => trivial

theorem simplPath_settles (p : Path) : Settles (simplPath p) (SafePath p) True Any := by
  cases p with
  | name _ => exact settles_pure trivial
  | path p => exact (simplSelections_settles p).map fun _ _ => trivial

mutual

/-- Expressions, by recursion on the source. An expression settles when its parts do, in the
order in which the simplifier takes them: a part that raises after an error of an earlier one is
never reached, so it may be unsafe. -/
theorem simplExpression_settles :
    ∀ e, Settles (simplExpression e) (SafeExpr e) (SupportedExpr e) Any
  | .eAnnot expr typeExpr =>
    -- the parts are simplified from the left to the right, as the source does
    (simplExpression_settles expr).bind fun _ _ =>
      (simplTypeExpression_settles typeExpr).map fun _ _ => trivial
  | .eVar c => by
    -- a variable may be a reserved name, which is a constant
    rw [simplExpression]
    split <;> exact settles_pure trivial
  | .eCall f args => by
    -- so may be the name of a function
    rw [simplExpression]
    split
    · exact (simplTupleExpression_settles args).map fun _ _ => trivial
    · exact (simplArguments_settles args).map fun _ _ => trivial
  | .ePar inside => simplExpression_settles inside
  | .eUnit => settles_pure trivial
  | .eBytes _ => settles_pure trivial
  | .eTuple tpl => simplTupleExpression_settles tpl
  | .eRecord elements => (simplFields_settles elements).map fun _ _ => trivial
  | .eProj p => simplProjection_settles p
  | .eConstrApp _ args => (simplTupleExpression_settles args).map fun _ _ => trivial
  | .eSomeApp args => (simplTupleExpression_settles args).map fun _ _ => trivial
  | .eNoneExpr => settles_pure trivial
  | .eArith _ a b =>
    (simplExpression_settles a).bind fun _ _ =>
      (simplExpression_settles b).map fun _ _ => trivial
  -- the conversion of the number is what may overflow
  | .eInt n => (zToInt_settles n).map fun _ _ => trivial
  | .eNat n => (zToInt_settles n).map fun _ _ => trivial
  | .eMtz n => (zToInt_settles n).map fun _ _ => trivial
  | .eNeg _ => settles_fail _
  | .eString s => (stringSub_settles s).map fun _ _ => trivial
  | .eCat _ _ => settles_fail _
  | .eLogic _ a b =>
    (simplExpression_settles a).bind fun _ _ =>
      (simplExpression_settles b).map fun _ _ => trivial
  | .eNot a => (simplExpression_settles a).map fun _ _ => trivial
  | .eBool _ => settles_pure trivial
  | .eCons a b =>
    (simplExpression_settles a).bind fun _ _ =>
      (simplExpression_settles b).map fun _ _ => trivial
  | .eList elements => (simplElements_settles elements).map fun _ _ => trivial
  | .eNil => settles_pure trivial
  | .eSet => settles_fail _
  | .eCase expr ⟨hd, tl⟩ => by
    rw [simplExpression]
    -- the clauses come in reverse, the patterns of the match do not
    have hclauses := (simplClause_settles hd).consRev (simplClauses_settles tl)
    have hcases : ∀ lst : List (Pattern × Expression),
        (∃ x xs, lst = x :: xs ∧ x.1 = hd.pattern ∧
          xs.map Prod.fst = tl.map CaseClause.pattern) →
        Settles (simplCases lst) True
          (SupportedCases (hd.pattern :: tl.map CaseClause.pattern)) Any := by
      rintro _ ⟨x, xs, rfl, hx, hxs⟩
      have h := simplCases_settles (x :: xs)
      rwa [List.map_cons, hx, hxs] at h
    exact ((simplExpression_settles expr).bind fun _ _ => hclauses.bind fun lst hlst =>
      (hcases lst hlst).map fun _ _ => trivial).congr (by simp [SafeExpr]) (by simp [SupportedExpr])
  | .eMapInj elements => (simplBindings_settles elements).map fun _ _ => trivial
  -- only a map that is a name is looked up without reading a path
  | .eMapLookUp (.name _) index =>
    ((simplExpression_settles index).map fun _ _ => trivial).congr
      (by simp [SafeExpr, SafePath]) fun _ => Iff.rfl
  | .eMapLookUp (.path p) index =>
    ((simplProjection_settles p).bind fun _ _ =>
      (simplExpression_settles index).map fun _ _ => trivial).congr
      (by simp [SafeExpr, SafePath]) (by simp [SupportedExpr])

/-- The elements of a list in their order. -/
theorem simplExpressions_settles :
    ∀ lst, Settles (simplExpressions lst) (SafeExprs lst) (SupportedExprs lst) Any
  | [] => settles_pure trivial
  | e :: lst =>
    ((simplExpression_settles e).consRev (simplExpressions_settles lst)).mono fun _ _ => trivial

/-- A single component is the expression itself and not a tuple. -/
theorem simplTupleExpression_settles :
    ∀ args, Settles (simplTupleExpression args) (SafeArgs args) (SupportedArgs args) Any
  | ⟨hd, []⟩ => (simplExpression_settles hd).congr
      (by simp [SafeArgs, SafeExprs]) (by simp [SupportedArgs, SupportedExprs])
  | ⟨hd, e :: tl⟩ =>
    ((simplExpression_settles hd).consRev (simplExpressions_settles (e :: tl))).map
      fun _ _ => trivial

/-- The elements that `bind_map_list` simplifies: all of them, whatever fails before. -/
theorem simplElements_settles :
    ∀ lst, Settles (simplElements lst) (SafeExprs lst) (SupportedExprs lst) Any
  | [] => settles_pure trivial
  | e :: lst =>
    ((simplExpression_settles e).cons (simplElements_settles lst)).mono fun _ _ => trivial

/-- The arguments of a call, which are a tuple where there are several. -/
theorem simplArguments_settles :
    ∀ args, Settles (simplArguments args) (SafeArgs args) (SupportedArgs args) Any
  | ⟨hd, tl⟩ =>
    ((simplExpression_settles hd).cons (simplElements_settles tl)).mono fun _ _ => trivial

theorem simplField_settles :
    ∀ x, Settles (simplField x) (SafeField x) (SupportedField x) Any
  | (_, v) => (simplExpression_settles v).map fun _ _ => trivial

/-- The fields of a record: a list without fields stays empty, which the patch of a record asks
for. -/
theorem simplFields_settles :
    ∀ lst, Settles (simplFields lst) (SafeFields lst) (SupportedFields lst)
      (fun l => l = [] ↔ lst = [])
  | [] => settles_pure (by simp)
  | x :: lst =>
    ((simplField_settles x).consRev (simplFields_settles lst)).mono fun _ h => by
      obtain ⟨y, ys, rfl, -, -⟩ := h
      simp

theorem simplBinding_settles :
    ∀ x, Settles (simplBinding x) (SafeBinding x) (SupportedBinding x) Any
  | (source, image) =>
    (simplExpression_settles source).bind fun _ _ =>
      (simplExpression_settles image).map fun _ _ => trivial

theorem simplBindings_settles :
    ∀ lst, Settles (simplBindings lst) (SafeBindings lst) (SupportedBindings lst) Any
  | [] => settles_pure trivial
  | x :: lst =>
    ((simplBinding_settles x).cons (simplBindings_settles lst)).mono fun _ _ => trivial

theorem simplClause_settles :
    ∀ x, Settles (simplClause x) (SafeClause x) (SupportedClause x) (fun y => y.1 = x.pattern)
  | ⟨_, rhs⟩ => (simplExpression_settles rhs).map fun _ _ => rfl

/-- The clauses of a case expression keep their patterns. -/
theorem simplClauses_settles :
    ∀ lst, Settles (simplClauses lst) (SafeClauses lst) (SupportedClauses lst)
      (fun l => l.map Prod.fst = lst.map CaseClause.pattern)
  | [] => settles_pure rfl
  | x :: lst =>
    ((simplClause_settles x).consRev (simplClauses_settles lst)).mono fun _ h => by
      obtain ⟨y, ys, rfl, hy, hys⟩ := h
      rw [List.map_cons, hy, hys, List.map_cons]

end

/-! ### Continuations -/

/-- The continuation of a statement is an expression when something comes after it, and also
when nothing does if the statement is complete. -/
def Continues (complete : Prop) (k : Continuation) : Prop :=
  ∀ o : Option Expression, Settles (k o) True (o.isSome ∨ complete) Any

/-- An instruction that ends a block continues with what comes after it, or is the result. -/
theorem ret_settles (expr : Expression) : Settles (ret expr) True True (Continues True) := by
  refine settles_pure fun o => ?_
  cases o <;> exact (settles_pure trivial).congr Iff.rfl (by simp)

/-- A declaration needs an expression after it. -/
theorem returnLetIn_settles (binder : String × Option TypeExpression) (rhs : Expression) :
    Settles (returnLetIn binder rhs) True True (Continues False) := by
  refine settles_pure fun o => ?_
  cases o with
  | none => exact (settles_fail _).congr Iff.rfl (by simp)
  | some expr' => exact (settles_pure trivial).congr Iff.rfl (by simp)

def IsInstr : Statement → Prop
  | .instr _ => True
  | .data _ => False

/-- The last statement is an instruction. -/
def Complete : List Statement → Prop
  | [] => True
  | [s] => IsInstr s
  | _ :: s :: lst => Complete (s :: lst)

/-- The continuation with nothing after it. -/
theorem Continues.alone {complete : Prop} {k : Continuation} (h : Continues complete k) :
    Settles (k none) True complete Any :=
  (h none).congr Iff.rfl (by simp)

/-- A block is complete when its last statement is. -/
theorem joinStatements_continues {ss : List Statement} {fs : List Continuation} (hne : ss ≠ [])
    (h : List.Forall₂ (fun s k => Continues (IsInstr s) k) ss fs) :
    Continues (Complete ss) (joinStatements fs) := by
  intro o
  have hfold : Settles (foldRightList (fun prec (cur : Continuation) => do
      let res ← cur prec
      return some res) o fs) True (o.isSome ∨ Complete ss)
      (fun ret => (ss = [] → ret = o) ∧ (ss ≠ [] → ret.isSome)) := by
    clear hne
    induction h with
    | nil => exact (settles_pure ⟨fun _ => rfl, by simp⟩).congr Iff.rfl (by simp [Complete])
    | @cons s k ss fs hk hks ih =>
      rw [foldRightList_cons]
      cases ss with
      | nil =>
        -- nothing but `o` comes after the last statement
        have hlast : ∀ ret, (([] : List Statement) = [] → ret = o) ∧
            (([] : List Statement) ≠ [] → ret.isSome) →
            Settles (do let res ← k ret; return some res) True (o.isSome ∨ IsInstr s)
              (fun ret => ([s] = [] → ret = o) ∧ ([s] ≠ [] → ret.isSome)) := by
          rintro ret ⟨hret, -⟩
          rw [hret rfl]
          exact (hk o).map fun _ _ => by simp
        exact (ih.bind hlast).congr (by simp) (by simp [Complete])
      | cons s' ss =>
        have hmore : ∀ ret, (s' :: ss = [] → ret = o) ∧ (s' :: ss ≠ [] → ret.isSome) →
            Settles (do let res ← k ret; return some res) True True
              (fun ret => (s :: s' :: ss = [] → ret = o) ∧ (s :: s' :: ss ≠ [] → ret.isSome)) := by
          rintro ret ⟨-, hret⟩
          refine ((hk ret).congr Iff.rfl fun _ => ?_).map fun _ _ => by simp
          simp [hret]
        exact (ih.bind hmore).congr (by simp) (by simp [Complete])
  have hopt : ∀ ret : Option Expression, (ss = [] → ret = o) ∧ (ss ≠ [] → ret.isSome) →
      Settles (unoptExn ret) True True Any := by
    rintro ret ⟨-, hret⟩
    obtain ⟨e, rfl⟩ := Option.isSome_iff_exists.1 (hret hne)
    exact settles_pure trivial
  exact (hfold.bind hopt).congr (by simp) (by simp)

/-! ### Statements -/

def SupportedData : DataDecl → Prop
  | .localVar x => SupportedType x.varType ∧ SupportedExpr x.init
  | .localConst x => SupportedType x.constType ∧ SupportedExpr x.init

def SafeData : DataDecl → Prop
  | .localVar x => SafeType x.varType ∧ (SupportedType x.varType → SafeExpr x.init)
  | .localConst x => SafeType x.constType ∧ (SupportedType x.constType → SafeExpr x.init)

def IsName : Path → Prop
  | .name _ => True
  | .path _ => False

def SupportedLhs : Lhs → Prop
  | .path _ => True
  | .mapPath path index => IsName path ∧ SupportedExpr index

def SafeLhs : Lhs → Prop
  | .path path => SafePath path
  | .mapPath path index => IsName path → SafeExpr index

def SupportedAssignment (lhs : Lhs) : Rhs → Prop
  | .expr e => SupportedExpr e ∧ SupportedLhs lhs
  | .noneExpr => False

def SafeAssignment (lhs : Lhs) : Rhs → Prop
  | .expr e => SafeExpr e ∧ (SupportedExpr e → SafeLhs lhs)
  | .noneExpr => True

/-- Without anything after it, an instruction is complete unless it is a block that is not. -/
def CompleteInstr : Instruction → Prop
  | .single _ => True
  | .block b => Complete b.toList

def CompleteIf : IfClause → Prop
  | .clauseInstr i => CompleteInstr i
  | .clauseBlock b => Complete b.toList

mutual

def SupportedStatement : Statement → Prop
  | .instr (.single s) => SupportedSingle s
  | .instr (.block _) => False
  | .data d => SupportedData d

def SupportedInstr : Instruction → Prop
  | .single s => SupportedSingle s
  | .block b => SupportedBlock b

def SupportedSingle : SingleInstr → Prop
  | .fail e => SupportedExpr e
  | .skip => True
  | .whileLoop cond block => SupportedExpr cond ∧ SupportedBlock block ∧ Complete block.toList
  | .cond test ifso ifnot =>
    SupportedExpr test ∧ SupportedIf ifso ∧ SupportedIf ifnot ∧ CompleteIf ifso ∧ CompleteIf ifnot
  | .assign lhs rhs => SupportedAssignment lhs rhs
  | .caseInstr expr ⟨hd, tl⟩ =>
    SupportedExpr expr ∧ (SupportedInstrClause hd ∧ SupportedInstrClauses tl) ∧
      SupportedCases (hd.pattern :: tl.map CaseClause.pattern)
  | .recordPatch _ recordInj => SupportedFields recordInj ∧ recordInj ≠ []
  | .mapRemove key map => IsName map ∧ SupportedExpr key
  | .procCall | .forLoop | .mapPatch | .setPatch | .setRemove => False

def SupportedIf : IfClause → Prop
  | .clauseInstr i => SupportedInstr i
  | .clauseBlock b => SupportedBlock b

def SupportedInstrClause : CaseClause Instruction → Prop
  | ⟨_, rhs⟩ => SupportedInstr rhs ∧ CompleteInstr rhs

def SupportedInstrClauses : List (CaseClause Instruction) → Prop
  | [] => True
  | x :: lst => SupportedInstrClause x ∧ SupportedInstrClauses lst

def SupportedBlock : Nseq Statement → Prop
  | ⟨hd, tl⟩ => SupportedStatement hd ∧ SupportedStatements tl

def SupportedStatements : List Statement → Prop
  | [] => True
  | s :: lst => SupportedStatement s ∧ SupportedStatements lst

end

mutual

def SafeStatement : Statement → Prop
  | .instr (.single s) => SafeSingle s
  | .instr (.block _) => True
  | .data d => SafeData d

def SafeInstr : Instruction → Prop
  | .single s => SafeSingle s
  | .block b => SafeBlock b

def SafeSingle : SingleInstr → Prop
  | .fail e => SafeExpr e
  | .whileLoop cond block => SafeExpr cond ∧ (SupportedExpr cond → SafeBlock block)
  | .cond test ifso ifnot =>
    SafeExpr test ∧ (SupportedExpr test → SafeIf ifso ∧ (SupportedIf ifso → SafeIf ifnot))
  | .assign lhs rhs => SafeAssignment lhs rhs
  | .caseInstr expr ⟨hd, tl⟩ =>
    SafeExpr expr ∧ (SupportedExpr expr → SafeInstrClause hd ∧ SafeInstrClauses tl)
  | .recordPatch path recordInj => SafePath path ∧ SafeFields recordInj
  | .mapRemove key map => IsName map → SafeExpr key
  | .skip | .procCall | .forLoop | .mapPatch | .setPatch | .setRemove => True

def SafeIf : IfClause → Prop
  | .clauseInstr i => SafeInstr i
  | .clauseBlock b => SafeBlock b

def SafeInstrClause : CaseClause Instruction → Prop
  | ⟨_, rhs⟩ => SafeInstr rhs

def SafeInstrClauses : List (CaseClause Instruction) → Prop
  | [] => True
  | x :: lst => SafeInstrClause x ∧ SafeInstrClauses lst

def SafeBlock : Nseq Statement → Prop
  | ⟨hd, tl⟩ => SafeStatement hd ∧ SafeStatements tl

def SafeStatements : List Statement → Prop
  | [] => True
  | s :: lst => SafeStatement s ∧ SafeStatements lst

end

/-- Constants and variables of a block. -/
theorem simplDataDeclaration_settles (d : DataDecl) :
    Settles (simplDataDeclaration d) (SafeData d) (SupportedData d) (Continues False) := by
  cases d with
  | localVar x =>
    exact ((simplTypeExpression_settles x.varType).bind fun t _ =>
      (simplExpression_settles x.init).bind fun e _ => returnLetIn_settles (x.name, some t) e).congr
      (by simp [SafeData]) (by simp [SupportedData])
  | localConst x =>
    exact ((simplTypeExpression_settles x.constType).bind fun t _ =>
      (simplExpression_settles x.init).bind fun e _ => returnLetIn_settles (x.name, some t) e).congr
      (by simp [SafeData]) (by simp [SupportedData])

/-- The expression that is assigned is simplified before the path or the key that it goes to. -/
theorem simplAssignment_settles (lhs : Lhs) (rhs : Rhs) :
    Settles (simplAssignment lhs rhs) (SafeAssignment lhs rhs) (SupportedAssignment lhs rhs)
      (Continues True) := by
  -- a `None` is rejected before the left-hand side is looked at
  cases rhs with
  | noneExpr =>
    exact settles_fail_bind _ _
  | expr e =>
    cases lhs with
    | path path =>
      exact ((simplExpression_settles e).bind fun v _ => (simplPath_settles path).bind
        fun x _ => ret_settles (.eAssign x.1 x.2 v)).congr
        (by simp [SafeAssignment, SafeLhs]) (by simp [SupportedAssignment, SupportedLhs])
    -- an entry of a map that is not a name is rejected after its value has been simplified
    | mapPath path index =>
      cases path with
      | name name =>
        exact ((simplExpression_settles e).bind fun v _ => (simplExpression_settles index).bind
          fun k _ => ret_settles
            (.eAssign name [] (.eConstant "MAP_UPDATE" [k, v, .eVariable name]))).congr
          (by simp [SafeAssignment, SafeLhs, IsName])
          (by simp [SupportedAssignment, SupportedLhs, IsName])
      | path p =>
        exact ((simplExpression_settles e).bind fun v _ => settles_fail_bind _ _).congr
          (by simp [SafeAssignment, SafeLhs, IsName])
          (by simp [SupportedAssignment, SupportedLhs, IsName])

/-- A patch of a record without fields is an error, which comes after those of the path. -/
theorem simplRecordPatch_settles (path : Path) (recordInj : List (String × Expr)) :
    Settles (simplRecordPatch path recordInj) (SafePath path ∧ SafeFields recordInj)
      (SupportedFields recordInj ∧ recordInj ≠ []) (Continues True) := by
  -- what is checked of the patch is checked of what it becomes
  refine ((simplPath_settles path).bind fun x _ => (simplFields_settles recordInj).bind
    fun inj (hinj : inj = [] ↔ recordInj = []) =>
      show Settles _ True (recordInj ≠ []) (Continues True) from ?_).congr (by simp) (by simp)
  cases inj with
  | nil => exact (settles_fail_bind _ _).congr Iff.rfl (by simp [hinj.1 rfl])
  | cons y ys => exact (ret_settles _).congr Iff.rfl (by simp [← hinj])

/-- A key is only simplified where the map is a name. -/
theorem simplMapRemove_settles (key : Expr) (map : Path) :
    Settles (simplMapRemove key map) (IsName map → SafeExpr key) (IsName map ∧ SupportedExpr key)
      (Continues True) := by
  cases map with
  | name v =>
    exact ((simplExpression_settles key).bind fun k _ =>
      ret_settles (.eAssign v [] (.eConstant "MAP_REMOVE" [k, .eVariable v]))).congr
      (by simp [IsName]) (by simp [IsName])
  | path p => exact (settles_fail_bind _ _).congr (by simp [IsName]) (by simp [IsName])

mutual

/-- Statements: instructions are complete by themselves, declarations are not. -/
theorem simplStatement_settles :
    ∀ s, Settles (simplStatement s) (SafeStatement s) (SupportedStatement s)
      (Continues (IsInstr s))
  | .instr (.single s) => (simplSingleInstruction_settles s).trace _
  | .instr (.block _) => (settles_fail _).trace _
  | .data d => simplDataDeclaration_settles d

theorem simplInstructionBlock_settles :
    ∀ i, Settles (simplInstructionBlock i) (SafeInstr i) (SupportedInstr i)
      (Continues (CompleteInstr i))
  | .single s => simplSingleInstruction_settles s
  | .block b => simplStatements_settles b

/-- Instructions, by recursion with the blocks inside them. -/
theorem simplSingleInstruction_settles :
    ∀ s, Settles (simplSingleInstruction s) (SafeSingle s) (SupportedSingle s) (Continues True)
  | .procCall => settles_fail _
  | .fail e =>
    ((simplExpression_settles e).bind fun e _ => ret_settles (.eFailwith e)).congr
      (by simp [SafeSingle]) (by simp [SupportedSingle])
  | .skip => ret_settles .eSkip
  | .whileLoop cond block =>
    -- the body of a loop is run to a continuation of its own
    ((simplExpression_settles cond).bind fun cond _ => (simplStatements_settles block).bind
      fun _ hbody => hbody.alone.bind fun body _ => ret_settles (.eLoop cond body)).congr
      (by simp [SafeSingle]) (by simp [SupportedSingle])
  | .forLoop => settles_fail _
  | .cond test ifso ifnot =>
    ((simplExpression_settles test).bind fun e _ => (simplIfClause_settles ifso).bind
      fun _ htrue => (simplIfClause_settles ifnot).bind fun _ hfalse =>
      htrue.alone.bind fun t _ => hfalse.alone.bind
      fun f _ => ret_settles (.eMatching e (.matchBool t f))).congr
      (by simp [SafeSingle]) (by simp [SupportedSingle])
  | .assign lhs rhs => simplAssignment_settles lhs rhs
  | .caseInstr expr ⟨hd, tl⟩ => by
    rw [simplSingleInstruction]
    -- the clauses are simplified to expressions, their patterns are kept
    have hclauses := (simplInstrClause_settles hd).consRev (simplInstrClauses_settles tl)
    have hcases : ∀ lst : List (Pattern × Expression),
        (∃ x xs, lst = x :: xs ∧ x.1 = hd.pattern ∧
          xs.map Prod.fst = tl.map CaseClause.pattern) →
        Settles (simplCases lst) True
          (SupportedCases (hd.pattern :: tl.map CaseClause.pattern)) Any := by
      rintro _ ⟨x, xs, rfl, hx, hxs⟩
      have h := simplCases_settles (x :: xs)
      rwa [List.map_cons, hx, hxs] at h
    exact ((simplExpression_settles expr).bind fun e _ => hclauses.bind fun lst hlst =>
      (hcases lst hlst).bind fun m _ => ret_settles (.eMatching e m)).congr
      (by simp [SafeSingle]) (by simp [SupportedSingle])
  | .recordPatch path recordInj => simplRecordPatch_settles path recordInj
  | .mapPatch => settles_fail _
  | .setPatch => settles_fail _
  | .mapRemove key map => simplMapRemove_settles key map
  | .setRemove => settles_fail _

theorem simplIfClause_settles :
    ∀ c, Settles (simplIfClause c) (SafeIf c) (SupportedIf c) (Continues (CompleteIf c))
  | .clauseInstr i => simplInstructionBlock_settles i
  | .clauseBlock b => simplStatements_settles b

theorem simplInstrClause_settles :
    ∀ x, Settles (simplInstrClause x) (SafeInstrClause x) (SupportedInstrClause x)
      (fun y => y.1 = x.pattern)
  | ⟨pattern, rhs⟩ =>
    ((simplInstructionBlock_settles rhs).bind fun _ hi => hi.alone.bind fun i _ =>
      settles_pure (a := (pattern, i)) rfl).congr
      (by simp [SafeInstrClause]) (by simp [SupportedInstrClause])

/-- The clauses of a case instruction keep their patterns. -/
theorem simplInstrClauses_settles :
    ∀ lst, Settles (simplInstrClauses lst) (SafeInstrClauses lst) (SupportedInstrClauses lst)
      (fun l => l.map Prod.fst = lst.map CaseClause.pattern)
  | [] => settles_pure rfl
  | x :: lst =>
    ((simplInstrClause_settles x).consRev (simplInstrClauses_settles lst)).mono fun _ h => by
      obtain ⟨y, ys, rfl, hy, hys⟩ := h
      rw [List.map_cons, hy, hys, List.map_cons]

/-- A block is complete when its last statement is an instruction. -/
theorem simplStatements_settles :
    ∀ b, Settles (simplStatements b) (SafeBlock b) (SupportedBlock b)
      (Continues (Complete b.toList))
  | ⟨hd, tl⟩ =>
    ((simplStatement_settles hd).cons (simplStatementList_settles tl)).map fun _ h => by
      obtain ⟨k, ks, rfl, hk, hks⟩ := h
      exact joinStatements_continues (List.cons_ne_nil hd tl) (.cons hk hks)

/-- One continuation for each statement, in their order. -/
theorem simplStatementList_settles :
    ∀ lst, Settles (simplStatementList lst) (SafeStatements lst) (SupportedStatements lst)
      (List.Forall₂ (fun s k => Continues (IsInstr s) k) lst)
  | [] => settles_pure .nil
  | s :: lst =>
    ((simplStatement_settles s).cons (simplStatementList_settles lst)).mono fun _ h => by
      obtain ⟨k, ks, rfl, hk, hks⟩ := h
      exact .cons hk hks

end

/-! ### Declarations -/

def SupportedParam : ParamDecl → Prop
  | .paramConst c => SupportedType c.paramType
  | .paramVar v => SupportedType v.paramType

def SafeParam : ParamDecl → Prop
  | .paramConst c => SafeType c.paramType
  | .paramVar v => SafeType v.paramType

mutual

def SupportedFun : FunDecl → Prop
  | .mk _ param retType localDecls block return' =>
    (∀ p ∈ param.toList, SupportedParam p) ∧ SupportedLocals localDecls ∧
      (∀ s ∈ block.toList, SupportedStatement s) ∧ SupportedExpr return' ∧ SupportedType retType

def SupportedLocal : LocalDecl → Prop
  | .localLam (.funDecl f) => SupportedFun f
  | .localLam .procDecl | .localLam .entryDecl => False
  | .localData d => SupportedData d

def SupportedLocals : List LocalDecl → Prop
  | [] => True
  | d :: lst => SupportedLocal d ∧ SupportedLocals lst

end

mutual

def SafeFun : FunDecl → Prop
  | .mk _ param retType localDecls block return' =>
    (∀ p ∈ param.toList, SafeParam p) ∧ ((∀ p ∈ param.toList, SupportedParam p) →
      SafeLocals localDecls ∧ (SupportedLocals localDecls →
        (∀ s ∈ block.toList, SafeStatement s) ∧ ((∀ s ∈ block.toList, SupportedStatement s) →
          SafeExpr return' ∧ (SupportedExpr return' → SafeType retType))))

def SafeLocal : LocalDecl → Prop
  | .localLam (.funDecl f) => SafeFun f
  | .localLam .procDecl | .localLam .entryDecl => True
  | .localData d => SafeData d

def SafeLocals : List LocalDecl → Prop
  | [] => True
  | d :: lst => SafeLocal d ∧ SafeLocals lst

end

def SafeDeclaration : Ligo.Pascaligo.Raw.Declaration → Prop
  | .typeDecl _ typeExpr => SafeType typeExpr
  | .constDecl x => SafeExpr x.init ∧ (SupportedExpr x.init → SafeType x.constType)
  | .lambdaDecl (.funDecl f) => SafeFun f
  | .lambdaDecl .procDecl | .lambdaDecl .entryDecl => True

def SupportedDeclaration : Ligo.Pascaligo.Raw.Declaration → Prop
  | .typeDecl _ typeExpr => SupportedType typeExpr
  | .constDecl x => SupportedExpr x.init ∧ SupportedType x.constType
  | .lambdaDecl (.funDecl f) => SupportedFun f
  | .lambdaDecl .procDecl | .lambdaDecl .entryDecl => False

/-- Every declaration is safe; all of them are simplified, also after an error. -/
def Safe (t : Ast) : Prop := ∀ d ∈ t.decl.toList, SafeDeclaration d

/-- What follows from being related to something holds of all elements of the second list. -/
theorem forall_of_forall₂ {α β : Type} {R : α → β → Prop} {P : β → Prop} {xs : List α}
    {ys : List β} (h : List.Forall₂ R xs ys) (hP : ∀ x y, R x y → P y) : ∀ y ∈ ys, P y := by
  induction h with
  | nil => simp
  | cons hxy _ ih => exact List.forall_mem_cons.2 ⟨hP _ _ hxy, ih⟩

/-- A continuation with something after it. -/
def Accepts (k : Continuation) : Prop := ∀ e, Settles (k (some e)) True True Any

/-- A continuation returns for what comes after it. -/
theorem Continues.accepts {complete : Prop} {k : Continuation} (h : Continues complete k) :
    Accepts k :=
  fun e => (h (some e)).congr Iff.rfl (by simp)

theorem simplParam_settles (p : ParamDecl) :
    Settles (simplParam p) (SafeParam p) (SupportedParam p) Any := by
  cases p with
  | paramConst c => exact (simplTypeExpression_settles c.paramType).map fun _ _ => trivial
  | paramVar v => exact (simplTypeExpression_settles v.paramType).map fun _ _ => trivial

/-- The statements of a block, each of them before the ones after it. -/
theorem simplStatementsRev_settles (block : Nseq Statement) :
    Settles (mapListRev simplStatement block.toList) (∀ s ∈ block.toList, SafeStatement s)
      (∀ s ∈ block.toList, SupportedStatement s) (fun ks => ∀ k ∈ ks, Accepts k) := by
  refine (mapListRev_settles fun s _ => simplStatement_settles s).mono fun ks h => ?_
  exact forall_of_forall₂ h fun s k hk => hk.accepts

/-- The declarations that take the tuple of arguments apart return for every list of parameters.
-/
theorem tplDeclarations_settles (argumentsName : String) (params : List (String × TypeExpression)) :
    Settles (mapListRev id (params.mapIdx (tplDeclaration argumentsName))) True True
      (fun ks => ∀ k ∈ ks, Accepts k) := by
  have h : ∀ x ∈ params.mapIdx (tplDeclaration argumentsName), Settles (id x) True True Accepts := by
    intro x hx
    obtain ⟨i, hi, rfl⟩ := List.mem_mapIdx.1 hx
    exact (returnLetIn_settles _ _).mono fun _ hk => hk.accepts
  refine ((mapListRev_settles h).mono fun ks hks => ?_).congr (by simp) (by simp)
  exact forall_of_forall₂ hks fun _ k hk => hk

/-- The body of a function is folded from its continuations, each of which accepts the
expression after it. -/
theorem funBinding_settles (name binder : String) (inputType outputType : TypeExpression)
    {body : List Continuation} (result : Expression) (h : ∀ k ∈ body, Accepts k) :
    Settles (funBinding name binder inputType outputType body result) True True Any := by
  have hfold : Settles (foldRightList (fun prec (cur : Continuation) => cur (some prec))
      result body) True True Any := by
    induction body with
    | nil => exact settles_pure trivial
    | cons k ks ih =>
      obtain ⟨hk, hks⟩ := List.forall_mem_cons.1 h
      rw [foldRightList_cons]
      exact ((ih hks).bind fun e _ => hk e).congr (by simp) (by simp)
  exact hfold.map fun _ _ => trivial

mutual

/-- Local declarations: functions are simplified like those at the top. -/
theorem simplLocalDeclaration_settles :
    ∀ d, Settles (simplLocalDeclaration d) (SafeLocal d) (SupportedLocal d) Accepts
  | .localLam (.funDecl f) =>
    ((simplFunDeclaration_settles f).bind fun x _ =>
      (returnLetIn_settles x.1 x.2).mono fun _ hk => hk.accepts).congr
      (by simp [SafeLocal]) (by simp [SupportedLocal])
  | .localLam .procDecl => settles_fail _
  | .localLam .entryDecl => settles_fail _
  | .localData d => (simplDataDeclaration_settles d).mono fun _ hk => hk.accepts

theorem simplLocalDeclarations_settles :
    ∀ lst, Settles (simplLocalDeclarations lst) (SafeLocals lst) (SupportedLocals lst)
      (fun ks => ∀ k ∈ ks, Accepts k)
  | [] => settles_pure (by simp)
  | d :: lst =>
    ((simplLocalDeclaration_settles d).cons (simplLocalDeclarations_settles lst)).mono
      fun _ h => by
        obtain ⟨k, ks, rfl, hk, hks⟩ := h
        exact List.forall_mem_cons.2 ⟨hk, hks⟩

/-- Functions, with one argument or several. -/
theorem simplFunDeclaration_settles :
    ∀ f, Settles (simplFunDeclaration f) (SafeFun f) (SupportedFun f) Any
  -- one parameter is bound by the lambda itself
  | .mk name ⟨a, []⟩ retType localDecls block return' => by
    rw [simplFunDeclaration]
    refine ((simplParam_settles a).bind fun p _ => (simplLocalDeclarations_settles localDecls).bind
      fun locals hlocals => (simplStatementsRev_settles block).bind fun instrs hinstrs =>
      (simplExpression_settles return').bind fun e _ => (simplTypeExpression_settles retType).bind
      fun t _ => funBinding_settles name p.1 p.2 t e ?_).congr
      (by simp [SafeFun, Nseq.toList]) (by simp [SupportedFun, Nseq.toList])
    exact fun k hk => (List.mem_append.1 hk).elim (hlocals k) (hinstrs k)
  -- several parameters are read from a tuple named `arguments`
  | .mk name ⟨a, b :: tl⟩ retType localDecls block return' => by
    have hparams := mapList_settles fun p (_ : p ∈ a :: b :: tl) => simplParam_settles p
    refine (hparams.bind fun ps _ => (tplDeclarations_settles "arguments" ps).bind
      fun tpl htpl => (simplLocalDeclarations_settles localDecls).bind
      fun locals hlocals => (simplStatementsRev_settles block).bind fun instrs hinstrs =>
      (simplExpression_settles return').bind fun e _ => (simplTypeExpression_settles retType).bind
      fun t _ => funBinding_settles name "arguments" (.tTuple (ps.map Prod.snd)) t e ?_).congr
      (by simp [SafeFun, Nseq.toList]) (by simp [SupportedFun, Nseq.toList])
    intro k hk
    rcases List.mem_append.1 hk with hk | hk
    · exact (List.mem_append.1 hk).elim (htpl k) (hlocals k)
    · exact hinstrs k hk

end

/-- Declarations of a program. -/
theorem simplDeclaration_settles (d : Ligo.Pascaligo.Raw.Declaration) :
    Settles (simplDeclaration d) (SafeDeclaration d) (SupportedDeclaration d) Any := by
  match d with
  | .typeDecl name typeExpr =>
    exact (simplTypeExpression_settles typeExpr).map fun _ _ => trivial
  | .constDecl x =>
    exact (simplExpression_settles x.init).bind fun _ _ =>
      (simplTypeExpression_settles x.constType).map fun _ _ => trivial
  | .lambdaDecl (.funDecl f) => exact (simplFunDeclaration_settles f).map fun _ _ => trivial
  | .lambdaDecl .procDecl => exact settles_fail _
  | .lambdaDecl .entryDecl => exact settles_fail _

/-- **Exceptions of the simplifier.** It returns on exactly the safe programs. -/
theorem simplProgram_returns_iff (t : Ast) : Returns (simplProgram t) ↔ Safe t :=
  (mapListRev_settles fun d (_ : d ∈ t.decl.toList) => simplDeclaration_settles d).returns_iff

/-- `type t is A | B`. -/
def bareSum : Ast := ⟨⟨.typeDecl "t" (.tSum ⟨.mk "A" none, [.mk "B" none]⟩), []⟩⟩

/-- `const n : int = 4611686018427387904`. -/
def wideConst : Ast :=
  ⟨⟨.constDecl ⟨"n", .tProd ⟨.tAlias "int", []⟩, .eInt 4611686018427387904⟩, []⟩⟩

/-- An assertion fails on the first program, and an integer overflows on the second one. -/
theorem simplProgram_raises :
    simplProgram bareSum = raise .assertFailure ∧ simplProgram wideConst = raise .overflow ∧
      ¬ ∀ t, Returns (simplProgram t) := by
  have hbare : simplProgram bareSum = raise .assertFailure := rfl
  have hwide : simplProgram wideConst = raise .overflow := rfl
  refine ⟨hbare, hwide, fun h => ?_⟩
  obtain ⟨r, hr⟩ := h bareSum
  rw [hbare] at hr
  cases hr

end Ligo.Simplify.Pascaligo
