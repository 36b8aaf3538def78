import Ligo.AstTyped.Misc

/-!
# The names of an expression

`FreeNames` lists the names that an expression takes from its environment: its free
variables and, unlike `FreeVariables`, the names that it assigns to. The type checker
looks up both, so in a typed program a declaration takes the names of earlier declarations
only (`Closed`).

`Reads` says what it is for a variable to be read, without the lists of bound names:
`FreeVariables` lists the variables that are read (`FreeVariables.mem_iff_reads`).
-/

namespace Ligo.AstTyped

namespace FreeNames

mutual

def expression (b : List String) : Expression → List String
  | .eLambda l => lambda b l
  | .eLiteral _ => []
  | .eConstant _ lst => all b lst
  | .eVariable name => if name ∈ b then [] else [name]
  | .eApplication f arg => annotatedExpression b f ++ annotatedExpression b arg
  | .eTuple lst => all b lst
  | .eConstructor _ a => annotatedExpression b a
  | .eRecord m => fields b m
  | .eRecordAccessor a _ => annotatedExpression b a
  | .eTupleAccessor a _ => annotatedExpression b a
  | .eList lst => all b lst
  | .eMap m => entries b m
  | .eLookUp x y => annotatedExpression b x ++ annotatedExpression b y
  | .eMatching a cs => annotatedExpression b a ++ matching b cs
  | .eFailwith a => annotatedExpression b a
  | .eSequence x y => annotatedExpression b x ++ annotatedExpression b y
  | .eLoop expr body => annotatedExpression b expr ++ annotatedExpression b body
  | .eAssign typedName _ expr =>
    (if typedName.typeName ∈ b then [] else [typedName.typeName]) ++ annotatedExpression b expr
  | .eLetIn binder rhs result =>
    annotatedExpression (binder :: b) result ++ annotatedExpression b rhs

def annotatedExpression (b : List String) : AnnotatedExpression → List String
  | .mk e _ _ => expression b e

def lambda (b : List String) : Lambda → List String
  | .mk binder _ _ result => annotatedExpression (binder :: b) result

def matching (b : List String) : MatchingExpr → List String
  | .matchBool t f => annotatedExpression b t ++ annotatedExpression b f
  | .matchList n hd tl c => annotatedExpression b n ++ annotatedExpression (hd :: tl :: b) c
  | .matchOption n opt _ s => annotatedExpression b n ++ annotatedExpression (opt :: b) s
  | .matchTuple lst a => annotatedExpression (lst ++ b) a
  | .matchVariant lst _ => variantCases b lst

def all (b : List String) : List AnnotatedExpression → List String
  | [] => []
  | ae :: lst => annotatedExpression b ae ++ all b lst

def fields (b : List String) : List (String × AnnotatedExpression) → List String
  | [] => []
  | (_, ae) :: m => annotatedExpression b ae ++ fields b m

def entries (b : List String) : List (AnnotatedExpression × AnnotatedExpression) → List String
  | [] => []
  | (k, v) :: m => annotatedExpression b k ++ annotatedExpression b v ++ entries b m

def variantCases (b : List String) :
    List ((String × String) × AnnotatedExpression) → List String
  | [] => []
  | ((_, n), c) :: lst => annotatedExpression (n :: b) c ++ variantCases b lst

end

/-- No name is free in a list when none is free in its elements; fields, entries and clauses are
alike. -/
theorem all_eq_nil {b : List String} {lst : List AnnotatedExpression} :
    all b lst = [] ↔ ∀ ae ∈ lst, annotatedExpression b ae = [] := by
  induction lst with
  | nil => simp [all]
  | cons ae lst ih => rw [all, List.append_eq_nil_iff, ih, List.forall_mem_cons]

theorem fields_eq_nil {b : List String} {m : List (String × AnnotatedExpression)} :
    fields b m = [] ↔ ∀ x ∈ m, annotatedExpression b x.2 = [] := by
  induction m with
  | nil => simp [fields]
  | cons x m ih => rw [fields, List.append_eq_nil_iff, ih, List.forall_mem_cons]

theorem entries_eq_nil {b : List String}
    {m : List (AnnotatedExpression × AnnotatedExpression)} :
    entries b m = [] ↔
      ∀ x ∈ m, annotatedExpression b x.1 = [] ∧ annotatedExpression b x.2 = [] := by
  induction m with
  | nil => simp [entries]
  | cons x m ih =>
    rw [entries, List.append_eq_nil_iff, List.append_eq_nil_iff, ih, List.forall_mem_cons]

theorem variantCases_eq_nil {b : List String}
    {lst : List ((String × String) × AnnotatedExpression)} :
    variantCases b lst = [] ↔ ∀ x ∈ lst, annotatedExpression (x.1.2 :: b) x.2 = [] := by
  induction lst with
  | nil => simp [variantCases]
  | cons x lst ih => rw [variantCases, List.append_eq_nil_iff, ih, List.forall_mem_cons]

/-- A name is free in a list when it is free in one of its elements. -/
theorem mem_all {b : List String} {lst : List AnnotatedExpression} {x : String} :
    x ∈ all b lst ↔ ∃ ae ∈ lst, x ∈ annotatedExpression b ae := by
  induction lst with
  | nil => simp [all]
  | cons ae lst ih => rw [all, List.mem_append, ih, List.exists_mem_cons_iff]

theorem mem_fields {b : List String} {m : List (String × AnnotatedExpression)} {x : String} :
    x ∈ fields b m ↔ ∃ f ∈ m, x ∈ annotatedExpression b f.2 := by
  induction m with
  | nil => simp [fields]
  | cons f m ih => rw [fields, List.mem_append, ih, List.exists_mem_cons_iff]

theorem mem_entries {b : List String} {m : List (AnnotatedExpression × AnnotatedExpression)}
    {x : String} : x ∈ entries b m ↔
      ∃ k ∈ m, x ∈ annotatedExpression b k.1 ∨ x ∈ annotatedExpression b k.2 := by
  induction m with
  | nil => simp [entries]
  | cons k m ih =>
    rw [entries, List.mem_append, List.mem_append, ih, List.exists_mem_cons_iff]

theorem mem_variantCases {b : List String}
    {lst : List ((String × String) × AnnotatedExpression)} {x : String} :
    x ∈ variantCases b lst ↔ ∃ c ∈ lst, x ∈ annotatedExpression (c.1.2 :: b) c.2 := by
  induction lst with
  | nil => simp [variantCases]
  | cons c lst ih => rw [variantCases, List.mem_append, ih, List.exists_mem_cons_iff]

/-- A free name is not a bound one. -/
theorem notMem_of_mem {ae : AnnotatedExpression} {b : List String} {x : String}
    (h : x ∈ annotatedExpression b ae) : x ∉ b := by
  -- the bound names vary: binders are added to them on the way down
  induction ae using AnnotatedExpression.ind generalizing b with
  | literal => cases h
  | variable' name t env =>
    simp only [annotatedExpression, expression] at h
    split at h
    · cases h
    · rename_i hname
      rwa [List.mem_singleton.1 h]
  | constant name lst t env ih | tuple lst t env ih | list lst t env ih =>
    obtain ⟨ae, hae, h⟩ := mem_all.1 h
    exact ih ae hae h
  | record m t env ih =>
    obtain ⟨f, hf, h⟩ := mem_fields.1 h
    exact ih f hf h
  | map m t env ih =>
    obtain ⟨k, hk, h⟩ := mem_entries.1 h
    obtain h | h := h
    · exact (ih k hk).1 h
    · exact (ih k hk).2 h
  | application f a t env ihf iha | lookUp f a t env ihf iha | sequence f a t env ihf iha
  | loop f a t env ihf iha =>
    obtain h | h := List.mem_append.1 h
    · exact ihf h
    · exact iha h
  | lambda b' i o r t env ih => exact fun hx => ih h (List.mem_cons_of_mem _ hx)
  | letIn b' rhs r t env ihrhs ihr =>
    obtain h | h := List.mem_append.1 h
    · exact fun hx => ihr h (List.mem_cons_of_mem _ hx)
    · exact ihrhs h
  | tupleAccessor a i t env ih | constructor' i a t env ih | recordAccessor a i t env ih
  | failwith a t env ih => exact ih h
  | matchBool c p q t env ihc ihp ihq =>
    obtain h | h := List.mem_append.1 h
    · exact ihc h
    · obtain h | h := List.mem_append.1 h
      · exact ihp h
      · exact ihq h
  | matchList c n hd tl k t env ihc ihn ihk =>
    obtain h | h := List.mem_append.1 h
    · exact ihc h
    · obtain h | h := List.mem_append.1 h
      · exact ihn h
      · exact fun hx => ihk h (List.mem_cons_of_mem _ (List.mem_cons_of_mem _ hx))
  | matchOption c n name ty k t env ihc ihn ihk =>
    obtain h | h := List.mem_append.1 h
    · exact ihc h
    · obtain h | h := List.mem_append.1 h
      · exact ihn h
      · exact fun hx => ihk h (List.mem_cons_of_mem _ hx)
  | matchTuple c lst k t env ihc ihk =>
    obtain h | h := List.mem_append.1 h
    · exact ihc h
    · exact fun hx => ihk h (List.mem_append_right lst hx)
  | matchVariant c lst variant t env ihc ih =>
    obtain h | h := List.mem_append.1 h
    · exact ihc h
    · obtain ⟨k, hk, h⟩ := mem_variantCases.1 h
      exact fun hx => ih k hk h (List.mem_cons_of_mem _ hx)
  | assign name path e t env ih =>
    obtain h | h := List.mem_append.1 h
    · split at h
      · cases h
      · rename_i hname
        rwa [List.mem_singleton.1 h]
    · exact ih h

variable {x : String} {b : List String}

/-- The bound names are left out, and that is all that they do. -/
theorem mem_iff {ae : AnnotatedExpression} :
    x ∈ annotatedExpression b ae ↔ x ∉ b ∧ x ∈ annotatedExpression [] ae := by
  -- the bound names vary: below a binder the hypothesis is used for `b` and for no names
  induction ae using AnnotatedExpression.ind generalizing b with
  | literal => simp [annotatedExpression, expression]
  | variable' name t env =>
    simp only [annotatedExpression, expression]
    by_cases hname : name ∈ b
    · simp only [if_pos hname, List.not_mem_nil, if_false, List.mem_singleton, false_iff]
      rintro ⟨hx, rfl⟩
      exact hx hname
    · simp only [if_neg hname, List.not_mem_nil, if_false, List.mem_singleton]
      constructor
      · rintro rfl
        exact ⟨hname, rfl⟩
      · exact And.right
  | constant name lst t env ih | tuple lst t env ih | list lst t env ih =>
    simp only [annotatedExpression, expression, mem_all]
    constructor
    · rintro ⟨ae, hae, h⟩
      obtain ⟨hx, h⟩ := (ih ae hae).1 h
      exact ⟨hx, ae, hae, h⟩
    · rintro ⟨hx, ae, hae, h⟩
      exact ⟨ae, hae, (ih ae hae).2 ⟨hx, h⟩⟩
  | record m t env ih =>
    simp only [annotatedExpression, expression, mem_fields]
    constructor
    · rintro ⟨f, hf, h⟩
      obtain ⟨hx, h⟩ := (ih f hf).1 h
      exact ⟨hx, f, hf, h⟩
    · rintro ⟨hx, f, hf, h⟩
      exact ⟨f, hf, (ih f hf).2 ⟨hx, h⟩⟩
  | map m t env ih =>
    simp only [annotatedExpression, expression, mem_entries]
    constructor
    · rintro ⟨k, hk, h | h⟩
      · obtain ⟨hx, h⟩ := (ih k hk).1.1 h
        exact ⟨hx, k, hk, .inl h⟩
      · obtain ⟨hx, h⟩ := (ih k hk).2.1 h
        exact ⟨hx, k, hk, .inr h⟩
    · rintro ⟨hx, k, hk, h | h⟩
      · exact ⟨k, hk, .inl ((ih k hk).1.2 ⟨hx, h⟩)⟩
      · exact ⟨k, hk, .inr ((ih k hk).2.2 ⟨hx, h⟩)⟩
  | application f a t env ihf iha | lookUp f a t env ihf iha | sequence f a t env ihf iha
  | loop f a t env ihf iha =>
    simp only [annotatedExpression, expression, List.mem_append]
    rw [ihf, iha, and_or_left]
  | lambda y i o r t env ih =>
    simp only [annotatedExpression, expression, lambda]
    rw [ih, @ih [y]]
    simp [and_left_comm, and_assoc, not_or]
  | letIn y rhs r t env ihrhs ihr =>
    simp only [annotatedExpression, expression, List.mem_append]
    rw [ihr, @ihr [y], ihrhs]
    simp [and_or_left, and_left_comm, and_assoc, not_or]
  | tupleAccessor a i t env ih | constructor' i a t env ih | recordAccessor a i t env ih
  | failwith a t env ih => exact ih
  | matchBool c p q t env ihc ihp ihq =>
    simp only [annotatedExpression, expression, matching, List.mem_append]
    rw [ihc, ihp, ihq]
    simp [and_or_left]
  | matchList c n hd tl k t env ihc ihn ihk =>
    simp only [annotatedExpression, expression, matching, List.mem_append]
    rw [ihc, ihn, ihk, @ihk [hd, tl]]
    simp [and_or_left, and_left_comm, and_assoc, not_or]
  | matchOption c n y ty k t env ihc ihn ihk =>
    simp only [annotatedExpression, expression, matching, List.mem_append]
    rw [ihc, ihn, ihk, @ihk [y]]
    simp [and_or_left, and_left_comm, and_assoc, not_or]
  | matchTuple c lst k t env ihc ihk =>
    simp only [annotatedExpression, expression, matching, List.mem_append]
    rw [ihc, ihk, @ihk (lst ++ [])]
    simp [and_or_left, and_left_comm, and_assoc, not_or]
  | matchVariant c lst variant t env ihc ih =>
    simp only [annotatedExpression, expression, matching, List.mem_append, mem_variantCases]
    rw [ihc, and_or_left]
    refine or_congr Iff.rfl ?_
    constructor
    · rintro ⟨k, hk, h⟩
      obtain ⟨hx, h⟩ := (ih k hk).1 h
      obtain ⟨hy, hb⟩ := not_or.1 fun h => hx (List.mem_cons.2 h)
      exact ⟨hb, k, hk, (ih k hk).2 ⟨by simpa using hy, h⟩⟩
    · rintro ⟨hb, k, hk, h⟩
      obtain ⟨hy, h⟩ := (ih k hk).1 h
      refine ⟨k, hk, (ih k hk).2 ⟨fun hx => ?_, h⟩⟩
      exact (List.mem_cons.1 hx).elim (fun hx => hy (by simpa using hx)) hb
  | assign name path e t env ih =>
    simp only [annotatedExpression, expression, List.mem_append]
    rw [ih, and_or_left]
    refine or_congr ?_ Iff.rfl
    by_cases hname : name.typeName ∈ b
    · simp only [if_pos hname, List.not_mem_nil, if_false, List.mem_singleton, false_iff]
      rintro ⟨hx, rfl⟩
      exact hx hname
    · simp only [if_neg hname, List.not_mem_nil, if_false, List.mem_singleton]
      constructor
      · rintro rfl
        exact ⟨hname, rfl⟩
      · exact And.right

end FreeNames

/-! ### Variables that are read -/

mutual

/-- The expression reads the variable `x` of its environment. -/
def Reads (x : String) : AnnotatedExpression → Prop
  | .mk e _ _ => Reads' x e

def Reads' (x : String) : Expression → Prop
  | .eLiteral _ => False
  | .eVariable name => name = x
  | .eConstant _ lst | .eTuple lst | .eList lst => ReadsAny x lst
  | .eApplication a b | .eLookUp a b | .eSequence a b | .eLoop a b => Reads x a ∨ Reads x b
  | .eLambda l => ReadsLambda x l
  | .eLetIn b rhs result => Reads x rhs ∨ x ≠ b ∧ Reads x result
  -- an assignment reads the new value only
  | .eTupleAccessor ae _ | .eRecordAccessor ae _ | .eConstructor _ ae | .eFailwith ae
  | .eAssign _ _ ae => Reads x ae
  | .eRecord m => ReadsField x m
  | .eMap m => ReadsEntry x m
  | .eMatching ae m => Reads x ae ∨ ReadsMatching x m

def ReadsLambda (x : String) : Lambda → Prop
  | .mk b _ _ result => x ≠ b ∧ Reads x result

def ReadsMatching (x : String) : MatchingExpr → Prop
  | .matchBool t f => Reads x t ∨ Reads x f
  | .matchList n hd tl c => Reads x n ∨ x ≠ hd ∧ x ≠ tl ∧ Reads x c
  | .matchOption n name _ s => Reads x n ∨ x ≠ name ∧ Reads x s
  | .matchTuple lst b => x ∉ lst ∧ Reads x b
  | .matchVariant lst _ => ReadsCase x lst

def ReadsAny (x : String) : List AnnotatedExpression → Prop
  | [] => False
  | ae :: lst => Reads x ae ∨ ReadsAny x lst

def ReadsField (x : String) : List (String × AnnotatedExpression) → Prop
  | [] => False
  | (_, ae) :: m => Reads x ae ∨ ReadsField x m

def ReadsEntry (x : String) : List (AnnotatedExpression × AnnotatedExpression) → Prop
  | [] => False
  | (k, v) :: m => Reads x k ∨ Reads x v ∨ ReadsEntry x m

def ReadsCase (x : String) : List ((String × String) × AnnotatedExpression) → Prop
  | [] => False
  | ((_, n), c) :: lst => x ≠ n ∧ Reads x c ∨ ReadsCase x lst

end

section Reads

variable {x : String}

/-- Reading in a list of expressions is reading in one of them. -/
theorem readsAny_iff {lst : List AnnotatedExpression} :
    ReadsAny x lst ↔ ∃ ae ∈ lst, Reads x ae := by
  induction lst with
  | nil => simp [ReadsAny]
  | cons ae lst ih => rw [ReadsAny, ih, List.exists_mem_cons_iff]

theorem readsField_iff {m : List (String × AnnotatedExpression)} :
    ReadsField x m ↔ ∃ f ∈ m, Reads x f.2 := by
  induction m with
  | nil => simp [ReadsField]
  | cons f m ih => rw [ReadsField, ih, List.exists_mem_cons_iff]

theorem readsEntry_iff {m : List (AnnotatedExpression × AnnotatedExpression)} :
    ReadsEntry x m ↔ ∃ k ∈ m, Reads x k.1 ∨ Reads x k.2 := by
  induction m with
  | nil => simp [ReadsEntry]
  | cons k m ih => rw [ReadsEntry, ih, List.exists_mem_cons_iff, or_assoc]

/-- A clause reads what its body reads, up to the name that it binds. -/
theorem readsCase_iff {lst : List ((String × String) × AnnotatedExpression)} :
    ReadsCase x lst ↔ ∃ c ∈ lst, x ≠ c.1.2 ∧ Reads x c.2 := by
  induction lst with
  | nil => simp [ReadsCase]
  | cons c lst ih => rw [ReadsCase, ih, List.exists_mem_cons_iff]

end Reads

/-! ### Free variables -/

namespace FreeVariables

variable {x : String} {b : List String}

theorem mem_all {lst : List AnnotatedExpression} :
    x ∈ all b lst ↔ ∃ ae ∈ lst, x ∈ annotatedExpression b ae := by
  induction lst with
  | nil => simp [all]
  | cons ae lst ih => rw [all, List.mem_append, ih, List.exists_mem_cons_iff]

theorem mem_fields {m : List (String × AnnotatedExpression)} :
    x ∈ fields b m ↔ ∃ f ∈ m, x ∈ annotatedExpression b f.2 := by
  induction m with
  | nil => simp [fields]
  | cons f m ih => rw [fields, List.mem_append, ih, List.exists_mem_cons_iff, or_comm]

theorem mem_entries {m : List (AnnotatedExpression × AnnotatedExpression)} :
    x ∈ entries b m ↔ ∃ k ∈ m, x ∈ annotatedExpression b k.1 ∨ x ∈ annotatedExpression b k.2 := by
  induction m with
  | nil => simp [entries]
  | cons k m ih => rw [entries, List.mem_append, List.mem_append, ih, List.exists_mem_cons_iff]

theorem mem_variantCases {lst : List ((String × String) × AnnotatedExpression)} :
    x ∈ variantCases b lst ↔ ∃ c ∈ lst, x ∈ annotatedExpression (c.1.2 :: b) c.2 := by
  induction lst with
  | nil => simp [variantCases]
  | cons c lst ih => rw [variantCases, List.mem_append, ih, List.exists_mem_cons_iff]

/-- The free variables are the variables that are read, without the bound ones. -/
theorem mem_iff_reads {ae : AnnotatedExpression} :
    x ∈ annotatedExpression b ae ↔ x ∉ b ∧ Reads x ae := by
  -- the bound names vary: binders are added to them on the way down
  induction ae using AnnotatedExpression.ind generalizing b with
  | literal => simp [annotatedExpression, expression, Reads, Reads']
  | variable' name t env =>
    simp only [annotatedExpression, expression, Reads, Reads']
    by_cases hname : name ∈ b
    · rw [if_pos hname]
      refine iff_of_false List.not_mem_nil ?_
      rintro ⟨hx, rfl⟩
      exact hx hname
    · rw [if_neg hname, List.mem_singleton]
      constructor
      · rintro rfl
        exact ⟨hname, rfl⟩
      · exact fun h => h.2.symm
  | constant name lst t env ih | tuple lst t env ih | list lst t env ih =>
    simp only [annotatedExpression, expression, Reads, Reads', mem_all, readsAny_iff]
    constructor
    · rintro ⟨ae, hae, h⟩
      obtain ⟨hx, h⟩ := (ih ae hae).1 h
      exact ⟨hx, ae, hae, h⟩
    · rintro ⟨hx, ae, hae, h⟩
      exact ⟨ae, hae, (ih ae hae).2 ⟨hx, h⟩⟩
  | record m t env ih =>
    simp only [annotatedExpression, expression, Reads, Reads', mem_fields, readsField_iff]
    constructor
    · rintro ⟨f, hf, h⟩
      obtain ⟨hx, h⟩ := (ih f hf).1 h
      exact ⟨hx, f, hf, h⟩
    · rintro ⟨hx, f, hf, h⟩
      exact ⟨f, hf, (ih f hf).2 ⟨hx, h⟩⟩
  | map m t env ih =>
    simp only [annotatedExpression, expression, Reads, Reads', mem_entries, readsEntry_iff]
    constructor
    · rintro ⟨k, hk, h | h⟩
      · obtain ⟨hx, h⟩ := (ih k hk).1.1 h
        exact ⟨hx, k, hk, .inl h⟩
      · obtain ⟨hx, h⟩ := (ih k hk).2.1 h
        exact ⟨hx, k, hk, .inr h⟩
    · rintro ⟨hx, k, hk, h | h⟩
      · exact ⟨k, hk, .inl ((ih k hk).1.2 ⟨hx, h⟩)⟩
      · exact ⟨k, hk, .inr ((ih k hk).2.2 ⟨hx, h⟩)⟩
  | application f a t env ihf iha | lookUp f a t env ihf iha | sequence f a t env ihf iha
  | loop f a t env ihf iha =>
    simp only [annotatedExpression, expression, List.mem_append, Reads, Reads']
    rw [ihf, iha, and_or_left]
  | lambda y i o r t env ih =>
    simp only [annotatedExpression, expression, lambda, Reads, Reads', ReadsLambda]
    rw [ih, List.mem_cons, not_or, and_comm (a := x ≠ y), and_assoc]
  | letIn y rhs r t env ihrhs ihr =>
    simp only [annotatedExpression, expression, List.mem_append, Reads, Reads']
    rw [ihr, ihrhs]
    simp [and_or_left, and_left_comm, and_assoc, not_or, or_comm]
  | tupleAccessor a i t env ih | constructor' i a t env ih | recordAccessor a i t env ih
  | failwith a t env ih | assign i path a t env ih => exact ih
  | matchBool c p q t env ihc ihp ihq =>
    simp only [annotatedExpression, expression, matching, List.mem_append, Reads, Reads',
      ReadsMatching]
    rw [ihc, ihp, ihq]
    simp [and_or_left]
  | matchList c n hd tl k t env ihc ihn ihk =>
    simp only [annotatedExpression, expression, matching, List.mem_append, Reads, Reads',
      ReadsMatching]
    rw [ihc, ihn, ihk]
    simp [and_or_left, and_left_comm, and_assoc, not_or]
  | matchOption c n y ty k t env ihc ihn ihk =>
    simp only [annotatedExpression, expression, matching, List.mem_append, Reads, Reads',
      ReadsMatching]
    rw [ihc, ihn, ihk]
    simp [and_or_left, and_left_comm, and_assoc, not_or]
  | matchTuple c lst k t env ihc ihk =>
    simp only [annotatedExpression, expression, matching, List.mem_append, Reads, Reads',
      ReadsMatching]
    rw [ihc, ihk]
    simp [and_or_left, and_left_comm, and_assoc, not_or]
  | matchVariant c lst variant t env ihc ih =>
    simp only [annotatedExpression, expression, matching, List.mem_append, mem_variantCases,
      Reads, Reads', ReadsMatching, readsCase_iff]
    rw [ihc, and_or_left]
    refine or_congr Iff.rfl ?_
    constructor
    · rintro ⟨k, hk, h⟩
      obtain ⟨hx, h⟩ := (ih k hk).1 h
      obtain ⟨hy, hb⟩ := not_or.1 fun h => hx (List.mem_cons.2 h)
      exact ⟨hb, k, hk, hy, h⟩
    · rintro ⟨hb, k, hk, hy, h⟩
      refine ⟨k, hk, (ih k hk).2 ⟨fun hx => ?_, h⟩⟩
      exact (List.mem_cons.1 hx).elim hy hb

/-- The bound names are left out, and that is all that they do. -/
theorem mem_iff {ae : AnnotatedExpression} :
    x ∈ annotatedExpression b ae ↔ x ∉ b ∧ x ∈ annotatedExpression [] ae := by
  rw [mem_iff_reads, mem_iff_reads (b := []), and_iff_right List.not_mem_nil]

/-- A free variable is a free name. -/
theorem mem_freeNames {ae : AnnotatedExpression} (h : x ∈ annotatedExpression b ae) :
    x ∈ FreeNames.annotatedExpression b ae := by
  induction ae using AnnotatedExpression.ind generalizing b with
  | literal | variable' => exact h
  | constant name lst t env ih | tuple lst t env ih | list lst t env ih =>
    obtain ⟨ae, hae, h⟩ := mem_all.1 h
    exact FreeNames.mem_all.2 ⟨ae, hae, ih ae hae h⟩
  | record m t env ih =>
    obtain ⟨f, hf, h⟩ := mem_fields.1 h
    exact FreeNames.mem_fields.2 ⟨f, hf, ih f hf h⟩
  | map m t env ih =>
    obtain ⟨k, hk, h⟩ := mem_entries.1 h
    exact FreeNames.mem_entries.2 ⟨k, hk, h.imp (ih k hk).1 (ih k hk).2⟩
  | application f a t env ihf iha | lookUp f a t env ihf iha | sequence f a t env ihf iha
  | loop f a t env ihf iha =>
    exact List.mem_append.2 ((List.mem_append.1 h).imp ihf iha)
  | letIn y rhs r t env ihrhs ihr =>
    exact List.mem_append.2 ((List.mem_append.1 h).imp ihr ihrhs)
  | lambda y i o r t env ih | tupleAccessor a i t env ih | constructor' i a t env ih
  | recordAccessor a i t env ih | failwith a t env ih => exact ih h
  | matchBool c p q t env ihc ihp ihq =>
    refine List.mem_append.2 ((List.mem_append.1 h).imp ihc fun h => ?_)
    exact List.mem_append.2 ((List.mem_append.1 h).imp ihp ihq)
  | matchList c n hd tl k t env ihc ihn ihk =>
    refine List.mem_append.2 ((List.mem_append.1 h).imp ihc fun h => ?_)
    exact List.mem_append.2 ((List.mem_append.1 h).imp ihn ihk)
  | matchOption c n y ty k t env ihc ihn ihk =>
    refine List.mem_append.2 ((List.mem_append.1 h).imp ihc fun h => ?_)
    exact List.mem_append.2 ((List.mem_append.1 h).imp ihn ihk)
  | matchTuple c lst k t env ihc ihk =>
    exact List.mem_append.2 ((List.mem_append.1 h).imp ihc ihk)
  | matchVariant c lst variant t env ihc ih =>
    refine List.mem_append.2 ((List.mem_append.1 h).imp ihc fun h => ?_)
    obtain ⟨k, hk, h⟩ := mem_variantCases.1 h
    exact FreeNames.mem_variantCases.2 ⟨k, hk, ih k hk h⟩
  -- the name that is assigned to stands in front
  | assign name path e t env ih => exact List.mem_append_right _ (ih h)

end FreeVariables

/-- Every declaration takes names of earlier declarations, or of `b`, only. -/
def ClosedFrom (b : List String) : Program → Prop
  | [] => True
  | d :: p => FreeNames.annotatedExpression b d.annotatedExpression = [] ∧
    ClosedFrom (d.name :: b) p

/-- The program takes no name from outside. -/
def Closed (p : Program) : Prop := ClosedFrom [] p

/-- The first declarations of a closed program are closed. -/
theorem ClosedFrom.of_append {b : List String} {p q : Program} (h : ClosedFrom b (p ++ q)) :
    ClosedFrom b p := by
  induction p generalizing b with
  | nil => trivial
  | cons d p ih => exact ⟨h.1, ih h.2⟩

end Ligo.AstTyped
