import Ligo.AstTyped.Types

/-!
# Free variables and equality of types

`Free_variables` lists the free variables of an expression in the order of the traversal,
with repetitions; `b` lists the names that are bound. A name that is assigned to does not
count as an occurrence.
-/

namespace Ligo.AstTyped

/-! ### Free variables -/

namespace FreeVariables

mutual

def expression (b : List String) : Expression → List String
  | .eLambda l => lambda b l
  | .eLiteral _ => []
  | .eConstant _ lst => all b lst
  | .eVariable name => if name ∈ b then [] else [name]
  | .eApplication f arg => annotatedExpression b f ++ annotatedExpression b arg
  | .eTuple lst => all b lst
  | .eConstructor _ a => annotatedExpression b a
  | .eRecord m => fields b m
  | .eRecordAccessor a _ => annotatedExpression b a
  | .eTupleAccessor a _ => annotatedExpression b a
  | .eList lst => all b lst
  | .eMap m => entries b m
  | .eLookUp x y => annotatedExpression b x ++ annotatedExpression b y
  | .eMatching a cs => annotatedExpression b a ++ matching b cs
  | .eFailwith a => annotatedExpression b a
  | .eSequence x y => annotatedExpression b x ++ annotatedExpression b y
  | .eLoop expr body => annotatedExpression b expr ++ annotatedExpression b body
  | .eAssign _ _ expr => annotatedExpression b expr
  | .eLetIn binder rhs result =>
    annotatedExpression (binder :: b) result ++ annotatedExpression b rhs

def annotatedExpression (b : List String) : AnnotatedExpression → List String
  | .mk e _ _ => expression b e

def lambda (b : List String) : Lambda → List String
  | .mk binder _ _ result => annotatedExpression (binder :: b) result

def matching (b : List String) : MatchingExpr → List String
  | .matchBool t f => annotatedExpression b t ++ annotatedExpression b f
  | .matchList n hd tl c => annotatedExpression b n ++ annotatedExpression (hd :: tl :: b) c
  | .matchOption n opt _ s => annotatedExpression b n ++ annotatedExpression (opt :: b) s
  | .matchTuple lst a => annotatedExpression (lst ++ b) a
  | .matchVariant lst _ => variantCases b lst

def all (b : List String) : List AnnotatedExpression → List String
  | [] => []
  | ae :: lst => annotatedExpression b ae ++ all b lst

/-- The fields of a record, from the greatest key to the least (`Map.String.to_list`). -/
def fields (b : List String) : List (String × AnnotatedExpression) → List String
  | [] => []
  | (_, ae) :: m => fields b m ++ annotatedExpression b ae

def entries (b : List String) : List (AnnotatedExpression × AnnotatedExpression) → List String
  | [] => []
  | (k, v) :: m => annotatedExpression b k ++ annotatedExpression b v ++ entries b m

def variantCases (b : List String) :
    List ((String × String) × AnnotatedExpression) → List String
  | [] => []
  | ((_, n), c) :: lst => annotatedExpression (n :: b) c ++ variantCases b lst

end

end FreeVariables

/-! ### Equality of types -/

/-- `Assert.assert_true ~msg`. -/
def assertTrueMsg (msg : String) (b : Bool) : Result Unit :=
  if b then .ok () else simpleFail msg

mutual

def assertTypeValueEq : TypeValue → TypeValue → Result Unit
  | .tTuple ta, .tTuple tb => do
    traceStrong "tuples have different sizes" (assertTrue (ta.length == tb.length))
    assertAllEq ta tb
  | .tConstant ca lsta, .tConstant cb lstb => do
    traceStrong "constants have different sizes" (assertTrue (lsta.length == lstb.length))
    traceStrong "different constants" (assertTrue (ca == cb))
    trace "constant sub-expression" (assertAllEq lsta lstb)
  | .tSum sa, .tSum sb => do
    traceStrong "sums have different sizes" (assertTrue (sa.length == sb.length))
    trace "sum type" (assertFieldsEq "different keys in sum types" sa sb)
  | .tRecord ra, .tRecord rb => do
    traceStrong "records have different sizes" (assertTrue (ra.length == rb.length))
    trace "record type" (assertFieldsEq "different props in record" ra rb)
  | .tFunction param result, .tFunction param' result' => do
    assertTypeValueEq param param'
    assertTypeValueEq result result'
  | _, _ => simpleFail "different kinds"

/-- The types of two lists of the same length, pairwise. -/
def assertAllEq : List TypeValue → List TypeValue → Result Unit
  | a :: ta, b :: tb => do
    assertTypeValueEq a b
    assertAllEq ta tb
  | _, _ => .ok ()

/-- The bindings of two maps of the same size, from the greatest key to the least
(`SMap.to_kv_list`). -/
def assertFieldsEq (msg : String) :
    List (String × TypeValue) → List (String × TypeValue) → Result Unit
  | (ka, va) :: sa, (kb, vb) :: sb => do
    assertFieldsEq msg sa sb
    assertTrueMsg msg (ka == kb)
    assertTypeValueEq va vb
  | _, _ => .ok ()

end

/-- Another title changes no success. -/
theorem traceStrong_eq_ok {α : Type} {title : String} {r : Result α} {a : α} :
    traceStrong title r = .ok a ↔ r = .ok a := by
  cases r <;> simp [traceStrong]

theorem assertTrue_eq_ok {b : Bool} : assertTrue b = .ok () ↔ b = true := by
  cases b <;> simp [assertTrue, simpleFail]

theorem assertTrueMsg_eq_ok {msg : String} {b : Bool} :
    assertTrueMsg msg b = .ok () ↔ b = true := by
  cases b <;> simp [assertTrueMsg, simpleFail]

/-- A sequence of two assertions. -/
theorem assert_bind_eq_ok {r s : Result Unit} :
    (r >>= fun _ => s) = .ok () ↔ r = .ok () ∧ s = .ok () := by
  cases r <;> simp [bind, Except.bind]

/-- The types in two lists are compared pair by pair. -/
theorem assertAllEq_iff {ta : List TypeValue}
    (ih : ∀ t ∈ ta, ∀ u, assertTypeValueEq t u = .ok () ↔ t = u) {tb : List TypeValue}
    (hlen : ta.length = tb.length) : assertAllEq ta tb = .ok () ↔ ta = tb := by
  induction ta generalizing tb with
  | nil => simp [assertAllEq, List.eq_nil_of_length_eq_zero hlen.symm]
  | cons a ta ihta =>
    match tb, hlen with
    | b :: tb, hlen =>
      have hhead := ih a List.mem_cons_self b
      have htail := ihta (fun t ht => ih t (List.mem_cons_of_mem _ ht)) (Nat.succ.inj hlen)
      rw [assertAllEq, assert_bind_eq_ok, hhead, htail, List.cons.injEq]

/-- Fields are compared in the order of their keys. -/
theorem assertFieldsEq_iff {msg : String} {sa : List (String × TypeValue)}
    (ih : ∀ x ∈ sa, ∀ u, assertTypeValueEq x.2 u = .ok () ↔ x.2 = u)
    {sb : List (String × TypeValue)} (hlen : sa.length = sb.length) :
    assertFieldsEq msg sa sb = .ok () ↔ sa = sb := by
  induction sa generalizing sb with
  | nil => simp [assertFieldsEq, List.eq_nil_of_length_eq_zero hlen.symm]
  | cons a sa ihsa =>
    match a, sb, hlen with
    | (ka, va), (kb, vb) :: sb, hlen =>
      have hhead := ih (ka, va) List.mem_cons_self vb
      have htail := ihsa (fun x hx => ih x (List.mem_cons_of_mem _ hx)) (Nat.succ.inj hlen)
      rw [assertFieldsEq, assert_bind_eq_ok, assert_bind_eq_ok, assertTrueMsg_eq_ok, htail,
        hhead, beq_iff_eq, List.cons.injEq, Prod.mk.injEq, and_comm]

/-- A check on lists of one length decides their equality. -/
theorem sized_eq_ok {α : Type} {title : String} {xs ys : List α} {r : Result Unit}
    (h : xs.length = ys.length → (r = .ok () ↔ xs = ys)) :
    (traceStrong title (assertTrue (xs.length == ys.length)) >>= fun _ => r) = .ok () ↔
      xs = ys := by
  rw [assert_bind_eq_ok, traceStrong_eq_ok, assertTrue_eq_ok, beq_iff_eq]
  constructor
  · rintro ⟨hlen, hr⟩
    exact (h hlen).1 hr
  · intro heq
    have hlen : xs.length = ys.length := congrArg _ heq
    exact ⟨hlen, (h hlen).2 heq⟩

/-- The check accepts equal types only. -/
theorem assertTypeValueEq_iff {a b : TypeValue} : assertTypeValueEq a b = .ok () ↔ a = b := by
  induction a using TypeValue.ind generalizing b with
  | tuple ta ih =>
    cases b with
    | tTuple tb =>
      rw [assertTypeValueEq, TypeValue.tTuple.injEq]
      exact sized_eq_ok (assertAllEq_iff fun t ht _ => ih t ht)
    | _ => simp [assertTypeValueEq, simpleFail]
  | sum sa ih =>
    cases b with
    | tSum sb =>
      rw [assertTypeValueEq, TypeValue.tSum.injEq]
      -- the sizes agree here, so `combine` does not raise
      refine sized_eq_ok fun hlen => ?_
      rw [trace_eq_ok]
      exact assertFieldsEq_iff (fun x hx _ => ih x hx) hlen
    | _ => simp [assertTypeValueEq, simpleFail]
  | record ra ih =>
    cases b with
    | tRecord rb =>
      rw [assertTypeValueEq, TypeValue.tRecord.injEq]
      refine sized_eq_ok fun hlen => ?_
      rw [trace_eq_ok]
      exact assertFieldsEq_iff (fun x hx _ => ih x hx) hlen
    | _ => simp [assertTypeValueEq, simpleFail]
  | constant ca lsta ih =>
    cases b with
    | tConstant cb lstb =>
      -- the names are compared before the arguments
      rw [assertTypeValueEq, TypeValue.tConstant.injEq, assert_bind_eq_ok, assert_bind_eq_ok,
        and_left_comm, ← assert_bind_eq_ok, traceStrong_eq_ok, assertTrue_eq_ok, beq_iff_eq]
      refine and_congr_right fun _ => sized_eq_ok fun hlen => ?_
      rw [trace_eq_ok]
      exact assertAllEq_iff (fun t ht _ => ih t ht) hlen
    | _ => simp [assertTypeValueEq, simpleFail]
  | function param result ihp ihr =>
    cases b with
    | tFunction param' result' =>
      rw [assertTypeValueEq, assert_bind_eq_ok, ihp, ihr, TypeValue.tFunction.injEq]
    | _ => simp [assertTypeValueEq, simpleFail]

def typeValueEq (a b : TypeValue) : Bool := toBool (assertTypeValueEq a b)

/-- The comparison of types is equality. -/
theorem typeValueEq_iff {a b : TypeValue} : typeValueEq a b = true ↔ a = b := by
  rw [← assertTypeValueEq_iff, typeValueEq]
  cases assertTypeValueEq a b <;> simp [toBool]

end Ligo.AstTyped
