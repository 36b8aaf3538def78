/-!
# Functional queues

Queues as a pair of lists. A queue stands for the list of its elements, the oldest first
(`toList`), and the three operations are those of lists (`toList_enq`, `deq_eq_some`,
`peek_eq_some`).
-/

namespace Ligo.Pascaligo

/-- A queue: the newest elements in reverse, and the oldest ones. -/
structure FQueue (α : Type) where
  rear : List α
  front : List α

namespace FQueue

variable {α : Type}

def empty : FQueue α := ⟨[], []⟩

def enq (x : α) (q : FQueue α) : FQueue α := { q with rear := x :: q.rear }

/-- The elements move to the front when there is none. -/
def normalize : FQueue α → FQueue α
  | ⟨rear, []⟩ => ⟨[], rear.reverse⟩
  | q => q

def deq (q : FQueue α) : Option (FQueue α × α) :=
  match q.normalize with
  | ⟨_, []⟩ => none
  | ⟨rear, x :: f⟩ => some (⟨rear, f⟩, x)

def peek (q : FQueue α) : Option (FQueue α × α) :=
  match q.normalize with
  | ⟨_, []⟩ => none
  | ⟨rear, x :: f⟩ => some (⟨rear, x :: f⟩, x)

/-- The elements, the oldest first. -/
def toList (q : FQueue α) : List α := q.front ++ q.rear.reverse

variable {q q' : FQueue α} {x : α}

@[simp] theorem toList_empty : (empty : FQueue α).toList = [] := rfl

/-- A unit is enqueued at the end. -/
@[simp] theorem toList_enq : (q.enq x).toList = q.toList ++ [x] := by
  simp [toList, enq]

theorem enq_inj {y : α} (h : q.enq x = q'.enq y) : x = y :=
  (List.cons.inj (congrArg rear h)).1

@[simp] theorem toList_normalize : q.normalize.toList = q.toList := by
  unfold normalize
  split
  · simp [toList]
  · rfl

/-- A normalised queue without a front is empty. -/
theorem rear_normalize (h : q.normalize.front = []) : q.normalize.rear = [] := by
  unfold normalize at h ⊢
  split at h
  · rfl
  · rename_i hq
    exact absurd h (fun hf => hq q.rear (by cases q; cases hf; rfl))

theorem deq_eq_none : q.deq = none ↔ q.toList = [] := by
  rw [← toList_normalize, deq]
  have hrear := rear_normalize (q := q)
  generalize q.normalize = n at hrear
  obtain ⟨rear, _ | ⟨x, f⟩⟩ := n
  · have hnil : rear = [] := hrear rfl
    simp [toList, hnil]
  · simp [toList]

/-- The oldest unit is dequeued. -/
theorem deq_eq_some (h : q.deq = some (q', x)) : q.toList = x :: q'.toList := by
  rw [← toList_normalize]
  unfold deq at h
  split at h
  · cases h
  · rename_i heq
    cases h
    rw [heq]
    rfl

theorem peek_eq_none : q.peek = none ↔ q.toList = [] := by
  rw [← deq_eq_none, peek, deq]
  split <;> simp_all

/-- Looking at the oldest unit changes nothing but the representation. -/
theorem peek_eq_some (h : q.peek = some (q', x)) :
    q'.toList = q.toList ∧ q.toList.head? = some x := by
  rw [← toList_normalize (q := q)]
  unfold peek at h
  split at h
  · cases h
  · rename_i heq
    cases h
    rw [heq]
    exact ⟨rfl, rfl⟩

end FQueue

end Ligo.Pascaligo
