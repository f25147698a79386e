namespace Pseudocode

structure Table (α β : Type) where
  entries : List (α × β)
  deriving Repr

namespace Table

variable {α β : Type} [DecidableEq α]

def empty : Table α β := ⟨[]⟩

/-- Gives `key` a new value in its old place, or a place at the end. -/
def put (key : α) (value : β) : List (α × β) → List (α × β)
  | [] => [(key, value)]
  | (k, v) :: rest => if k = key then (k, value) :: rest else (k, v) :: put key value rest

def find? (key : α) : List (α × β) → Option β
  | [] => none
  | (k, v) :: rest => if k = key then some v else find? key rest

def insert (t : Table α β) (key : α) (value : β) : Table α β :=
  ⟨put key value t.entries⟩

def get? (t : Table α β) (key : α) : Option β :=
  find? key t.entries

def contains (t : Table α β) (key : α) : Bool :=
  (t.get? key).isSome

def erase (t : Table α β) (key : α) : Table α β :=
  ⟨t.entries.filter fun e => e.1 ≠ key⟩

def size (t : Table α β) : Nat :=
  t.entries.length

def isEmpty (t : Table α β) : Bool :=
  t.entries.isEmpty

theorem find?_put (key k : α) (value : β) (es : List (α × β)) :
    find? k (put key value es) = if k = key then some value else find? k es := by
  induction es with
  | nil => simp only [put, find?, eq_comm]
  | cons e es ih =>
    obtain ⟨k', v⟩ := e
    by_cases h : k' = key
    · by_cases hk : key = k <;> simp_all [put, find?, eq_comm]
    · by_cases hk : k' = k <;> simp_all [put, find?]

theorem get?_insert (t : Table α β) (key k : α) (value : β) :
    (t.insert key value).get? k = if k = key then some value else t.get? k :=
  find?_put key k value t.entries

end Table

end Pseudocode
