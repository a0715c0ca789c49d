/-!
# Finite maps with text keys

A dictionary is a list of key-value pairs in ascending key order, each key once.  The order
of text is the order of its code points, which is also the order of its UTF-8 bytes.  The
list is plain data, so that a dictionary may hold values of a type that is being defined;
`Dict.Sorted` says when a list is a dictionary.

* `Dict.get?`, `Dict.contains`, `Dict.keys`: what a dictionary holds.
* `Dict.insert`, `Dict.erase`: one key at a time; both keep the order.
* `Dict.ofPairs`: from pairs in any order, the later of two with one key winning.
-/

namespace Observatory

/-- A map from text to `α`, as a list of pairs in ascending key order. -/
abbrev Dict (α : Type) := List (String × α)

namespace Dict

variable {α β : Type}

/-- The value of `key`. -/
def get? : Dict α → String → Option α
  | [], _ => none
  | (k, v) :: rest, key => if k = key then some v else get? rest key

@[simp] theorem get?_nil (key : String) : get? ([] : Dict α) key = none := rfl

theorem get?_cons (k : String) (v : α) (rest : Dict α) (key : String) :
    get? ((k, v) :: rest) key = if k = key then some v else get? rest key := rfl

/-- Whether `key` has a value. -/
def contains (d : Dict α) (key : String) : Bool := (d.get? key).isSome

/-- The keys, in ascending order. -/
def keys (d : Dict α) : List String := d.map Prod.fst

/-- The values, in the order of their keys. -/
def values (d : Dict α) : List α := d.map Prod.snd

/-- Give `key` the value `value`, in place of the one it had. -/
def insert : Dict α → String → α → Dict α
  | [], key, value => [(key, value)]
  | (k, v) :: rest, key, value =>
    if k = key then (key, value) :: rest
    else if key < k then (key, value) :: (k, v) :: rest
    else (k, v) :: insert rest key value

/-- Forget `key`. -/
def erase : Dict α → String → Dict α
  | [], _ => []
  | (k, v) :: rest, key => if k = key then erase rest key else (k, v) :: erase rest key

/-- The dictionary of some pairs; of two with one key the later one counts. -/
def ofPairs (pairs : List (String × α)) : Dict α :=
  pairs.foldl (fun d p => d.insert p.1 p.2) []

/-- Apply `f` to every value. -/
def mapValues (f : α → β) (d : Dict α) : Dict β := d.map fun p => (p.1, f p.2)

/-- The pairs are in ascending key order, each key once. -/
def Sorted (d : Dict α) : Prop := d.Pairwise fun p q => p.1 < q.1

@[simp] theorem sorted_nil : Sorted ([] : Dict α) := List.Pairwise.nil

/-- An inserted key reads back; every other key reads as before. -/
theorem get?_insert (d : Dict α) (key : String) (value : α) (k : String) :
    (d.insert key value).get? k = if key = k then some value else d.get? k := by
  induction d with
  | nil => simp [insert, get?]
  | cons p rest ih =>
    obtain ⟨k', v'⟩ := p
    simp only [insert]
    split
    · next h => subst h; simp only [get?_cons]; split <;> rfl
    · next h =>
      split
      · rfl
      · simp only [get?_cons, ih]
        split
        · next hk => rw [if_neg fun e => h (hk.trans e.symm)]
        · rfl

/-- An erased key is gone; every other key reads as before. -/
theorem get?_erase (d : Dict α) (key k : String) :
    (d.erase key).get? k = if key = k then none else d.get? k := by
  induction d with
  | nil => simp [erase]
  | cons p rest ih =>
    obtain ⟨k', v'⟩ := p
    simp only [erase, get?_cons]
    split
    · next h => subst h; rw [ih]; split <;> rfl
    · next h =>
      simp only [get?_cons, ih]
      split
      · next hk => rw [if_neg fun e => h (hk.trans e.symm)]
      · rfl

end Dict

end Observatory
