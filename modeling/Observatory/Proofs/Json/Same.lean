import Observatory.Proofs.Dict
import Observatory.Proofs.Json.Document

/-!
# Equality of values

Values are compared as JSON: the two zeros are one number, everything else is compared exactly.
This is an equivalence, and whatever is done in the same way to equal values leads to equal
values.

* `Json.same_refl`, `Json.same_symm`, `Json.same_trans`: the equivalence;
* `Json.SameAt`: equal values at a place, or nothing;
* `Json.sameItems_iff`, `Json.sameAt_get?`, `Json.sameFields_of_get?`: arrays and objects
  compared place by place;
* `Json.sameFields_insert` and its companions: equal values after equal changes.
-/

namespace Observatory

namespace Scalar

@[simp] theorem same_refl (a : Scalar) : a.same a = true := by
  cases a <;> simp [same]

theorem same_symm {a b : Scalar} (h : a.same b = true) : b.same a = true := by
  cases a with
  | float x =>
    cases b with
    | float y => exact Binary64.same_symm h
    | _ => cases h
  | _ => simp [same] at h; simp [← h]

theorem same_trans {a b c : Scalar} (h : a.same b = true) (g : b.same c = true) :
    a.same c = true := by
  cases a with
  | float x =>
    cases b with
    | float y =>
      cases c with
      | float z => exact Binary64.same_trans h g
      | _ => cases g
    | _ => cases h
  | _ => simp [same] at h; simpa [← h] using g

end Scalar

namespace Json

/-- What two values have at one place, compared with `Json.same`: either both have nothing there,
    or both have something and `same` holds of the two. -/
inductive SameAt : Option Json → Option Json → Prop
  | nothing : SameAt none none
  | values {u v : Json} (h : u.same v = true) : SameAt (some u) (some v)

/-- `SameAt` relates nothing to nothing only, so one side has a value exactly if the other
    one has. -/
theorem SameAt.isSome_eq {a b : Option Json} (h : SameAt a b) : a.isSome = b.isSome := by
  cases h <;> rfl

/-! ### Place by place -/

/-- `sameItems` of two nonempty arrays is `same` of the heads and `sameItems` of the tails. -/
theorem sameItems_cons {x y : Json} {xs ys : List Json} :
    sameItems (x :: xs) (y :: ys) = true ↔ x.same y = true ∧ sameItems xs ys = true := by
  simp [sameItems]

/-- Induction over two arrays for which `sameItems` holds: they are both empty, or both have a head
    and the heads are `same`.  The cases with one array longer than the other do not arise. -/
theorem sameItemsInduction {motive : (xs ys : List Json) → sameItems xs ys = true → Prop}
    (nil : motive [] [] rfl)
    (cons : ∀ {x y xs ys} (hx : x.same y = true) (h : sameItems xs ys = true),
      motive xs ys h → motive (x :: xs) (y :: ys) (sameItems_cons.2 ⟨hx, h⟩))
    {xs ys : List Json} (h : sameItems xs ys = true) : motive xs ys h := by
  -- Along the first array; the second one is empty or not together with it.
  induction xs generalizing ys with
  | nil =>
    cases ys with
    | nil => exact nil
    | cons y ys => cases h
  | cons x xs ih =>
    cases ys with
    | nil => cases h
    | cons y ys =>
      obtain ⟨hx, hrest⟩ := sameItems_cons.1 h
      exact cons hx hrest (ih hrest)

/-- `sameItems xs ys` says the same as `SameAt` at every position.  Since `xs[i]?` is `none` behind
    the end, this includes that the arrays have the same length. -/
theorem sameItems_iff {xs ys : List Json} :
    sameItems xs ys = true ↔ ∀ i : Nat, SameAt xs[i]? ys[i]? := by
  induction xs generalizing ys with
  | nil =>
    cases ys with
    | nil => exact ⟨fun _ i => .nothing, fun _ => rfl⟩
    | cons y ys => exact ⟨nofun, fun h => nomatch h 0⟩
  | cons x xs ih =>
    cases ys with
    | nil => exact ⟨nofun, fun h => nomatch h 0⟩
    | cons y ys =>
      rw [sameItems_cons, ih]
      constructor
      · rintro ⟨hx, hxs⟩ i
        cases i with
        | zero => exact .values hx
        | succ i => exact hxs i
      · intro h
        refine ⟨?_, fun i => h (i + 1)⟩
        -- The heads are what is at position zero.
        cases h 0 with
        | values hx => exact hx

/-- `sameFields` is equality of the keys, in their order, and `sameItems` of the values. -/
theorem sameFields_iff {fs gs : List (String × Json)} :
    sameFields fs gs = true ↔ Dict.keys fs = Dict.keys gs ∧
      sameItems (Dict.values fs) (Dict.values gs) = true := by
  induction fs generalizing gs with
  | nil => cases gs <;> simp [sameFields, sameItems, Dict.keys, Dict.values]
  | cons p fs ih =>
    obtain ⟨k, x⟩ := p
    cases gs with
    | nil => simp [sameFields, Dict.keys]
    | cons q gs =>
      obtain ⟨l, y⟩ := q
      simp only [sameFields, sameItems, Dict.keys, Dict.values, Bool.and_eq_true,
        decide_eq_true_eq, List.map_cons, List.cons.injEq] at ih ⊢
      rw [ih]
      exact and_and_and_comm

/-- `sameFields` of two nonempty objects is equality of the first keys, `same` of the first values
    and `sameFields` of the rest. -/
theorem sameFields_cons {k l : String} {x y : Json} {fs gs : List (String × Json)} :
    sameFields ((k, x) :: fs) ((l, y) :: gs) = true ↔
      k = l ∧ x.same y = true ∧ sameFields fs gs = true := by
  simp [sameFields, and_assoc]

/-- Induction over two objects for which `sameFields` holds, the companion of
    `sameItemsInduction`. -/
theorem sameFieldsInduction
    {motive : (fs gs : List (String × Json)) → sameFields fs gs = true → Prop}
    (nil : motive [] [] rfl)
    (cons : ∀ {k x y fs gs} (hx : x.same y = true) (h : sameFields fs gs = true),
      motive fs gs h → motive ((k, x) :: fs) ((k, y) :: gs) (sameFields_cons.2 ⟨rfl, hx, h⟩))
    {fs gs : List (String × Json)} (h : sameFields fs gs = true) : motive fs gs h := by
  -- Along the first object, as for arrays; the keys agree besides.
  induction fs generalizing gs with
  | nil =>
    cases gs with
    | nil => exact nil
    | cons q gs => cases h
  | cons p fs ih =>
    obtain ⟨k, x⟩ := p
    cases gs with
    | nil => cases h
    | cons q gs =>
      obtain ⟨l, y⟩ := q
      obtain ⟨rfl, hx, hrest⟩ := sameFields_cons.1 h
      exact cons hx hrest (ih hrest)

/-- Objects for which `sameFields` holds are `SameAt` under every key. -/
theorem sameAt_get? {fs gs : List (String × Json)} (h : sameFields fs gs = true) (key : String) :
    SameAt (Dict.get? fs key) (Dict.get? gs key) := by
  induction h using sameFieldsInduction with
  | nil => exact .nothing
  | cons hx hrest ih =>
    rw [Dict.get?_cons, Dict.get?_cons]
    split
    · exact .values hx
    · exact ih

/-- Dictionaries that are `SameAt` under every key satisfy `sameFields`.  Both must be
    `Sorted`, since `sameFields` goes by the order of the fields and `get?` does not. -/
theorem sameFields_of_get? {fs gs : Dict Json} (hf : Dict.Sorted fs) (hg : Dict.Sorted gs)
    (h : ∀ key, SameAt (Dict.get? fs key) (Dict.get? gs key)) : sameFields fs gs = true := by
  -- That both have the same keys is known at the start only, because the induction is on the list
  -- of fields.
  have hkeys : Dict.keys fs = Dict.keys gs :=
    Dict.keys_eq_of_isSome hf hg fun key => (h key).isSome_eq
  clear hg
  induction fs generalizing gs with
  | nil =>
    cases gs with
    | nil => rfl
    | cons q gs => cases hkeys
  | cons p fs ih =>
    obtain ⟨k, x⟩ := p
    cases gs with
    | nil => cases hkeys
    | cons q gs =>
      obtain ⟨l, y⟩ := q
      obtain ⟨rfl, hrest⟩ : k = l ∧ Dict.keys fs = Dict.keys gs := by
        simpa [Dict.keys] using hkeys
      have hx := h k
      rw [Dict.get?_cons, Dict.get?_cons, if_pos rfl, if_pos rfl] at hx
      cases hx with
      | values hx =>
        refine sameFields_cons.2 ⟨rfl, hx, ih hf.tail (fun key => ?_) hrest⟩
        have hkey := h key
        rw [Dict.get?_cons, Dict.get?_cons] at hkey
        split at hkey
        · next hk =>
          -- The first key does not come again, on neither side.
          have hnone : Dict.get? fs key = none := Dict.get?_eq_none_of_lt (hk ▸ hf.head_lt)
          have hnone' : Dict.get? gs key = none := by
            rwa [Dict.get?_eq_none_iff, ← hrest, ← Dict.get?_eq_none_iff]
          rw [hnone, hnone']
          exact .nothing
        · exact hkey

/-- Case analysis on `u.same v`: both are scalars, both arrays or both objects, as values of
    different kinds are never `same`. -/
theorem sameCases {motive : (u v : Json) → u.same v = true → Prop}
    (scalar : ∀ {a b} (h : a.same b = true), motive (.scalar a) (.scalar b) h)
    (arr : ∀ {xs ys} (h : sameItems xs ys = true), motive (.arr xs) (.arr ys) h)
    (obj : ∀ {fs gs} (h : sameFields fs gs = true), motive (.obj fs) (.obj gs) h)
    {u v : Json} (h : u.same v = true) : motive u v h := by
  -- Values of different kinds are not `same` by definition, so those cases close by evaluation.
  cases u with
  | scalar a =>
    cases v with
    | scalar b => exact scalar h
    | _ => cases h
  | arr xs =>
    cases v with
    | arr ys => exact arr h
    | _ => cases h
  | obj fs =>
    cases v with
    | obj gs => exact obj h
    | _ => cases h

/-! ### The equivalence -/

section Items

variable {xs ys zs : List Json}

/-- `sameItems` is reflexive on an array if `same` is on its items. -/
theorem sameItems_refl (h : ∀ x ∈ xs, x.same x = true) : sameItems xs xs = true := by
  induction xs with
  | nil => rfl
  | cons x xs ih =>
    have hrest := ih fun u hu => h u (List.mem_cons_of_mem _ hu)
    simp [sameItems, h x List.mem_cons_self, hrest]

/-- `sameItems` is symmetric on an array if `same` is on its items. -/
theorem sameItems_symm (h : ∀ x ∈ xs, ∀ y : Json, x.same y = true → y.same x = true)
    (hxy : sameItems xs ys = true) : sameItems ys xs = true := by
  induction hxy using sameItemsInduction with
  | nil => rfl
  | cons hx hrest ih =>
    have htail := ih fun u hu => h u (List.mem_cons_of_mem _ hu)
    exact sameItems_cons.2 ⟨h _ List.mem_cons_self _ hx, htail⟩

/-- `sameItems` is transitive on an array if `same` is on its items. -/
theorem sameItems_trans
    (h : ∀ x ∈ xs, ∀ y z : Json, x.same y = true → y.same z = true → x.same z = true)
    (hxy : sameItems xs ys = true) (hyz : sameItems ys zs = true) : sameItems xs zs = true := by
  induction hxy using sameItemsInduction generalizing zs with
  | nil => exact hyz
  | cons hx hrest ih =>
    cases zs with
    | nil => cases hyz
    | cons z zs =>
      obtain ⟨hz, hzs⟩ := sameItems_cons.1 hyz
      have htail := ih (fun u hu => h u (List.mem_cons_of_mem _ hu)) hzs
      exact sameItems_cons.2 ⟨h _ List.mem_cons_self _ _ hx hz, htail⟩

end Items

/-- Every value equals itself. -/
@[simp] theorem same_refl (v : Json) : v.same v = true := by
  induction v using partsInduction with
  | scalar a => exact Scalar.same_refl a
  | arr xs ih => exact sameItems_refl ih
  | obj fs ih => exact sameFields_iff.2 ⟨rfl, sameItems_refl (List.forall_mem_map.2 ih)⟩

/-- Equality is symmetric. -/
theorem same_symm {a b : Json} (h : a.same b = true) : b.same a = true := by
  induction a using partsInduction generalizing b with
  | scalar x =>
    cases h using sameCases with
    | scalar h => exact Scalar.same_symm h
  | arr xs ih =>
    cases h using sameCases with
    | arr h => exact sameItems_symm (fun x hx y => ih x hx) h
  | obj fs ih =>
    cases h using sameCases with
    | obj h =>
      obtain ⟨hk, hv⟩ := sameFields_iff.1 h
      refine sameFields_iff.2 ⟨hk.symm, sameItems_symm ?_ hv⟩
      exact List.forall_mem_map.2 fun p hp y => ih p hp

/-- Equality is transitive. -/
theorem same_trans {a b c : Json} (h : a.same b = true) (g : b.same c = true) :
    a.same c = true := by
  -- Along the first value; the kind of the others follows from it.
  induction a using partsInduction generalizing b c with
  | scalar x =>
    cases h using sameCases with
    | scalar h =>
      cases g using sameCases with
      | scalar g => exact Scalar.same_trans h g
  | arr xs ih =>
    cases h using sameCases with
    | arr h =>
      cases g using sameCases with
      | arr g => exact sameItems_trans (fun x hx y z => ih x hx) h g
  | obj fs ih =>
    cases h using sameCases with
    | obj h =>
      cases g using sameCases with
      | obj g =>
        obtain ⟨hk, hv⟩ := sameFields_iff.1 h
        obtain ⟨gk, gv⟩ := sameFields_iff.1 g
        refine sameFields_iff.2 ⟨hk.trans gk, sameItems_trans ?_ hv gv⟩
        exact List.forall_mem_map.2 fun p hp y z => ih p hp

/-! ### Equal changes -/

section Changes

variable {u v : Json} {xs ys : List Json} {fs gs : List (String × Json)}

/-- Arrays for which `sameItems` holds have the same length. -/
theorem length_eq_of_same (h : sameItems xs ys = true) : xs.length = ys.length := by
  induction h using sameItemsInduction with
  | nil => rfl
  | cons hx hrest ih => rw [List.length_cons, List.length_cons, ih]

/-- `sameItems` is kept if `same` values are put at one position of both arrays. -/
theorem sameItems_set (h : sameItems xs ys = true) (i : Nat) (huv : u.same v = true) :
    sameItems (xs.set i u) (ys.set i v) = true := by
  have hlength := length_eq_of_same h
  rw [sameItems_iff] at h ⊢
  intro j
  rw [List.getElem?_set, List.getElem?_set, hlength]
  split
  · split
    · exact .values huv
    · exact .nothing
  · exact h j

/-- `sameItems` is kept if `same` values are appended to both arrays. -/
theorem sameItems_append (h : sameItems xs ys = true) (huv : u.same v = true) :
    sameItems (xs ++ [u]) (ys ++ [v]) = true := by
  have hlength := length_eq_of_same h
  rw [sameItems_iff] at h ⊢
  intro j
  rw [List.getElem?_append, List.getElem?_append, hlength]
  split
  · exact h j
  · cases hj : j - ys.length with
    | zero => exact .values huv
    | succ k => exact .nothing

/-- `sameItems` is kept if the items at one position are taken out of both arrays. -/
theorem sameItems_eraseIdx (h : sameItems xs ys = true) (i : Nat) :
    sameItems (xs.eraseIdx i) (ys.eraseIdx i) = true := by
  rw [sameItems_iff] at h ⊢
  intro j
  rw [List.getElem?_eraseIdx, List.getElem?_eraseIdx]
  split
  · exact h j
  · exact h (j + 1)

/-- `sameFields` is kept if `same` values are inserted under one key of both objects. -/
theorem sameFields_insert (h : sameFields fs gs = true) (key : String) (huv : u.same v = true) :
    sameFields (Dict.insert fs key u) (Dict.insert gs key v) = true := by
  induction h using sameFieldsInduction with
  | nil => exact sameFields_cons.2 ⟨rfl, huv, rfl⟩
  | cons hx hrest ih =>
    rw [Dict.insert, Dict.insert]
    split
    · exact sameFields_cons.2 ⟨rfl, huv, hrest⟩
    · split
      · exact sameFields_cons.2 ⟨rfl, huv, sameFields_cons.2 ⟨rfl, hx, hrest⟩⟩
      · exact sameFields_cons.2 ⟨rfl, hx, ih⟩

/-- `sameFields` is kept if one key is erased from both objects. -/
theorem sameFields_erase (h : sameFields fs gs = true) (key : String) :
    sameFields (Dict.erase fs key) (Dict.erase gs key) = true := by
  induction h using sameFieldsInduction with
  | nil => rfl
  | cons hx hrest ih =>
    rw [Dict.erase, Dict.erase]
    split
    · exact ih
    · exact sameFields_cons.2 ⟨rfl, hx, ih⟩

end Changes

end Json

end Observatory
