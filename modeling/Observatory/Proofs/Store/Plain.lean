import Observatory.Proofs.ArrayIndex
import Observatory.Proofs.Json.Same
import Observatory.Store.Edit

/-!
# Changes of a plain value

A store without its stamps is a JSON value, and a change of the store is a change of that value
along a path.  Here are these changes with nothing of the store left in them.

* `Json.part?`, `Json.at?`: one step and many steps down;
* `Json.write`, `Json.drop`: one part written, one part taken out;
* `Json.put`, `Json.cut`: the same at the end of a path;
* `Json.spelled`: a path with every position in its shortest spelling;
* `Json.at?_put_self`, `Json.at?_put_apart`: what is read after a value was put somewhere;
* `Json.SameOutcome`, `Json.sameOutcome_put`, `Json.sameOutcome_cut`: equal values come to equal
  values.
-/

namespace Observatory

namespace Json

/-! ### Reading -/

/-- The part under a key; a key of an array is any spelling of a position. -/
def part? : Json → String → Option Json
  | .scalar _, _ => none
  | .obj fields, key => Dict.get? fields key
  | .arr items, key => (ArrayIndex.parse? key).bind fun i => items[i]?

/-- The part that a path of keys leads to. -/
def at? : Json → List String → Option Json
  | t, [] => some t
  | t, key :: rest => (t.part? key).bind fun u => at? u rest

/-- What is under a key, or an empty object to begin with. -/
def partOrNew (t : Json) (key : String) : Json := (t.part? key).getD emptyObject

/-- A key in the spelling that a part is told by: the shortest one for a position. -/
def spelling : Json → String → String
  | .arr _, key => ((ArrayIndex.parse? key).map ArrayIndex.text).getD key
  | _, key => key

/-- A path in the spelling that a part is told by. -/
def spelled : Json → List String → List String
  | _, [] => []
  | t, key :: rest => t.spelling key :: spelled (t.partOrNew key) rest

/-! ### Changes -/

/-- Write the part under a key.  A scalar gives way to an object; an array has room for one item
    behind its last one. -/
def write (t : Json) (key : String) (u : Json) : Except StoreError Json :=
  match t with
  | .scalar _ => .ok (.obj [(key, u)])
  | .obj fields => .ok (.obj (Dict.insert fields key u))
  | .arr items =>
    match ArrayIndex.parse? key with
    | none => .error (.invalidPath [key] .notPosition)
    | some i =>
      if i < items.length then .ok (.arr (items.set i u))
      else if i = items.length then .ok (.arr (items ++ [u]))
      else .error (.indexOutOfRange [] i items.length)

/-- Take the part under a key out.  The items behind it move down. -/
def drop (t : Json) (key : String) : Except StoreError Json :=
  match t with
  | .scalar a => .ok (.scalar a)
  | .obj fields => .ok (.obj (Dict.erase fields key))
  | .arr items =>
    match ArrayIndex.parse? key with
    | none => .error (.invalidPath [key] .notPosition)
    | some i => .ok (.arr (items.eraseIdx i))

/-- Put a value at the end of a path. -/
def put (v : Json) : List String → Json → Except StoreError Json
  | [], _ => .ok v
  | key :: rest, t => ((put v rest (t.partOrNew key)).mapError (.under key)).bind fun u =>
      t.write key u

/-- Cut off what is at the end of a path, if there is anything. -/
def cut : List String → Json → Except StoreError Json
  | [], _ => .error (.invalidPath [] .removesRoot)
  | key :: rest, t =>
    match t.part? key with
    | none => t.drop key
    | some u =>
      if rest.isEmpty then t.drop key
      else ((cut rest u).mapError (.under key)).bind fun u => t.write key u

section Put

variable {v t t' u : Json} {key : String} {rest : List String}

theorem put_cons (h : put v rest (t.partOrNew key) = .ok u) :
    put v (key :: rest) t = t.write key u := by
  rw [put, h]
  rfl

/-- If `put` beneath a part succeeds, then it puts the value into that part, or into a new object,
    and writes the result. -/
theorem put_eq_ok (h : put v (key :: rest) t = .ok t') :
    ∃ u, put v rest (t.partOrNew key) = .ok u ∧ t.write key u = .ok t' := by
  rw [put] at h
  cases hu : put v rest (t.partOrNew key) with
  | error e =>
    rw [hu] at h
    cases h
  | ok u =>
    rw [hu] at h
    exact ⟨u, rfl, h⟩

/-- `put` in an empty object makes the objects of the path, as `nest` does. -/
theorem put_emptyObject (v : Json) (path : List String) :
    put v path emptyObject = .ok (nest path v) := by
  induction path with
  | nil => rfl
  | cons key rest ih => exact put_cons (t := emptyObject) ih

/-- `put` under a key without a part writes the nested value there. -/
theorem put_of_part?_none (h : t.part? key = none) :
    put v (key :: rest) t = t.write key (nest rest v) := by
  have hnew : t.partOrNew key = emptyObject := by rw [partOrNew, h, Option.getD_none]
  exact put_cons (hnew ▸ put_emptyObject v rest)

/-- `put` under a key with a part puts the value into the part and writes the result. -/
theorem put_of_part?_some {c : Json} (h : t.part? key = some c) : put v (key :: rest) t =
    ((put v rest c).mapError (.under key)).bind fun u => t.write key u := by
  rw [put, partOrNew, h, Option.getD_some]

/-! ### Reading after a change -/

/-- The spelling of a key of an array spells the same position as the key, or none like the key. -/
theorem parse?_spelling (items : List Json) (k : String) :
    ArrayIndex.parse? ((arr items).spelling k) = ArrayIndex.parse? k := by
  cases hk : ArrayIndex.parse? k with
  | none => simp [spelling, hk]
  | some i =>
    have hlt : i < ArrayIndex.limit := ArrayIndex.lt_limit_of_parse? hk
    simp [spelling, hk, ArrayIndex.parse?_text hlt]

/-- A key of an array has the spelling of `key` exactly if it spells the same position. -/
theorem spelling_arr_eq_iff {items : List Json} {k : String} {i : Nat}
    (h : ArrayIndex.parse? key = some i) :
    (arr items).spelling k = (arr items).spelling key ↔ ArrayIndex.parse? k = some i := by
  constructor
  · intro hk
    rw [← parse?_spelling items k, hk, parse?_spelling, h]
  · intro hk
    simp [spelling, hk, h]

/-- Keys with one spelling lead to the same part. -/
theorem part?_eq_of_spelling {k : String} (h : t.spelling k = t.spelling key) :
    t.part? k = t.part? key := by
  cases t with
  | scalar a => rfl
  | obj fields => exact congrArg _ h
  | arr items =>
    have hparse : ArrayIndex.parse? k = ArrayIndex.parse? key := by
      rw [← parse?_spelling items k, h, parse?_spelling]
    rw [part?, part?, hparse]

/-- If `write` into an array succeeds, then the key spells a position, the item there is the new
    one, and the others are as before. -/
theorem write_arr {items : List Json} (h : (arr items).write key u = .ok t') :
    ∃ i next, ArrayIndex.parse? key = some i ∧ t' = arr next ∧
      ∀ j : Nat, next[j]? = if j = i then some u else items[j]? := by
  rw [write] at h
  cases hp : ArrayIndex.parse? key with
  | none => simp [hp] at h
  | some i =>
    simp only [hp] at h
    -- The position is that of an item, that of the end, or one behind it, where `write` fails.
    split at h
    · next hlt =>
      cases h
      refine ⟨i, _, rfl, rfl, fun j => ?_⟩
      simp [List.getElem?_set, hlt, eq_comm]
    · split at h
      · next hlen =>
        cases h
        refine ⟨i, _, rfl, rfl, fun j => ?_⟩
        rw [List.getElem?_append, List.getElem?_singleton]
        by_cases hj : j = i
        · have hend : ¬ j < items.length ∧ j - items.length = 0 := by omega
          rw [if_pos hj, if_neg hend.1, if_pos hend.2]
        · rw [if_neg hj]
          split
          · rfl
          · have hout : items.length ≤ j ∧ j - items.length ≠ 0 := by omega
            rw [if_neg hout.2, List.getElem?_eq_none hout.1]
      · cases h

/-- After `write`, the new part is read under every key with the spelling of `key`, and the parts
    under other keys are as before. -/
theorem part?_write (h : t.write key u = .ok t') (k : String) :
    t'.part? k = if t.spelling k = t.spelling key then some u else t.part? k := by
  -- A scalar becomes an object with one key; the others keep their parts.
  cases t with
  | scalar a =>
    cases h
    show Dict.get? [(key, u)] k = if k = key then some u else none
    rw [Dict.get?_cons, Dict.get?_nil]
    simp only [eq_comm]
  | obj fields =>
    cases h
    show Dict.get? (Dict.insert fields key u) k = if k = key then some u else Dict.get? fields k
    rw [Dict.get?_insert]
    simp only [eq_comm]
  | arr items =>
    obtain ⟨i, next, hp, rfl, hnext⟩ := write_arr h
    simp only [spelling_arr_eq_iff hp]
    rw [part?, part?]
    cases ArrayIndex.parse? k with
    | none => rfl
    | some j => simpa using hnext j

/-- After `put`, the value is read at the end of its path. -/
theorem at?_put_self {path : List String} (h : put v path t = .ok t') : t'.at? path = some v := by
  induction path generalizing t t' with
  | nil =>
    cases h
    rfl
  | cons key rest ih =>
    obtain ⟨u, hu, hw⟩ := put_eq_ok h
    rw [at?, part?_write hw, if_pos rfl]
    exact ih hu

/-- After `put`, everything reads as before along a path that neither leads through the end of its
    path nor is passed by it.  The paths are compared in their spellings, as `00` and `0` are one
    position. -/
theorem at?_put_apart {path q : List String} (h : put v path t = .ok t')
    (hq : ¬ t.spelled q <+: t.spelled path) (hp : ¬ t.spelled path <+: t.spelled q) :
    t'.at? q = t.at? q := by
  induction path generalizing t t' q with
  | nil => exact absurd (List.nil_prefix) hp
  | cons key rest ih =>
    obtain ⟨u, hu, hw⟩ := put_eq_ok h
    cases q with
    | nil => exact absurd (List.nil_prefix) hq
    | cons k qs =>
      rw [at?, at?, part?_write hw]
      split
      · next hk =>
        -- The two paths go on in the same part, or in the empty object that is begun there.
        have hpart : t.part? k = t.part? key := part?_eq_of_spelling hk
        have hnew : t.partOrNew k = t.partOrNew key := by rw [partOrNew, partOrNew, hpart]
        rw [spelled, spelled, hk, hnew, List.cons_prefix_cons] at hq hp
        have hu' : u.at? qs = (t.partOrNew key).at? qs :=
          ih hu (fun h => hq ⟨rfl, h⟩) (fun h => hp ⟨rfl, h⟩)
        rw [Option.bind_some, hu', hpart, partOrNew]
        cases t.part? key with
        | some c => rfl
        | none =>
          cases qs with
          | nil => exact absurd ⟨rfl, List.nil_prefix⟩ hq
          | cons k' qs => rfl
      · rfl

-- Two spellings of a position are one path; beneath a part that is not there yet, keys are keys.
example : (arr [.int 5]).spelled ["+00"] = ["0"] ∧
    (arr [.int 5]).spelled ["01", "+00"] = ["1", "+00"] := by decide

end Put

/-! ### Equal values -/

/-- Two changes fail with the same error, or come to values that are the same. -/
inductive SameOutcome : Except StoreError Json → Except StoreError Json → Prop
  | error (e : StoreError) : SameOutcome (.error e) (.error e)
  | ok {t t' : Json} (h : t.same t' = true) : SameOutcome (.ok t) (.ok t')

section Same

variable {t t' u u' v v' : Json} {a b : Except StoreError Json}

/-- `SameOutcome` is kept by what is done with the new part, if that keeps it. -/
theorem SameOutcome.bind (h : SameOutcome a b) (key : String)
    {f g : Json → Except StoreError Json}
    (hfg : ∀ u u', u.same u' = true → SameOutcome (f u) (g u')) :
    SameOutcome ((a.mapError (.under key)).bind f) ((b.mapError (.under key)).bind g) := by
  cases h with
  | error e => exact .error _
  | ok h => exact hfg _ _ h

/-- Values that are the same have the same parts. -/
theorem sameAt_part? (h : t.same t' = true) (key : String) :
    SameAt (t.part? key) (t'.part? key) := by
  cases h using sameCases with
  | scalar h => exact .nothing
  | obj h => exact sameAt_get? h key
  | arr h =>
    rw [part?, part?]
    cases ArrayIndex.parse? key with
    | none => exact .nothing
    | some i => exact sameItems_iff.1 h i

/-- `write` of parts that are the same into values that are the same has the same outcome. -/
theorem sameOutcome_write (h : t.same t' = true) (key : String) (hu : u.same u' = true) :
    SameOutcome (t.write key u) (t'.write key u') := by
  cases h using sameCases with
  | scalar h => exact .ok (sameFields_cons.2 ⟨rfl, hu, rfl⟩)
  | obj h => exact .ok (sameFields_insert h key hu)
  | arr h =>
    rw [write, write]
    cases ArrayIndex.parse? key with
    | none => exact .error _
    | some i =>
      dsimp only
      -- Arrays that are the same have the same length, so `write` fails in both or in neither.
      rw [length_eq_of_same h]
      split
      · exact .ok (sameItems_set h i hu)
      · split
        · exact .ok (sameItems_append h hu)
        · exact .error _

/-- `drop` under one key of values that are the same has the same outcome. -/
theorem sameOutcome_drop (h : t.same t' = true) (key : String) :
    SameOutcome (t.drop key) (t'.drop key) := by
  cases h using sameCases with
  | scalar h => exact .ok h
  | obj h => exact .ok (sameFields_erase h key)
  | arr h =>
    rw [drop, drop]
    cases ArrayIndex.parse? key with
    | none => exact .error _
    | some i => exact .ok (sameItems_eraseIdx h i)

/-- `put` of values that are the same at one place of values that are the same has the same
    outcome. -/
theorem sameOutcome_put (hv : v.same v' = true) (path : List String) (h : t.same t' = true) :
    SameOutcome (put v path t) (put v' path t') := by
  induction path generalizing t t' with
  | nil => exact .ok hv
  | cons key rest ih =>
    have hpart : (t.partOrNew key).same (t'.partOrNew key) = true := by
      have hat := sameAt_part? h key
      rw [partOrNew, partOrNew]
      generalize t.part? key = a, t'.part? key = b at hat ⊢
      cases hat with
      | nothing => rfl
      | values hu => exact hu
    rw [put, put]
    exact (ih hpart).bind key fun u u' hu => sameOutcome_write h key hu

/-- `cut` at one place of values that are the same has the same outcome. -/
theorem sameOutcome_cut (path : List String) (h : t.same t' = true) :
    SameOutcome (cut path t) (cut path t') := by
  induction path generalizing t t' with
  | nil => exact .error _
  | cons key rest ih =>
    have hat := sameAt_part? h key
    rw [cut, cut]
    generalize t.part? key = a, t'.part? key = b at hat ⊢
    cases hat with
    | nothing => exact sameOutcome_drop h key
    | values hu =>
      dsimp only
      split
      · exact sameOutcome_drop h key
      · exact (ih hu).bind key fun u u' hu => sameOutcome_write h key hu

end Same

end Json

end Observatory
