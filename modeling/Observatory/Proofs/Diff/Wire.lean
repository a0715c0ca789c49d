import Observatory.Diff.Wire
import Observatory.Proofs.Diff.Apply
import Observatory.Proofs.Json.Document

/-!
# Differences over the wire

The wire form of a difference does not tell a replacement by a whole object or array from one
that is spelled out part by part.  Decoding gives the spelled-out difference, which does the
same to every value and has the same wire form.  The items of an array travel under the
spellings of their positions, in the order of the text; decoding puts them back in the order of
the positions.

* `Diff.Bounded`: every item of a new array has a position;
* `Diff.spelled`, `Diff.Plain`: replacements spelled out; nothing is left to be spelled out;
* `Diff.decode_encode`, `Diff.encode_spelled`, `Diff.apply_spelled`: decoding the wire form,
  encoding the spelled-out difference, applying it;
* `Diff.of_decode`: what is decoded is plain;
* `Diff.wire_transparent`: the wire changes nothing that a client computes.
-/

namespace Observatory

namespace Diff

/-- Induction over the parts of a difference: the hypothesis is there for every difference that a
    constructor holds, in whatever list. -/
@[elab_as_elim]
theorem partsInduction {motive : Diff → Prop}
    (value : ∀ v, motive (.value v))
    (newObject : ∀ fields, (∀ p ∈ fields, motive p.2) → motive (.newObject fields))
    (newArray : ∀ items, (∀ d ∈ items, motive d) → motive (.newArray items))
    (update : ∀ changes removed, (∀ p ∈ changes, motive p.2) → motive (.update changes removed))
    (d : Diff) : motive d :=
  match d with
  | .value v => value v
  | .newObject fields =>
    newObject fields fun p _ => partsInduction value newObject newArray update p.2
  | .newArray items => newArray items fun d _ => partsInduction value newObject newArray update d
  | .update changes removed =>
    update changes removed fun p _ => partsInduction value newObject newArray update p.2
  termination_by sizeOf d
  -- A part of a difference stands in one of its lists, and so it is smaller.
  decreasing_by
  · have hlt := Dict.sizeOf_lt_of_mem ‹_ ∈ fields›
    simp only [Diff.newObject.sizeOf_spec]
    omega
  · have hlt := List.sizeOf_lt_of_mem ‹_ ∈ items›
    simp only [Diff.newArray.sizeOf_spec]
    omega
  · have hlt := Dict.sizeOf_lt_of_mem ‹_ ∈ changes›
    simp only [Diff.update.sizeOf_spec]
    omega

/-! ### Differences that have a wire form -/

/-- Every item of a new array has a position below `ArrayIndex.limit`, and so has every item within
    a value that replaces another one. -/
inductive Bounded : Diff → Prop
  | value {v : Json} (h : v.Bounded) : Bounded (.value v)
  | newObject {fields : List (String × Diff)} (h : ∀ p ∈ fields, Bounded p.2) :
      Bounded (.newObject fields)
  | newArray {items : List Diff} (hl : items.length ≤ ArrayIndex.limit)
      (h : ∀ d ∈ items, Bounded d) : Bounded (.newArray items)
  | update {changes : List (String × Diff)} {removed : List String}
      (h : ∀ p ∈ changes, Bounded p.2) : Bounded (.update changes removed)

/-- Every value that replaces another one is a scalar, so objects and arrays are spelled out by
    `newObject` and `newArray`. -/
inductive Plain : Diff → Prop
  | value (s : Scalar) : Plain (.value (.scalar s))
  | newObject {fields : List (String × Diff)} (h : ∀ p ∈ fields, Plain p.2) :
      Plain (.newObject fields)
  | newArray {items : List Diff} (h : ∀ d ∈ items, Plain d) : Plain (.newArray items)
  | update {changes : List (String × Diff)} {removed : List String}
      (h : ∀ p ∈ changes, Plain p.2) : Plain (.update changes removed)

mutual

/-- The difference with all replacements spelled out: `materialize` takes the place of every
    `value`. -/
def spelled : Diff → Diff
  | .value v => materialize v
  | .newObject fields => .newObject (spelledFields fields)
  | .newArray items => .newArray (spelledItems items)
  | .update changes removed => .update (spelledFields changes) removed

/-- `spelled` for the differences of some items. -/
def spelledItems : List Diff → List Diff
  | [] => []
  | d :: rest => spelled d :: spelledItems rest

/-- `spelled` for the differences of some fields. -/
def spelledFields : List (String × Diff) → List (String × Diff)
  | [] => []
  | (k, d) :: rest => (k, spelled d) :: spelledFields rest

end

/-! ### Part by part -/

/-- `spelledItems` is `spelled` mapped over a list.  This and the next lemmas turn the functions
    that recurse through lists into maps, for which there are lemmas. -/
theorem spelledItems_eq (items : List Diff) : spelledItems items = items.map spelled := by
  induction items with
  | nil => rfl
  | cons d rest ih => rw [spelledItems, ih, List.map_cons]

theorem spelledFields_eq (fields : List (String × Diff)) :
    spelledFields fields = Dict.mapValues spelled fields := by
  induction fields with
  | nil => rfl
  | cons p rest ih =>
    obtain ⟨k, d⟩ := p
    rw [spelledFields, ih]
    rfl

theorem materializeItems_eq (items : List Json) :
    materializeItems items = items.map materialize := by
  induction items with
  | nil => rfl
  | cons v rest ih => rw [materializeItems, ih, List.map_cons]

theorem materializeFields_eq (fields : List (String × Json)) :
    materializeFields fields = Dict.mapValues materialize fields := by
  induction fields with
  | nil => rfl
  | cons p rest ih =>
    obtain ⟨k, v⟩ := p
    rw [materializeFields, ih]
    rfl

theorem encodeValueItems_eq (items : List Json) :
    encodeValueItems items = items.map encodeValue := by
  induction items with
  | nil => rfl
  | cons v rest ih => rw [encodeValueItems, ih, List.map_cons]

theorem encodeValueFields_eq (fields : List (String × Json)) :
    encodeValueFields fields = Dict.mapValues encodeValue fields := by
  induction fields with
  | nil => rfl
  | cons p rest ih =>
    obtain ⟨k, v⟩ := p
    rw [encodeValueFields, ih]
    rfl

theorem encodeItems_eq (items : List Diff) : encodeItems items = items.map encode := by
  induction items with
  | nil => rfl
  | cons d rest ih => rw [encodeItems, ih, List.map_cons]

theorem encodeFields_eq (fields : List (String × Diff)) :
    encodeFields fields = Dict.mapValues encode fields := by
  induction fields with
  | nil => rfl
  | cons p rest ih =>
    obtain ⟨k, d⟩ := p
    rw [encodeFields, ih]
    rfl

theorem decodeEach_eq (fields : List (String × Json)) :
    decodeEach fields = Dict.mapValues decode fields := by
  induction fields with
  | nil => rfl
  | cons p rest ih =>
    obtain ⟨k, v⟩ := p
    rw [decodeEach, ih]
    rfl

/-- `decodeUnder key` decodes the parts of the field with that key, if there is one. -/
theorem decodeUnder_eq (key : String) (fields : List (String × Json)) :
    decodeUnder key fields = (Dict.get? fields key).map (decodeParts key) := by
  induction fields with
  | nil => rfl
  | cons p rest ih =>
    obtain ⟨k, v⟩ := p
    rw [decodeUnder, Dict.get?_cons, ih]
    split <;> rfl

/-! ### Spelling out -/

/-- `materialize v` is `Plain` for every value. -/
theorem plain_materialize (v : Json) : Plain (materialize v) := by
  induction v using Json.partsInduction with
  | scalar s => exact .value s
  | arr items ih =>
    rw [materialize, materializeItems_eq]
    refine .newArray fun d hd => ?_
    obtain ⟨v, hv, rfl⟩ := List.mem_map.1 hd
    exact ih v hv
  | obj fields ih =>
    rw [materialize, materializeFields_eq]
    refine .newObject fun q hq => ?_
    obtain ⟨p, hp, rfl⟩ := List.mem_map.1 hq
    exact ih p hp

/-- `materialize` has a new array for every array of the value, with as many items, so it is
    `Bounded` if the value is. -/
theorem bounded_materialize {v : Json} (hv : v.Bounded) : Bounded (materialize v) := by
  induction v using Json.partsInduction with
  | scalar s => exact .value hv
  | arr items ih =>
    obtain ⟨hl, heach⟩ := hv
    rw [materialize, materializeItems_eq]
    refine .newArray (by rwa [List.length_map]) fun d hd => ?_
    obtain ⟨v, hv, rfl⟩ := List.mem_map.1 hd
    exact ih v hv (Json.boundedItems_iff.1 heach v hv)
  | obj fields ih =>
    rw [materialize, materializeFields_eq]
    refine .newObject fun q hq => ?_
    obtain ⟨p, hp, rfl⟩ := List.mem_map.1 hq
    exact ih p hp (Json.boundedFields_iff.1 hv p hp)

/-- `spelled` leaves no object or array to be spelled out. -/
theorem plain_spelled (d : Diff) : Plain d.spelled := by
  -- Values are replaced by their spelling, and the other constructors only hand it on.
  induction d using Diff.partsInduction with
  | value v => exact plain_materialize v
  | newObject fields ih =>
    rw [spelled, spelledFields_eq]
    refine .newObject fun q hq => ?_
    obtain ⟨p, hp, rfl⟩ := List.mem_map.1 hq
    exact ih p hp
  | newArray items ih =>
    rw [spelled, spelledItems_eq]
    refine .newArray fun e he => ?_
    obtain ⟨d, hd, rfl⟩ := List.mem_map.1 he
    exact ih d hd
  | update changes removed ih =>
    rw [spelled, spelledFields_eq]
    refine .update fun q hq => ?_
    obtain ⟨p, hp, rfl⟩ := List.mem_map.1 hq
    exact ih p hp

/-- `spelled` keeps a difference `Bounded`. -/
theorem Bounded.spelled {d : Diff} (hd : d.Bounded) : Bounded d.spelled := by
  -- Spelling out changes no list but inside the values, so every bound stays.
  induction hd with
  | value hv => exact bounded_materialize hv
  | newObject h ih =>
    rw [Diff.spelled, spelledFields_eq]
    refine .newObject fun q hq => ?_
    obtain ⟨p, hp, rfl⟩ := List.mem_map.1 hq
    exact ih p hp
  | newArray hl h ih =>
    rw [Diff.spelled, spelledItems_eq]
    refine .newArray (by rwa [List.length_map]) fun e he => ?_
    obtain ⟨d, hd, rfl⟩ := List.mem_map.1 he
    exact ih d hd
  | update h ih =>
    rw [Diff.spelled, spelledFields_eq]
    refine .update fun q hq => ?_
    obtain ⟨p, hp, rfl⟩ := List.mem_map.1 hq
    exact ih p hp

/-- `spelled` does nothing to a `Plain` difference. -/
theorem Plain.spelled_eq {d : Diff} (hd : d.Plain) : d.spelled = d := by
  induction hd with
  | value s => rfl
  | newObject h ih => rw [spelled, spelledFields_eq, Dict.mapValues_eq_self ih]
  | newArray h ih => rw [spelled, spelledItems_eq, List.map_congr_left ih, List.map_id']
  | update h ih => rw [spelled, spelledFields_eq, Dict.mapValues_eq_self ih]

/-- The wire form of `materialize v` is that of the value itself: this is what makes the two
    indistinguishable on the wire. -/
theorem encode_materialize (v : Json) : encode (materialize v) = encodeValue v := by
  induction v using Json.partsInduction with
  | scalar s => rfl
  | arr items ih =>
    have hitems : encodeItems (materializeItems items) = encodeValueItems items := by
      rw [encodeItems_eq, materializeItems_eq, encodeValueItems_eq, List.map_map]
      exact List.map_congr_left ih
    rw [materialize, encode, encodeValue, hitems]
  | obj fields ih =>
    have hfields : encodeFields (materializeFields fields) = encodeValueFields fields := by
      rw [encodeFields_eq, materializeFields_eq, encodeValueFields_eq, Dict.mapValues_mapValues]
      exact Dict.mapValues_congr ih
    rw [materialize, encode, encodeValue, hfields]

/-- `d.spelled` and `d` have the same wire form. -/
theorem encode_spelled (d : Diff) : encode d.spelled = encode d := by
  have hfields : ∀ fields : List (String × Diff), (∀ p ∈ fields, encode p.2.spelled = encode p.2) →
      encodeFields (spelledFields fields) = encodeFields fields := by
    intro fields h
    rw [encodeFields_eq, spelledFields_eq, encodeFields_eq, Dict.mapValues_mapValues]
    exact Dict.mapValues_congr h
  induction d using Diff.partsInduction with
  | value v => exact encode_materialize v
  | newObject fields ih => rw [spelled, encode, encode, hfields fields ih]
  | newArray items ih =>
    have hitems : encodeItems (spelledItems items) = encodeItems items := by
      rw [encodeItems_eq, spelledItems_eq, encodeItems_eq, List.map_map]
      exact List.map_congr_left ih
    rw [spelled, encode, encode, hitems]
  | update changes removed ih => rw [spelled, encode, encode, hfields changes ih]

/-! ### Application -/

/-- `createFields` succeeds if every edit gives the value of its field, and makes the object with
    these fields. -/
theorem createFields_ok {fields : List (String × Json)} {edit : Json → Edit}
    (h : ∀ p ∈ fields, edit p.2 none = .ok p.2) :
    createFields (Dict.mapValues edit fields) = .ok fields := by
  rw [createFields, Dict.mapValues, List.mapM_map]
  refine (mapM_ok (g := id) fun p hp => ?_).trans (congrArg Except.ok (List.map_id fields))
  show (edit p.2 none).map _ = _
  rw [h p hp]
  rfl

/-- `materialize v` replaces whatever was there by `v`. -/
theorem apply_materialize (v : Json) (prior : Option Json) :
    (materialize v).apply prior = .ok v := by
  -- What was there before does not matter, since each part is made anew.
  induction v using Json.partsInduction generalizing prior with
  | scalar s => rfl
  | arr items ih =>
    have hitems : ((itemEdits (materializeItems items)).mapM fun (edit : Edit) => edit none) =
        .ok items := by
      rw [itemEdits_eq, materializeItems_eq, List.map_map, List.mapM_map]
      exact (mapM_ok (g := id) fun v hv => ih v hv none).trans
        (congrArg Except.ok (List.map_id items))
    rw [materialize, apply, hitems]
    rfl
  | obj fields ih =>
    have hfields : createFields (fieldEdits (materializeFields fields)) = .ok fields := by
      rw [fieldEdits_eq, materializeFields_eq, Dict.mapValues_mapValues]
      exact createFields_ok fun p hp => ih p hp none
    rw [materialize, apply, hfields]
    rfl

/-- `d.spelled` and `d` do the same to every prior value, and fail in the same way. -/
theorem apply_spelled (d : Diff) : d.spelled.apply = d.apply := by
  have hfields : ∀ fields : List (String × Diff), (∀ p ∈ fields, p.2.spelled.apply = p.2.apply) →
      fieldEdits (spelledFields fields) = fieldEdits fields := by
    intro fields h
    rw [fieldEdits_eq, spelledFields_eq, fieldEdits_eq, Dict.mapValues_mapValues]
    exact Dict.mapValues_congr h
  induction d using Diff.partsInduction with
  | value v => exact funext (apply_materialize v)
  | newObject fields ih => rw [spelled, apply, apply, hfields fields ih]
  | newArray items ih =>
    have hitems : itemEdits (spelledItems items) = itemEdits items := by
      rw [itemEdits_eq, spelledItems_eq, itemEdits_eq, List.map_map]
      exact List.map_congr_left ih
    rw [spelled, apply, apply, hitems]
  | update changes removed ih => rw [spelled, apply, apply, hfields changes ih]

/-! ### Decoding what was encoded -/

/-- `collectFields` gives back the fields if each of them is decoded to what it was. -/
theorem collectFields_ok {fields : List (String × Diff)}
    {decoded : Diff → Except DiffError Diff} (h : ∀ p ∈ fields, decoded p.2 = .ok p.2) :
    collectFields (Dict.mapValues decoded fields) = .ok fields := by
  rw [collectFields, Dict.mapValues, List.mapM_map]
  refine (mapM_ok (g := id) fun p hp => ?_).trans (congrArg Except.ok (List.map_id fields))
  show (decoded p.2).map _ = _
  rw [h p hp]
  rfl

/-- `keyed` is `Dict.ofPairs` of the items under the spellings of their positions. -/
theorem keyed_eq {α : Type} (items : List α) :
    keyed items = Dict.ofPairs (Node.numbered 0 items) := by
  have h : ∀ i, (items.zipIdx i).map (fun p => (ArrayIndex.text p.2, p.1)) =
      Node.numbered i items := by
    induction items with
    | nil => exact fun i => rfl
    | cons x rest ih =>
      intro i
      rw [List.zipIdx_cons, List.map_cons, ih, Node.numbered]
  exact congrArg Dict.ofPairs (h 0)

/-- It does not matter whether the items are changed before or after they are `keyed`. -/
theorem keyed_map {α β : Type} (f : α → β) (items : List α) :
    keyed (items.map f) = Dict.mapValues f (keyed items) := by
  have h : ∀ i, Node.numbered i (items.map f) = Dict.mapValues f (Node.numbered i items) := by
    induction items with
    | nil => exact fun i => rfl
    | cons x rest ih =>
      intro i
      rw [List.map_cons, Node.numbered, ih]
      rfl
  rw [keyed_eq, keyed_eq, h 0, Dict.ofPairs_mapValues f (Node.nodup_keys_numbered 0 items)]

/-- The items of a list, each with its position. -/
def positioned (items : List Diff) : List (Nat × Diff) := items.zipIdx.map Prod.swap

/-- The positions in `positioned items` are `0`, `1`, and so on. -/
theorem positioned_fst (items : List Diff) :
    (positioned items).map Prod.fst = List.range items.length := by
  rw [positioned, List.map_map]
  exact (List.zipIdx_map_snd 0 items).trans List.range_eq_range'.symm

/-- The items in `positioned items` are those of the list. -/
theorem positioned_snd (items : List Diff) : (positioned items).map Prod.snd = items := by
  rw [positioned, List.map_map]
  exact List.zipIdx_map_fst 0 items

/-- If the spellings in `Node.numbered 0 items` are read, then this gives `positioned items`. -/
theorem map_numbered {items : List Diff} (hl : items.length ≤ ArrayIndex.limit) :
    (Node.numbered 0 items).map (fun p => (positionOf p.1, p.2)) = positioned items := by
  have h : ∀ i, i + items.length ≤ ArrayIndex.limit →
      (Node.numbered i items).map (fun p => (positionOf p.1, p.2)) =
        (items.zipIdx i).map Prod.swap := by
    clear hl
    induction items with
    | nil => exact fun i _ => rfl
    | cons d rest ih =>
      intro i hi
      rw [List.length_cons] at hi
      rw [Node.numbered, List.map_cons, ih (i + 1) (by omega), List.zipIdx_cons, List.map_cons,
        positionOf_text (by omega)]
      rfl
  exact h 0 (by omega)

/-- `collectItems` gives back the items of an array if each of them is decoded to what it was.
    They arrive in the order of the texts that spell their positions, where `10` comes before `2`,
    and are sorted by the positions again. -/
theorem collectItems_ok {items : List Diff} {decoded : Diff → Except DiffError Diff}
    (hl : items.length ≤ ArrayIndex.limit) (h : ∀ d ∈ items, decoded d = .ok d) :
    collectItems (Dict.mapValues decoded (keyed items)) = .ok items := by
  have hperm : (keyed items).Perm (Node.numbered 0 items) := by
    rw [keyed_eq]
    exact Dict.perm_ofPairs (Node.nodup_keys_numbered 0 items)
  -- Every part is under the spelling of its position, so reading does not fail.
  have hread : (Dict.mapValues decoded (keyed items)).mapM (fun p => do
      let i ← position p.1
      let d ← p.2
      pure (i, d)) = .ok ((keyed items).map fun p => (positionOf p.1, p.2)) := by
    rw [Dict.mapValues, List.mapM_map]
    refine mapM_ok fun p hp => ?_
    obtain ⟨key, d⟩ := p
    obtain ⟨i, rfl, hi⟩ := Node.mem_numbered.1 (hperm.mem_iff.1 hp)
    have hlt := (List.getElem?_eq_some_iff.1 hi).1
    show (position (ArrayIndex.text i) >>= fun i => decoded d >>= fun d => pure (i, d)) = _
    rw [position_text (Nat.lt_of_lt_of_le hlt hl), h d (List.mem_of_getElem? hi)]
    rfl
  -- In the order of the positions they are the items of the list.
  have hsort : (((keyed items).map fun p => (positionOf p.1, p.2)).mergeSort
      fun a b => a.1 ≤ b.1) = positioned items := by
    have hplaced : ((keyed items).map fun p => (positionOf p.1, p.2)).Perm (positioned items) :=
      map_numbered hl ▸ hperm.map _
    have hfst := positioned_fst items
    have hasymm : ∀ a b : Nat × Diff, a.1 < b.1 → b.1 < a.1 → a = b :=
      fun a b hab hba => absurd hab (Nat.lt_asymm hba)
    -- Both lists have the same members, and in both the positions increase.
    refine List.Perm.eq_of_pairwise (fun a b _ _ => hasymm a b) (pairwise_mergeSort_lt ?_) ?_
      ((List.mergeSort_perm _ _).trans hplaced)
    · rw [(hplaced.map Prod.fst).nodup_iff, hfst]
      exact List.nodup_range
    · rw [← List.pairwise_map (f := Prod.fst) (R := (· < ·)), hfst]
      exact List.pairwise_lt_range
  refine (congrArg (· >>= _) hread).trans ?_
  show (if _ then _ else _) = _
  rw [hsort, positioned_snd, if_pos]
  · rfl
  · rw [positioned_fst, ← List.length_map (f := Prod.fst), positioned_fst, List.length_range]

/-- `decode` of an object goes by the first of the keys `newObjectKey`, `newArrayKey` and
    `updateKey` that the object has. -/
theorem decode_obj (fields : List (String × Json)) : decode (.obj fields) =
    match Dict.get? fields newObjectKey, Dict.get? fields newArrayKey,
      Dict.get? fields updateKey with
    | some v, _, _ => do return Diff.newObject (← collectFields (← decodeParts newObjectKey v))
    | none, some v, _ => do return Diff.newArray (← collectItems (← decodeParts newArrayKey v))
    | none, none, some v => do
      let changes ← collectFields (← decodeParts updateKey v)
      return Diff.update changes (← collectRemoved (Dict.get? fields deleteKey))
    | none, none, none => .error (.malformed .noKnownPart) := by
  -- One key after the other, in the order in which `decode` asks for them.
  rw [decode, decodeUnder_eq, decodeUnder_eq, decodeUnder_eq]
  cases Dict.get? fields newObjectKey with
  | some v => rfl
  | none =>
    cases Dict.get? fields newArrayKey with
    | some v => rfl
    | none => cases Dict.get? fields updateKey <;> rfl

/-- `collectRemoved` reads back an array of texts. -/
theorem collectRemoved_ok (removed : List String) :
    collectRemoved (some (.arr (removed.map .str))) = .ok removed := by
  rw [collectRemoved, List.mapM_map]
  exact (mapM_ok (g := id) fun k _ => rfl).trans (congrArg Except.ok (List.map_id removed))

/-- `decode` gives back a `Plain` and `Bounded` difference from its wire form. -/
theorem decode_encode {d : Diff} (hp : d.Plain) (hb : d.Bounded) : decode d.encode = .ok d := by
  have hfields : ∀ fields : List (String × Diff), (∀ p ∈ fields, decode p.2.encode = .ok p.2) →
      collectFields (decodeEach (encodeFields fields)) = .ok fields := by
    intro fields h
    rw [decodeEach_eq, encodeFields_eq, Dict.mapValues_mapValues]
    exact collectFields_ok h
  induction hp with
  | value s => rfl
  | @newObject fields _ ih =>
    cases hb with
    | newObject hb =>
      rw [encode, decode_obj]
      show (do return Diff.newObject (← collectFields (decodeEach (encodeFields fields)))) = _
      rw [hfields fields fun p hp => ih p hp (hb p hp)]
      rfl
  | @newArray items _ ih =>
    cases hb with
    | newArray hl hb =>
      have hitems : collectItems (decodeEach (keyed (encodeItems items))) = .ok items := by
        rw [decodeEach_eq, encodeItems_eq, keyed_map, Dict.mapValues_mapValues]
        exact collectItems_ok hl fun d hd => ih d hd (hb d hd)
      rw [encode, decode_obj]
      show (do return Diff.newArray (← collectItems (decodeEach (keyed (encodeItems items))))) = _
      rw [hitems]
      rfl
  | @update changes removed _ ih =>
    cases hb with
    | update hb =>
      have hchanges := hfields changes fun p hp => ih p hp (hb p hp)
      rw [encode]
      -- Without removed keys the wire form has no `deleteKey`, and `collectRemoved` reads that as
      -- no keys.
      split
      · next he =>
        rw [decode_obj, List.isEmpty_iff.1 he]
        show (do
          let changes ← collectFields (decodeEach (encodeFields changes))
          return Diff.update changes (← collectRemoved none)) = _
        rw [hchanges]
        rfl
      · rw [decode_obj]
        show (do
          let changes ← collectFields (decodeEach (encodeFields changes))
          return Diff.update changes (← collectRemoved (some (.arr (removed.map .str))))) = _
        rw [hchanges, collectRemoved_ok]
        rfl

/-! ### What is decoded -/

/-- If a bind in `Except` succeeds, then so did both steps. -/
theorem bind_eq_ok {α β ε : Type} {x : Except ε α} {f : α → Except ε β} {b : β}
    (h : x >>= f = .ok b) : ∃ a, x = .ok a ∧ f a = .ok b := by
  cases x with
  | error e => cases h
  | ok a => exact ⟨a, rfl, h⟩

/-- If a `mapM` in `Except` succeeds, then each of its results is that of one of the steps. -/
theorem exists_of_mapM_ok {α β ε : Type} {f : α → Except ε β} {xs : List α} {ys : List β}
    (h : xs.mapM f = .ok ys) : ∀ y ∈ ys, ∃ x ∈ xs, f x = .ok y := by
  induction xs generalizing ys with
  | nil =>
    cases h
    exact nofun
  | cons x rest ih =>
    rw [List.mapM_cons] at h
    obtain ⟨y, hy, h⟩ := bind_eq_ok h
    -- The first step has succeeded, so the rest has too.
    obtain ⟨ys', hrest, h⟩ := bind_eq_ok h
    cases h
    intro z hz
    rcases List.mem_cons.1 hz with rfl | hz
    · exact ⟨x, List.mem_cons_self, hy⟩
    · obtain ⟨w, hw, he⟩ := ih hrest z hz
      exact ⟨w, List.mem_cons_of_mem _ hw, he⟩

/-- If `collectFields` succeeds, then each field that it gives was decoded from one of the fields
    of the object. -/
theorem of_collectFields {inner : List (String × Json)} {fields : List (String × Diff)}
    (h : collectFields (decodeEach inner) = .ok fields) :
    ∀ p ∈ fields, ∃ q ∈ inner, decode q.2 = .ok p.2 := by
  intro p hp
  rw [decodeEach_eq, collectFields, Dict.mapValues, List.mapM_map] at h
  obtain ⟨q, hq, he⟩ := exists_of_mapM_ok h p hp
  refine ⟨q, hq, ?_⟩
  -- A field is its key with what was decoded, so the value was decoded.
  change (decode q.2).map _ = _ at he
  cases hd : decode q.2 with
  | error e =>
    rw [hd] at he
    cases he
  | ok d =>
    rw [hd] at he
    cases he
    rfl

/-- `position` gives positions below `ArrayIndex.limit` only. -/
theorem lt_of_position {key : String} {i : Nat} (h : position key = .ok i) :
    i < ArrayIndex.limit := by
  unfold position at h
  split at h
  · next hp =>
    cases h
    exact ArrayIndex.lt_limit_of_parse? hp
  · cases h

/-- If `collectItems` succeeds, then each item was decoded from one of the fields of the object,
    and there are not more items than positions. -/
theorem of_collectItems {inner : List (String × Json)} {items : List Diff}
    (h : collectItems (decodeEach inner) = .ok items) :
    items.length ≤ ArrayIndex.limit ∧ ∀ d ∈ items, ∃ q ∈ inner, decode q.2 = .ok d := by
  rw [decodeEach_eq, collectItems, Dict.mapValues, List.mapM_map] at h
  obtain ⟨placed, hplaced, h⟩ := bind_eq_ok h
  -- Every placed item was decoded from a field, under a key that spells its position.
  have hsource : ∀ r ∈ placed.mergeSort (fun a b => a.1 ≤ b.1),
      r.1 < ArrayIndex.limit ∧ ∃ q ∈ inner, decode q.2 = .ok r.2 := by
    intro r hr
    obtain ⟨q, hq, he⟩ := exists_of_mapM_ok hplaced r ((List.mergeSort_perm _ _).mem_iff.1 hr)
    obtain ⟨i, hi, he⟩ := bind_eq_ok he
    obtain ⟨d, hd, he⟩ := bind_eq_ok he
    cases he
    exact ⟨lt_of_position hi, q, hq, hd⟩
  generalize placed.mergeSort (fun a b => a.1 ≤ b.1) = ordered at h hsource
  dsimp only at h
  split at h
  · next hrange =>
    cases h
    constructor
    · -- A position of its own for each item: there are not more items than positions.
      refine Nat.le_of_not_lt fun hlt => ?_
      have hmem : ArrayIndex.limit ∈ ordered.map Prod.fst := by
        rw [hrange, List.mem_range]
        rwa [List.length_map] at hlt
      obtain ⟨r, hr, he⟩ := List.mem_map.1 hmem
      exact absurd (hsource r hr).1 (Nat.not_lt.2 (Nat.le_of_eq he.symm))
    · intro d hd
      obtain ⟨r, hr, rfl⟩ := List.mem_map.1 hd
      exact (hsource r hr).2
  · cases h

/-- The difference was put together from the fields `inner` of an object, under one of the three
    keys that `decode_obj` looks for. -/
inductive DecodedFrom (inner : List (String × Json)) : Diff → Prop
  | newObject {fields : List (String × Diff)} (h : collectFields (decodeEach inner) = .ok fields) :
      DecodedFrom inner (.newObject fields)
  | newArray {items : List Diff} (h : collectItems (decodeEach inner) = .ok items) :
      DecodedFrom inner (.newArray items)
  | update {changes : List (String × Diff)} {removed : List String}
      (h : collectFields (decodeEach inner) = .ok changes) :
      DecodedFrom inner (.update changes removed)

/-- `decodeParts` succeeds on objects only. -/
theorem of_decodeParts {key : String} {v : Json} {parts : Parts}
    (h : decodeParts key v = .ok parts) : ∃ inner, v = .obj inner ∧ parts = decodeEach inner := by
  cases v with
  | obj inner =>
    cases h
    exact ⟨inner, rfl, rfl⟩
  | scalar s => cases h
  | arr items => cases h

/-- If `decode` succeeds on an object, then what it gives is `DecodedFrom` the object under one of
    its keys. -/
theorem decodedFrom_of_decode {fields : List (String × Json)} {d : Diff}
    (h : decode (.obj fields) = .ok d) :
    ∃ key inner, Dict.get? fields key = some (.obj inner) ∧ DecodedFrom inner d := by
  -- The same three steps for each of the keys: the parts, what is collected, and the constructor.
  rw [decode_obj] at h
  cases hobject : Dict.get? fields newObjectKey with
  | some v =>
    rw [hobject] at h
    obtain ⟨parts, hparts, h⟩ := bind_eq_ok h
    obtain ⟨inner, rfl, rfl⟩ := of_decodeParts hparts
    obtain ⟨found, hfound, h⟩ := bind_eq_ok h
    cases h
    exact ⟨_, inner, hobject, .newObject hfound⟩
  | none =>
    rw [hobject] at h
    cases harray : Dict.get? fields newArrayKey with
    | some v =>
      rw [harray] at h
      obtain ⟨parts, hparts, h⟩ := bind_eq_ok h
      obtain ⟨inner, rfl, rfl⟩ := of_decodeParts hparts
      obtain ⟨found, hfound, h⟩ := bind_eq_ok h
      cases h
      exact ⟨_, inner, harray, .newArray hfound⟩
    | none =>
      rw [harray] at h
      cases hupdate : Dict.get? fields updateKey with
      | some v =>
        rw [hupdate] at h
        obtain ⟨parts, hparts, h⟩ := bind_eq_ok h
        obtain ⟨inner, rfl, rfl⟩ := of_decodeParts hparts
        obtain ⟨found, hfound, h⟩ := bind_eq_ok h
        obtain ⟨removed, -, h⟩ := bind_eq_ok h
        cases h
        exact ⟨_, inner, hupdate, .update hfound⟩
      | none =>
        rw [hupdate] at h
        cases h

/-- If whatever is decoded from the fields of `inner` is `Plain` and `Bounded`, then so is what is
    `DecodedFrom` them. -/
theorem DecodedFrom.plain_bounded {inner : List (String × Json)} {d : Diff}
    (h : DecodedFrom inner d)
    (hinner : ∀ q ∈ inner, ∀ e, decode q.2 = .ok e → e.Plain ∧ e.Bounded) :
    d.Plain ∧ d.Bounded := by
  -- Shared by the two constructors that collect fields.
  have hfields : ∀ {fields : List (String × Diff)},
      collectFields (decodeEach inner) = .ok fields → ∀ p ∈ fields, p.2.Plain ∧ p.2.Bounded := by
    intro fields h p hp
    obtain ⟨q, hq, he⟩ := of_collectFields h p hp
    exact hinner q hq p.2 he
  cases h with
  | newObject h =>
    have hparts := hfields h
    exact ⟨.newObject fun p hp => (hparts p hp).1, .newObject fun p hp => (hparts p hp).2⟩
  | @newArray items h =>
    obtain ⟨hl, hsource⟩ := of_collectItems h
    have hparts : ∀ e ∈ items, e.Plain ∧ e.Bounded := fun e he =>
      have ⟨q, hq, hqe⟩ := hsource e he
      hinner q hq e hqe
    exact ⟨.newArray fun e he => (hparts e he).1, .newArray hl fun e he => (hparts e he).2⟩
  | update h =>
    have hparts := hfields h
    exact ⟨.update fun p hp => (hparts p hp).1, .update fun p hp => (hparts p hp).2⟩

/-- Whatever `decode` gives is `Plain` and `Bounded`, by induction over the JSON that it reads. -/
theorem of_decode {j : Json} {d : Diff} (h : decode j = .ok d) : d.Plain ∧ d.Bounded := by
  -- The parts of a difference are two levels further down in the value.
  have hall : (∀ d, decode j = .ok d → d.Plain ∧ d.Bounded) ∧
      ∀ inner, j = .obj inner → ∀ q ∈ inner, ∀ e, decode q.2 = .ok e → e.Plain ∧ e.Bounded := by
    clear h d
    induction j using Json.partsInduction with
    | scalar s =>
      refine ⟨fun d h => ?_, nofun⟩
      cases h
      exact ⟨.value s, .value trivial⟩
    | arr items ih => exact ⟨nofun, nofun⟩
    | obj fields ih =>
      constructor
      · intro d h
        obtain ⟨key, inner, hkey, hd⟩ := decodedFrom_of_decode h
        exact hd.plain_bounded ((ih _ (Dict.mem_of_get? hkey)).2 inner rfl)
      · rintro inner ⟨⟩ q hq
        exact (ih q hq).1
  exact hall.1 d h

/-! ### There and back -/

/-- **The wire changes nothing that a receiver computes.**  The wire form of every `Bounded`
    difference is decoded, to the difference itself if that is `Plain`.  Anyway what is decoded has
    the same wire form, does the same to every prior value and fails in the same way.  Conversely,
    what was decoded from any JSON comes back from its own wire form. -/
theorem wire_transparent :
    (∀ d : Diff, d.Bounded → ∃ d', decode d.encode = .ok d' ∧ (d.Plain → d' = d) ∧
      d'.encode = d.encode ∧ ∀ prior, d'.apply prior = d.apply prior) ∧
    ∀ j d, decode j = .ok d → decode d.encode = .ok d := by
  constructor
  · intro d hd
    have hdecode : decode d.encode = .ok d.spelled := by
      rw [← encode_spelled]
      exact decode_encode (plain_spelled d) hd.spelled
    exact ⟨d.spelled, hdecode, Plain.spelled_eq, encode_spelled d,
      fun prior => congrFun (apply_spelled d) prior⟩
  · intro j d h
    obtain ⟨hp, hb⟩ := of_decode h
    exact decode_encode hp hb

/-- A change whose keys are themselves words of the wire form.  One of them gets an object, the
    other one an array of more items than there are digits, so that the order of the texts is not
    that of the positions. -/
def nested : Diff :=
  .update
    [("newObject", .value (.obj [("update", .arr [.int 1])])),
      ("update", .newArray (List.replicate 11 (.update [] ["delete"])))]
    ["delete"]

theorem bounded_nested : nested.Bounded := by
  refine .update ?_
  intro p hp
  rcases List.mem_cons.1 hp with rfl | hp
  · refine .value ?_
    simp [Json.Bounded, Json.BoundedFields, Json.BoundedItems, ArrayIndex.limit]
  · cases List.mem_singleton.1 hp
    refine .newArray (by decide) ?_
    intro d hd
    rw [List.eq_of_mem_replicate hd]
    exact .update (List.forall_mem_nil _)

/-- `wire_transparent` at `nested`: it is decoded as `nested.spelled`, and that is decoded from its
    own wire form as it is. -/
theorem wire_transparent_nested : nested.Bounded ∧
    (∃ d', decode nested.encode = .ok d' ∧ (nested.Plain → d' = nested) ∧
      d'.encode = nested.encode ∧ ∀ prior, d'.apply prior = nested.apply prior) ∧
    decode nested.encode = .ok nested.spelled ∧
    decode nested.spelled.encode = .ok nested.spelled := by
  have hdecode : decode nested.encode = .ok nested.spelled := by
    rw [← encode_spelled]
    exact decode_encode (plain_spelled nested) bounded_nested.spelled
  exact ⟨bounded_nested, wire_transparent.1 nested bounded_nested, hdecode,
    wire_transparent.2 nested.encode nested.spelled hdecode⟩

end Diff

end Observatory
