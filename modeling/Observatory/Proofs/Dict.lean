import Observatory.Dict

/-!
# Dictionaries are what they hold

A dictionary is a sorted list, so the values that its keys have determine it.  This module
says what the operations do to the look-up of a key and that they keep the order:

* `Dict.ext`: two dictionaries that agree at every key are one list;
* `Dict.sorted_insert`, `Dict.sorted_erase`, `Dict.sorted_ofPairs`: the order is kept;
* `Dict.select`: the entries that some function has a new value for, with
  `Dict.get?_select`; filtering, recording and comparing trees all have this form;
* `Dict.last?`, `Dict.get?_ofPairs_eq_last?`: of the pairs with one key the last one counts;
* `Dict.get?_ofPairs`: a list without repeated keys holds what its dictionary holds.
-/

namespace Observatory

namespace Dict

variable {α β : Type}

/-! ### Look-up and membership -/

/-- A key that comes before every key of a list is not found by `get?`, whether or not the list is
    in order. -/
theorem get?_eq_none_of_lt {d : Dict α} {key : String} (h : ∀ p ∈ d, key < p.1) :
    get? d key = none := by
  induction d with
  | nil => rfl
  | cons p rest ih =>
    have hlt : key < p.1 := h p List.mem_cons_self
    -- The first key is another one, and by the induction the rest does not have the key either.
    have hne : p.1 ≠ key := by
      intro e
      exact String.lt_irrefl key (e ▸ hlt)
    have hrest : ∀ q ∈ rest, key < q.1 := fun q hq => h q (List.mem_cons_of_mem _ hq)
    show get? ((p.1, p.2) :: rest) key = none
    rw [get?_cons, if_neg hne]
    exact ih hrest

/-- The rest of a `Sorted` list without its first entry is `Sorted`. -/
theorem Sorted.tail {p : String × α} {rest : Dict α} (h : Sorted (p :: rest)) : Sorted rest :=
  (List.pairwise_cons.1 h).2

/-- In a `Sorted` list the first key comes before all others. -/
theorem Sorted.head_lt {p : String × α} {rest : Dict α} (h : Sorted (p :: rest)) :
    ∀ q ∈ rest, p.1 < q.1 := (List.pairwise_cons.1 h).1

/-- The keys of a `Sorted` list are pairwise different, since `<` is irreflexive. -/
theorem Sorted.nodup_keys {d : Dict α} (h : Sorted d) : (keys d).Nodup := by
  rw [keys, List.Nodup, List.pairwise_map]
  refine List.Pairwise.imp ?_ h
  intro p q hlt e
  exact String.lt_irrefl _ (e ▸ hlt)

/-- What `get?` finds under a key is an entry of the list. -/
theorem mem_of_get? {d : Dict α} {key : String} {v : α} (h : get? d key = some v) :
    (key, v) ∈ d := by
  induction d with
  | nil => simp at h
  | cons p rest ih =>
    obtain ⟨k, u⟩ := p
    rw [get?_cons] at h
    split at h
    · next hk =>
      cases h
      exact hk ▸ List.mem_cons_self
    · exact List.mem_cons_of_mem _ (ih h)

/-- In a list in which no key occurs twice, `get?` finds every entry under its key, wherever in the
    list it stands. -/
theorem get?_of_mem {d : Dict α} (hd : (keys d).Nodup) {key : String} {v : α}
    (h : (key, v) ∈ d) : get? d key = some v := by
  induction d with
  | nil => simp at h
  | cons p rest ih =>
    obtain ⟨k, u⟩ := p
    rw [get?_cons]
    rw [keys, List.map_cons, List.nodup_cons] at hd
    rcases List.mem_cons.1 h with he | hr
    · cases he
      rw [if_pos rfl]
    · -- The entry is further back, and its key is not the first one.
      have hmem : key ∈ rest.map Prod.fst := List.mem_map_of_mem hr
      have hne : k ≠ key := by
        intro e
        exact hd.1 (e ▸ hmem)
      rw [if_neg hne]
      exact ih hd.2 hr

/-- In a list in which no key occurs twice, what `get?` finds under a key is the value of the one
    entry with that key. -/
theorem get?_eq_some_iff {d : Dict α} (hd : (keys d).Nodup) {key : String} {v : α} :
    get? d key = some v ↔ (key, v) ∈ d :=
  ⟨mem_of_get?, get?_of_mem hd⟩

/-- `get?` finds something under a key exactly if the key is one of `keys d`. -/
theorem isSome_get?_iff {d : Dict α} {key : String} : (get? d key).isSome ↔ key ∈ keys d := by
  induction d with
  | nil => simp [keys]
  | cons p rest ih =>
    obtain ⟨k, u⟩ := p
    rw [get?_cons, keys, List.map_cons, List.mem_cons]
    split
    · next h => simp [h]
    · next h =>
      rw [ih]
      exact ⟨Or.inr, fun h' => h'.resolve_left fun e => h e.symm⟩

/-- `get?` finds nothing under a key exactly if the key is none of `keys d`. -/
theorem get?_eq_none_iff {d : Dict α} {key : String} : get? d key = none ↔ key ∉ keys d := by
  rw [← isSome_get?_iff, Option.not_isSome_iff_eq_none]

/-- In `d ++ e` the entries of `d` are found first, and those of `e` only under keys that `d` does
    not have. -/
theorem get?_append (d e : Dict α) (key : String) :
    get? (d ++ e) key = (get? d key).or (get? e key) := by
  induction d with
  | nil => rfl
  | cons p rest ih =>
    obtain ⟨k, v⟩ := p
    rw [List.cons_append, get?_cons, get?_cons]
    split
    · rfl
    · exact ih

/-- **Extensionality.** Two `Sorted` lists with the same answer of `get?` at every key are equal as
    lists.  This is how all equations between dictionaries are proved. -/
theorem ext {d e : Dict α} (hd : Sorted d) (he : Sorted e)
    (h : ∀ key, get? d key = get? e key) : d = e := by
  induction d generalizing e with
  | nil =>
    cases e with
    | nil => rfl
    | cons q e => simpa [get?] using h q.1
  | cons p d ih =>
    cases e with
    | nil => simpa [get?] using h p.1
    | cons q e =>
      obtain ⟨k, u⟩ := p
      obtain ⟨l, v⟩ := q
      have hp := h k
      have hq := h l
      rw [get?_cons, get?_cons, if_pos rfl] at hp
      rw [get?_cons, get?_cons, if_pos rfl] at hq
      -- The least keys agree: each would otherwise be an entry behind the other.
      have hkl : k = l := by
        by_cases hlk : l = k
        · exact hlk.symm
        · rw [if_neg hlk] at hp
          rw [if_neg fun e => hlk e.symm] at hq
          have h1 := he.head_lt _ (mem_of_get? hp.symm)
          have h2 := hd.head_lt _ (mem_of_get? hq)
          exact absurd h1 (String.lt_asymm h2)
      subst hkl
      rw [if_pos rfl] at hp
      cases hp
      -- What is left agrees as well: the common first key is in neither rest, and the other keys
      -- are looked up behind it.
      have hrest : d = e := by
        refine ih hd.tail he.tail fun key => ?_
        have hkey := h key
        rw [get?_cons, get?_cons] at hkey
        by_cases hk : k = key
        · subst hk
          rw [get?_eq_none_of_lt hd.head_lt, get?_eq_none_of_lt he.head_lt]
        · rwa [if_neg hk, if_neg hk] at hkey
      rw [hrest]

/-! ### Changes keep the order -/

/-- An entry of `d.insert key v` is the new one or was an entry of `d`. -/
theorem mem_keys_insert {d : Dict α} {key : String} {v : α} {p : String × α}
    (h : p ∈ d.insert key v) : p = (key, v) ∨ p ∈ d := by
  induction d with
  | nil => exact Or.inl (List.mem_singleton.1 h)
  | cons q rest ih =>
    obtain ⟨k, u⟩ := q
    simp only [insert] at h
    split at h
    · -- The value of the first key is replaced.
      exact (List.mem_cons.1 h).imp id (List.mem_cons_of_mem _)
    · split at h
      · exact List.mem_cons.1 h
      · rcases List.mem_cons.1 h with he | hr
        · exact Or.inr (he ▸ List.mem_cons_self)
        · exact (ih hr).imp id (List.mem_cons_of_mem _)

/-- `insert` keeps a list `Sorted`: it replaces the entry of the key or puts a new one where it
    belongs. -/
theorem sorted_insert {d : Dict α} (hd : Sorted d) (key : String) (v : α) :
    Sorted (d.insert key v) := by
  induction d with
  | nil => exact List.pairwise_singleton _ _
  | cons p rest ih =>
    obtain ⟨k, u⟩ := p
    simp only [insert]
    split
    · next h =>
      subst h
      exact List.pairwise_cons.2 ⟨hd.head_lt, hd.tail⟩
    · next hne =>
      split
      · next hlt =>
        refine List.pairwise_cons.2 ⟨fun q hq => ?_, hd⟩
        rcases List.mem_cons.1 hq with rfl | hr
        · exact hlt
        · exact String.lt_trans hlt (hd.head_lt q hr)
      · next hge =>
        -- The order is total, so the new key comes after the first one.
        have hlt : k < key := by
          rcases String.le_total k key with hle | hle
          · exact String.not_le.1 fun h => hne (String.le_antisymm hle h)
          · exact absurd (String.le_antisymm (String.not_lt.1 hge) hle) hne
        refine List.pairwise_cons.2 ⟨fun q hq => ?_, ih hd.tail⟩
        rcases mem_keys_insert hq with rfl | hr
        · exact hlt
        · exact hd.head_lt q hr

/-- `erase` leaves out entries and does not rearrange the others. -/
theorem erase_sublist (d : Dict α) (key : String) : List.Sublist (d.erase key) d := by
  induction d with
  | nil => exact List.Sublist.slnil
  | cons p rest ih =>
    obtain ⟨k, u⟩ := p
    simp only [erase]
    split
    · exact ih.cons _
    · exact ih.cons_cons _

/-- `erase` keeps a list `Sorted`. -/
theorem sorted_erase {d : Dict α} (hd : Sorted d) (key : String) : Sorted (d.erase key) :=
  List.Pairwise.sublist (erase_sublist d key) hd

/-- After all keys of a list `ks` were erased one by one, `get?` finds nothing under them, and what
    it found before under every other key. -/
theorem get?_foldl_erase (ks : List String) (d : Dict α) (key : String) :
    get? (ks.foldl (fun d k => erase d k) d) key = if key ∈ ks then none else get? d key := by
  induction ks generalizing d with
  | nil => simp
  | cons k ks ih =>
    rw [List.foldl_cons, ih, get?_erase]
    by_cases hk : k = key
    · simp [hk]
    · simp [hk, show key ≠ k from fun e => hk e.symm]

/-- Erasing the keys of a list one by one keeps a dictionary `Sorted`. -/
theorem sorted_foldl_erase (ks : List String) {d : Dict α} (hd : Sorted d) :
    Sorted (ks.foldl (fun d k => erase d k) d) := by
  induction ks generalizing d with
  | nil => exact hd
  | cons k ks ih => exact ih (sorted_erase hd k)

/-! ### Selections -/

/-- The entries of `d` for which `f` has a new value, with that value.  Filtering, changing all
    values and comparing entry by entry are all selections. -/
def select (f : String → α → Option β) (d : Dict α) : Dict β :=
  d.filterMap fun p => (f p.1 p.2).map fun b => (p.1, b)

@[simp] theorem select_nil (f : String → α → Option β) : select f ([] : Dict α) = [] := rfl

/-- A selection from `(k, v) :: rest` is the first entry, if `f` takes it, before the selection
    from `rest`. -/
theorem select_cons (f : String → α → Option β) (k : String) (v : α) (rest : Dict α) :
    select f ((k, v) :: rest) = ((f k v).map fun b => (k, b)).toList ++ select f rest := by
  cases h : f k v <;> simp [select, h]

/-- The entries of `select f d` are those `(key, b)` for which `f` makes `b` of an entry of `d`
    with that key. -/
theorem mem_select {f : String → α → Option β} {d : Dict α} {key : String} {b : β} :
    (key, b) ∈ select f d ↔ ∃ v, (key, v) ∈ d ∧ f key v = some b := by
  simp only [select, List.mem_filterMap, Option.map_eq_some_iff, Prod.mk.injEq]
  constructor
  · rintro ⟨⟨k, v⟩, hm, b', hb, rfl, rfl⟩
    exact ⟨v, hm, hb⟩
  · rintro ⟨v, hm, hb⟩
    exact ⟨(key, v), hm, b, hb, rfl, rfl⟩

/-- A selection leaves the keys of the entries that it takes as they are, and in their order. -/
theorem keys_select_sublist (f : String → α → Option β) (d : Dict α) :
    List.Sublist (keys (select f d)) (keys d) := by
  induction d with
  | nil => exact List.Sublist.slnil
  | cons p rest ih =>
    obtain ⟨k, v⟩ := p
    rw [select_cons]
    cases f k v with
    | none => exact ih.cons _
    | some b => exact ih.cons_cons _

/-- A selection from a `Sorted` list is `Sorted`, since its keys are some of those of the list, in
    the same order. -/
theorem sorted_select {d : Dict α} (hd : Sorted d) (f : String → α → Option β) :
    Sorted (select f d) := by
  have h : (keys d).Pairwise (· < ·) := List.pairwise_map.2 hd
  exact List.pairwise_map.1 (h.sublist (keys_select_sublist f d))

/-- `get?` finds in a selection what `f` makes of what it finds in `d`.  No key may occur twice in
    `d`: if `f` leaves out the first entry of a key, then the second one would be found. -/
theorem get?_select {d : Dict α} (hd : (keys d).Nodup) (f : String → α → Option β) (key : String) :
    get? (select f d) key = (get? d key).bind (f key) := by
  have hs : (keys (select f d)).Nodup := hd.sublist (keys_select_sublist f d)
  ext b
  rw [get?_eq_some_iff hs, mem_select]
  simp only [Option.bind_eq_some_iff, get?_eq_some_iff hd]

/-- Two selections in a row are one, which takes what both take. -/
theorem select_select {γ : Type} (f : String → α → Option β) (g : String → β → Option γ)
    (d : Dict α) : select g (select f d) = select (fun k v => (f k v).bind (g k)) d := by
  induction d with
  | nil => rfl
  | cons p rest ih =>
    obtain ⟨k, v⟩ := p
    rw [select_cons, select_cons]
    cases h : f k v with
    | none => simpa [h] using ih
    | some b => simp [select_cons, ih]

/-- `mapValues f` is the selection that takes every entry, so what is known of `select` holds of
    it. -/
theorem mapValues_eq_select (f : α → β) (d : Dict α) :
    mapValues f d = select (fun _ v => some (f v)) d := by
  induction d with
  | nil => rfl
  | cons p rest ih =>
    obtain ⟨k, v⟩ := p
    rw [select_cons, ← ih]
    rfl

/-- `get?` finds in `mapValues f d` what `f` makes of what it finds in `d`. -/
theorem get?_mapValues (f : α → β) (d : Dict α) (key : String) :
    get? (mapValues f d) key = (get? d key).map f := by
  induction d with
  | nil => rfl
  | cons p rest ih =>
    obtain ⟨k, v⟩ := p
    show get? ((k, f v) :: mapValues f rest) key = _
    rw [get?_cons, get?_cons, ih]
    split
    · rfl
    · rfl

/-- If every value `v` is replaced by `f key v`, with the keys left as they are, then `get?` finds
    under a key what `f key` makes of the value that stood there. -/
theorem get?_mapEntries (f : String → α → β) (d : Dict α) (key : String) :
    get? (d.map fun p => (p.1, f p.1 p.2)) key = (get? d key).map (f key) := by
  induction d with
  | nil => rfl
  | cons p rest ih =>
    obtain ⟨k, v⟩ := p
    rw [List.map_cons, get?_cons, get?_cons, ih]
    split
    · next h =>
      rw [h]
      rfl
    · rfl

/-- A change `f key v` of the values leaves the keys alone. -/
theorem keys_mapEntries (f : String → α → β) (d : Dict α) :
    keys (d.map fun p => (p.1, f p.1 p.2)) = keys d := by
  simp [keys, Function.comp_def]

/-- A list that has the entry `(k, f k)` for every `k` of a list of keys holds `f key` under these
    keys, and nothing under others. -/
theorem get?_mapKeys (f : String → α) (ks : List String) (key : String) :
    get? (ks.map fun k => (k, f k)) key = if key ∈ ks then some (f key) else none := by
  induction ks with
  | nil => rfl
  | cons k rest ih =>
    rw [List.map_cons, get?_cons, ih]
    by_cases hk : k = key
    · subst hk
      rw [if_pos rfl, if_pos List.mem_cons_self]
    · -- Another key is looked up in the rest, and is in the whole list exactly if it is there.
      have hiff : key ∈ k :: rest ↔ key ∈ rest := by
        rw [List.mem_cons]
        constructor
        · intro h
          exact h.resolve_left fun e => hk e.symm
        · exact Or.inr
      simp only [hiff, if_neg hk]

/-- Whether a list is `Sorted` depends on `keys d` alone. -/
theorem sorted_iff_keys {d : Dict α} : Sorted d ↔ (keys d).Pairwise (· < ·) :=
  List.pairwise_map.symm

/-- `mapValues` leaves the keys alone. -/
@[simp] theorem keys_mapValues (f : α → β) (d : Dict α) : keys (mapValues f d) = keys d := by
  simp [keys, mapValues, Function.comp_def]

/-- Two changes that agree on the values of `d` make the same of it. -/
theorem mapValues_congr {f g : α → β} {d : Dict α} (h : ∀ p ∈ d, f p.2 = g p.2) :
    mapValues f d = mapValues g d :=
  List.map_congr_left fun p hp => congrArg (p.1, ·) (h p hp)

/-- Two changes of all values in a row are one. -/
theorem mapValues_mapValues {γ : Type} (g : β → γ) (f : α → β) (d : Dict α) :
    mapValues g (mapValues f d) = mapValues (fun v => g (f v)) d := List.map_map

/-- A change that leaves every value of `d` as it is leaves `d` as it is. -/
theorem mapValues_eq_self {f : α → α} {d : Dict α} (h : ∀ p ∈ d, f p.2 = p.2) :
    mapValues f d = d := by
  rw [mapValues_congr (g := id) h, mapValues]
  exact List.map_id d

/-- `mapValues` keeps a list `Sorted`. -/
theorem sorted_mapValues {d : Dict α} (hd : Sorted d) (f : α → β) : Sorted (mapValues f d) :=
  mapValues_eq_select f d ▸ sorted_select hd _

/-- If `get?` finds something in two `Sorted` lists under the same keys, whatever it finds, then
    the lists have the same keys in the same order. -/
theorem keys_eq_of_isSome {d : Dict α} {e : Dict β} (hd : Sorted d) (he : Sorted e)
    (h : ∀ key, (get? d key).isSome = (get? e key).isSome) : keys d = keys e := by
  -- With all values forgotten the two lists are one, by `ext`, and the keys are still there.
  have hunit : mapValues (fun _ => ()) d = mapValues (fun _ => ()) e := by
    refine ext (sorted_mapValues hd _) (sorted_mapValues he _) fun key => ?_
    have hkey := h key
    rw [get?_mapValues, get?_mapValues]
    cases hdk : get? d key <;> cases hek : get? e key <;> simp [hdk, hek] at hkey ⊢
  rw [← keys_mapValues (fun _ => ()) d, hunit, keys_mapValues]

/-! ### Changes that change nothing -/

/-- To `insert` under a key the value that it has changes nothing. -/
theorem insert_eq_self {d : Dict α} (hd : Sorted d) {key : String} {v : α}
    (h : get? d key = some v) : d.insert key v = d := by
  refine ext (sorted_insert hd key v) hd fun k => ?_
  rw [get?_insert]
  split
  · next hk => rw [← hk, h]
  · rfl

/-- To `erase` a key that is not there changes nothing. -/
theorem erase_eq_self {d : Dict α} {key : String} (h : get? d key = none) : d.erase key = d := by
  induction d with
  | nil => rfl
  | cons p rest ih =>
    obtain ⟨k, v⟩ := p
    rw [get?_cons] at h
    split at h
    · cases h
    · next hk => rw [erase, if_neg hk, ih h]

/-- It does not matter whether the values are changed before or after an `insert`, as long as the
    new value is changed as well. -/
theorem mapValues_insert (f : α → β) (d : Dict α) (key : String) (v : α) :
    mapValues f (d.insert key v) = (mapValues f d).insert key (f v) := by
  induction d with
  | nil => rfl
  | cons p rest ih =>
    obtain ⟨k, u⟩ := p
    show mapValues f (insert ((k, u) :: rest) key v) =
      insert ((k, f u) :: mapValues f rest) key (f v)
    rw [insert, insert, ← ih]
    split
    · rfl
    · split <;> rfl

/-- It does not matter whether the values are changed before or after an `erase`. -/
theorem mapValues_erase (f : α → β) (d : Dict α) (key : String) :
    mapValues f (d.erase key) = (mapValues f d).erase key := by
  induction d with
  | nil => rfl
  | cons p rest ih =>
    obtain ⟨k, u⟩ := p
    show mapValues f (erase ((k, u) :: rest) key) = erase ((k, f u) :: mapValues f rest) key
    rw [erase, erase, ← ih]
    split <;> rfl

/-! ### Dictionaries from pairs -/

/-- `ofPairs` makes a `Sorted` list of any list of pairs. -/
theorem sorted_ofPairs (pairs : List (String × α)) : Sorted (ofPairs pairs) := by
  -- The insertions begin with any dictionary, which the induction changes.
  have h : ∀ d : Dict α, Sorted d → Sorted (pairs.foldl (fun d p => d.insert p.1 p.2) d) := by
    induction pairs with
    | nil => exact fun d hd => hd
    | cons p rest ih =>
      intro d hd
      exact ih _ (sorted_insert hd p.1 p.2)
  exact h [] sorted_nil

/-- The value in the last pair that has a key: a text with repeated keys is read so. -/
def last? (pairs : List (String × α)) (key : String) : Option α := get? pairs.reverse key

section Last

variable {key : String}

theorem last?_singleton (k : String) (v : α) (key : String) :
    last? [(k, v)] key = if k = key then some v else none := rfl

theorem last?_append (pairs pairs' : List (String × α)) (key : String) :
    last? (pairs ++ pairs') key = (last? pairs' key).or (last? pairs key) := by
  rw [last?, List.reverse_append, get?_append, last?, last?]

theorem last?_cons (k : String) (v : α) (pairs : List (String × α)) (key : String) :
    last? ((k, v) :: pairs) key = (last? pairs key).or (if k = key then some v else none) :=
  last?_append [(k, v)] pairs key

/-- If the pairs were made from a list `bs`, then the last pair with a key comes from the last `b`
    whose key it is. -/
theorem last?_map (k : β → String) (f : β → α) (bs : List β) (key : String) :
    last? (bs.map fun b => (k b, f b)) key =
      (bs.reverse.find? fun b => decide (k b = key)).map f := by
  rw [last?, ← List.map_reverse]
  induction bs.reverse with
  | nil => rfl
  | cons b bs ih =>
    rw [List.map_cons, get?_cons, List.find?_cons, ih]
    by_cases hb : k b = key
    · rw [if_pos hb, decide_eq_true hb]
      rfl
    · rw [if_neg hb, decide_eq_false hb]

/-- What `last?` finds is one of the pairs. -/
theorem mem_of_last? {pairs : List (String × α)} {v : α} (h : last? pairs key = some v) :
    (key, v) ∈ pairs := List.mem_reverse.1 (mem_of_get? h)

/-- **Of the pairs with one key the last one counts**, because `ofPairs` inserts them from the
    front and every `insert` replaces what is there. -/
theorem get?_ofPairs_eq_last? (pairs : List (String × α)) (key : String) :
    get? (ofPairs pairs) key = last? pairs key := by
  -- The fold starts from an arbitrary dictionary, since the induction inserts the first pair into
  -- it.
  have h : ∀ d : Dict α, get? (pairs.foldl (fun d p => d.insert p.1 p.2) d) key =
      (last? pairs key).or (get? d key) := by
    induction pairs with
    | nil => exact fun d => rfl
    | cons p rest ih =>
      intro d
      obtain ⟨k, v⟩ := p
      rw [List.foldl_cons, ih, get?_insert, last?_cons, Option.or_assoc]
      split <;> rfl
  rw [ofPairs, h, get?_nil, Option.or_none]

end Last

/-- If no key is repeated, then `ofPairs` only puts the pairs in order, and `get?` finds in it what
    it finds in the list. -/
theorem get?_ofPairs {pairs : List (String × α)} (hp : (keys pairs).Nodup) (key : String) :
    get? (ofPairs pairs) key = get? pairs key := by
  rw [get?_ofPairs_eq_last?, last?]
  have hrev : (keys pairs.reverse).Nodup := by
    rw [keys, List.map_reverse]
    exact (List.reverse_perm _).nodup_iff.2 hp
  ext v
  rw [get?_eq_some_iff hrev, List.mem_reverse, get?_eq_some_iff hp]

/-- If no key is repeated, then `ofPairs` keeps all keys and brings in no others. -/
theorem mem_keys_ofPairs {pairs : List (String × α)} (hp : (keys pairs).Nodup) {key : String} :
    key ∈ keys (ofPairs pairs) ↔ key ∈ keys pairs := by
  rw [← isSome_get?_iff, get?_ofPairs hp, isSome_get?_iff]

/-- If no key is repeated, then `ofPairs pairs` is a permutation of `pairs`. -/
theorem perm_ofPairs {pairs : List (String × α)} (hp : (keys pairs).Nodup) :
    (ofPairs pairs).Perm pairs := by
  have hnodup : ∀ {d : List (String × α)}, (keys d).Nodup → d.Nodup := by
    intro d hd
    exact (List.pairwise_map.1 hd).imp fun hne he => hne (congrArg Prod.fst he)
  have hsorted := (sorted_ofPairs pairs).nodup_keys
  -- Neither list has an entry twice, so it is enough that they have the same entries.
  refine (List.perm_ext_iff_of_nodup (hnodup hsorted) (hnodup hp)).2 ?_
  rintro ⟨key, v⟩
  rw [← get?_eq_some_iff hsorted, get?_ofPairs hp, get?_eq_some_iff hp]

/-- If no key is repeated, then it does not matter whether the values are changed before or after
    the pairs are put in order. -/
theorem ofPairs_mapValues (f : α → β) {pairs : List (String × α)} (hp : (keys pairs).Nodup) :
    ofPairs (mapValues f pairs) = mapValues f (ofPairs pairs) := by
  refine ext (sorted_ofPairs _) (sorted_mapValues (sorted_ofPairs _) f) fun key => ?_
  have hkeys : (keys (mapValues f pairs)).Nodup := by
    rw [keys_mapValues]
    exact hp
  rw [get?_ofPairs hkeys, get?_mapValues, get?_mapValues, get?_ofPairs hp]

end Dict

end Observatory
