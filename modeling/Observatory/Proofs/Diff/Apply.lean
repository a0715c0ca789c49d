import Observatory.Diff.Basic
import Observatory.Proofs.ArrayIndex

/-!
# What a difference does to a copy

A change in place names parts by their keys and lists keys that are gone.  It brings a copy
to the wanted value as soon as it does so part by part:

* `Diff.Leads`: a difference, or none, leads from what stood at a place to a value;
* `Diff.apply_update_obj`: a change of an object whose listed keys are those that are gone,
  and which leads every other field to its value;
* `Diff.apply_update_arr`: the same for an array, where the keys that are gone are the
  positions behind the new end.
-/

namespace Observatory

namespace Diff

/-- A difference, or none, brings a place from what it had before to the value `v`.  With no
    difference `v` must have been there, and with one `apply` must succeed and give `v`. -/
def Leads (d : Option Diff) (prior : Option Json) (v : Json) : Prop :=
  match d with
  | none => prior = some v
  | some d => d.apply prior = .ok v

/-- `fieldEdits` is `apply` mapped over the values of the changes. -/
theorem fieldEdits_eq (fields : List (String × Diff)) :
    fieldEdits fields = Dict.mapValues apply fields := by
  induction fields with
  | nil => rfl
  | cons p rest ih =>
    obtain ⟨k, d⟩ := p
    rw [fieldEdits, ih]
    rfl

/-- `itemEdits` is `apply` mapped over the differences of the items. -/
theorem itemEdits_eq (items : List Diff) : itemEdits items = items.map apply := by
  induction items with
  | nil => rfl
  | cons d rest ih => rw [itemEdits, ih, List.map_cons]

/-- A `mapM` in `Except` whose steps all succeed is a `map` of their results. -/
theorem mapM_ok {α β ε : Type} {f : α → Except ε β} {g : α → β} {xs : List α}
    (h : ∀ x ∈ xs, f x = .ok (g x)) : xs.mapM f = .ok (xs.map g) := by
  induction xs with
  | nil => rfl
  | cons x rest ih =>
    rw [List.mapM_cons, h x List.mem_cons_self, ih fun y hy => h y (List.mem_cons_of_mem _ hy)]
    rfl

/-- An update that changes nothing and removes nothing may as well be no difference at all: what
    `update` leads to is reached either way, if the empty update keeps `prior`. -/
theorem leads_of_apply_update {changes : List (String × Diff)} {removed : List String}
    {prior next : Json} (hprior : (Diff.update [] []).apply (some prior) = .ok prior)
    (h : (Diff.update changes removed).apply (some prior) = .ok next) :
    Leads (if changes.isEmpty && removed.isEmpty then none else some (.update changes removed))
      (some prior) next := by
  split
  · next he =>
    rw [Bool.and_eq_true, List.isEmpty_iff, List.isEmpty_iff] at he
    rw [he.1, he.2, hprior] at h
    exact congrArg some (Except.ok.inj h)
  · exact h

/-! ### Objects -/

/-- `editFields` succeeds if every edit does and no key is edited twice.  Afterwards an edited key
    has the value that its edit gives, and every other key what it had before. -/
theorem editFields_ok {edits : List (String × Edit)} {fields : Dict Json}
    {target : String → Option Json} (hn : (Dict.keys edits).Nodup) (hs : Dict.Sorted fields)
    (h : ∀ p ∈ edits, ∃ v, p.2 (Dict.get? fields p.1) = .ok v ∧ target p.1 = some v) :
    ∃ fields', editFields edits fields = .ok fields' ∧ Dict.Sorted fields' ∧
      ∀ key, Dict.get? fields' key =
        if key ∈ Dict.keys edits then target key else Dict.get? fields key := by
  induction edits generalizing fields with
  | nil => exact ⟨fields, rfl, hs, fun key => by simp [Dict.keys]⟩
  | cons p rest ih =>
    obtain ⟨v, hv, ht⟩ := h p List.mem_cons_self
    rw [Dict.keys, List.map_cons, List.nodup_cons] at hn
    have hne : ∀ q ∈ rest, p.1 ≠ q.1 := by
      intro q hq e
      exact hn.1 (e ▸ List.mem_map_of_mem hq)
    -- The other keys read as before, so the other edits still lead to their values.
    have hrest : ∀ q ∈ rest, ∃ u, q.2 (Dict.get? (Dict.insert fields p.1 v) q.1) = .ok u ∧
        target q.1 = some u := by
      intro q hq
      rw [Dict.get?_insert, if_neg (hne q hq)]
      exact h q (List.mem_cons_of_mem _ hq)
    obtain ⟨fields', hok, hs', hget⟩ := ih hn.2 (Dict.sorted_insert hs p.1 v) hrest
    refine ⟨fields', ?_, hs', fun key => ?_⟩
    · rw [editFields, List.foldlM_cons, hv]
      exact hok
    · rw [hget, Dict.get?_insert, Dict.keys, Dict.keys, List.map_cons]
      -- The first edit decides what its own key has, as no later one has that key.
      by_cases hk : p.1 = key
      · subst hk
        rw [if_neg hn.1, if_pos rfl, if_pos List.mem_cons_self, ht]
      · have hiff : key ∈ p.1 :: rest.map Prod.fst ↔ key ∈ rest.map Prod.fst := by
          rw [List.mem_cons]
          exact ⟨fun h => h.resolve_left fun e => hk e.symm, Or.inr⟩
        simp only [hiff, if_neg hk]

section Fields

variable {changes : Dict Diff} {removed : List String} {prior next : Dict Json}
  (hgone : ∀ key, key ∈ removed ↔ (Dict.get? prior key).isSome ∧ Dict.get? next key = none)
  (hkeys : ∀ key ∈ Dict.keys changes, (Dict.get? next key).isSome)
  (hlead : ∀ key v, Dict.get? next key = some v →
    Leads (Dict.get? changes key) (Dict.get? prior key) v)
include hgone

/-- Erasing the keys of `removed` does not touch a key that has a value in `next`. -/
theorem get?_kept {key : String} (hkey : (Dict.get? next key).isSome) :
    Dict.get? (removed.foldl (fun fs k => Dict.erase fs k) prior) key = Dict.get? prior key := by
  have hin : key ∉ removed := by
    intro h
    rw [((hgone key).1 h).2] at hkey
    cases hkey
  rw [Dict.get?_foldl_erase, if_neg hin]

include hlead

/-- A key without a change has its value of `next` once the keys of `removed` are erased. -/
theorem get?_unchanged {key : String} (hout : key ∉ Dict.keys changes) :
    Dict.get? (removed.foldl (fun fs k => Dict.erase fs k) prior) key = Dict.get? next key := by
  cases hv : Dict.get? next key with
  | some v =>
    -- Without a change the field must have had its value.
    have hl := hlead key v hv
    rw [Dict.get?_eq_none_iff.2 hout] at hl
    have hkey : (Dict.get? next key).isSome := by
      rw [hv]
      rfl
    rw [get?_kept hgone hkey]
    exact hl
  | none =>
    -- Without a value the key is among those that are gone, or was never there.
    rw [Dict.get?_foldl_erase]
    split
    · rfl
    · next hkept =>
      cases hk : Dict.get? prior key with
      | none => rfl
      | some u =>
        have hsome : (Dict.get? prior key).isSome := by
          rw [hk]
          rfl
        exact absurd ((hgone key).2 ⟨hsome, hv⟩) hkept

include hkeys

/-- Every edit of `fieldEdits changes` succeeds after the keys of `removed` are erased, and gives
    the value of its key in `next`. -/
theorem fieldEdits_lead (hc : (Dict.keys changes).Nodup) :
    ∀ p ∈ fieldEdits changes, ∃ v,
      p.2 (Dict.get? (removed.foldl (fun fs k => Dict.erase fs k) prior) p.1) = .ok v ∧
        Dict.get? next p.1 = some v := by
  rintro ⟨key, edit⟩ hmem
  rw [fieldEdits_eq] at hmem
  have hin : key ∈ Dict.keys changes := by
    rw [← Dict.keys_mapValues apply]
    exact List.mem_map_of_mem hmem
  have hkey := hkeys key hin
  obtain ⟨v, hv⟩ := Option.isSome_iff_exists.1 hkey
  -- The edit is the application of the difference under the same key.
  have hedit := Dict.get?_of_mem (by rwa [Dict.keys_mapValues]) hmem
  rw [Dict.get?_mapValues] at hedit
  obtain ⟨d, hd, rfl⟩ := Option.map_eq_some_iff.1 hedit
  have hl := hlead key v hv
  rw [hd] at hl
  refine ⟨v, ?_, hv⟩
  rw [get?_kept hgone hkey]
  exact hl

/-- `update changes removed` brings the object `prior` to the object `next`, if `removed` has the
    keys that are gone and `changes` leads every field of `next` from what `prior` has there. -/
theorem apply_update_obj (hp : Dict.Sorted prior) (hn : Dict.Sorted next)
    (hc : (Dict.keys changes).Nodup) :
    (Diff.update changes removed).apply (some (.obj prior)) = .ok (.obj next) := by
  have hedits : Dict.keys (fieldEdits changes) = Dict.keys changes := by
    rw [fieldEdits_eq, Dict.keys_mapValues]
  obtain ⟨fields, hok, hsorted, hget⟩ := editFields_ok (by rwa [hedits])
    (Dict.sorted_foldl_erase removed hp) (fieldEdits_lead hgone hkeys hlead hc)
  -- The keys that are changed have their values now, and the others had them before.
  have hnext : fields = next := by
    refine Dict.ext hsorted hn ?_
    intro key
    rw [hget, hedits]
    split
    · rfl
    · next hout => exact get?_unchanged hgone hlead hout
  rw [apply, editParts, hok, hnext]
  rfl

end Fields

/-! ### Arrays -/

/-- `editItem` at a position up to the end of an array succeeds if its edit does.  It replaces the
    item at the position, or appends one if the position is that of the end, and leaves the others
    in place. -/
theorem editItem_ok {items : List Json} {i len : Nat} {edit : Edit} {v : Json}
    (hreach : i ≤ items.length) (hlen : items.length ≤ len) (hi : i < len)
    (hok : edit items[i]? = .ok v) : ∃ items', editItem items i edit = .ok items' ∧
      items'.length ≤ len ∧ items'[i]? = some v ∧ ∀ j, j ≠ i → items'[j]? = items[j]? := by
  unfold editItem
  by_cases hin : i < items.length
  · -- The item is replaced.
    refine ⟨items.set i v, ?_, by rwa [List.length_set], List.getElem?_set_self hin, ?_⟩
    · rw [if_pos hin, hok]
      rfl
    · intro j hj
      exact List.getElem?_set_ne (Ne.symm hj)
  · -- There is no item yet, and none is missing before it.
    have heq : i = items.length := by omega
    subst heq
    rw [List.getElem?_eq_none (Nat.le_refl _)] at hok
    refine ⟨items ++ [v], ?_, ?_, by simp, ?_⟩
    · rw [if_neg hin, hok, Nat.sub_self]
      exact congrArg Except.ok (by simp)
    · rw [List.length_append]
      exact hi
    · intro j hj
      rcases Nat.lt_or_gt_of_ne hj with hlt | hgt
      · rw [List.getElem?_append_left hlt]
      · have hlen : (items ++ [v]).length ≤ j := by
          rw [List.length_append, List.length_singleton]
          omega
        rw [List.getElem?_eq_none hlen, List.getElem?_eq_none (by omega)]

/-- Edits at increasing positions bring `items` to `next`, if each of them gives the item of `next`
    at its position and all other items are in place already.  The order matters: an item can be
    appended only when none is missing before it. -/
theorem foldlM_editItem {edits : List (Nat × Edit)} {items next : List Json}
    (hasc : edits.Pairwise fun a b => a.1 < b.1) (hlen : items.length ≤ next.length)
    (hedit : ∀ p ∈ edits, ∃ v, next[p.1]? = some v ∧ p.2 items[p.1]? = .ok v)
    (hkeep : ∀ i < next.length, (∀ p ∈ edits, p.1 ≠ i) → items[i]? = next[i]?) :
    edits.foldlM (fun items (p : Nat × Edit) => editItem items p.1 p.2) items = .ok next := by
  induction edits generalizing items with
  | nil =>
    have hnext : items = next := by
      refine List.ext_getElem? ?_
      intro i
      by_cases hi : i < next.length
      · exact hkeep i hi fun p hp => absurd hp List.not_mem_nil
      · rw [List.getElem?_eq_none (by omega), List.getElem?_eq_none (by omega)]
    rw [List.foldlM_nil, hnext]
    rfl
  | cons p rest ih =>
    obtain ⟨i, edit⟩ := p
    obtain ⟨v, hv, hok⟩ := hedit (i, edit) List.mem_cons_self
    obtain ⟨hfirst, hrest⟩ := List.pairwise_cons.1 hasc
    have hi : i < next.length := (List.getElem?_eq_some_iff.1 hv).1
    -- The items before the first edit are in place, so none is missing there.
    have hreach : i ≤ items.length := by
      refine Nat.le_of_not_lt fun hgap => ?_
      have hbehind : ∀ q ∈ (i, edit) :: rest, q.1 ≠ items.length := by
        intro q hq
        rcases List.mem_cons.1 hq with rfl | hq
        · exact Nat.ne_of_gt hgap
        · exact Nat.ne_of_gt (Nat.lt_trans hgap (hfirst q hq))
      have hmiss := hkeep items.length (by omega) hbehind
      rw [List.getElem?_eq_none (Nat.le_refl _), List.getElem?_eq_getElem (by omega)] at hmiss
      cases hmiss
    obtain ⟨items', hstep, hlen', hat, hother⟩ := editItem_ok hreach hlen hi hok
    rw [List.foldlM_cons, hstep]
    refine ih hrest hlen' (fun q hq => ?_) fun j hj hout => ?_
    · rw [hother q.1 (Nat.ne_of_gt (hfirst q hq))]
      exact hedit q (List.mem_cons_of_mem _ hq)
    · by_cases hji : j = i
      · rw [hji, hat, hv]
      · rw [hother j hji]
        refine hkeep j hj fun q hq => ?_
        rcases List.mem_cons.1 hq with rfl | hq
        · exact fun e => hji e.symm
        · exact hout q hq

/-- Sorting pairs by their different positions puts the positions in increasing order. -/
theorem pairwise_mergeSort_lt {α : Type} {edits : List (Nat × α)}
    (h : (edits.map Prod.fst).Nodup) :
    (edits.mergeSort fun a b => a.1 ≤ b.1).Pairwise fun a b => a.1 < b.1 := by
  have hperm : (edits.mergeSort fun a b => a.1 ≤ b.1).Perm edits := List.mergeSort_perm _ _
  have hle : (edits.mergeSort fun a b => a.1 ≤ b.1).Pairwise fun a b => a.1 ≤ b.1 := by
    refine List.Pairwise.imp (fun hab => of_decide_eq_true hab)
      (List.pairwise_mergeSort (fun a b c h1 h2 => ?_) (fun a b => ?_) edits)
    · simp only [decide_eq_true_eq] at *
      omega
    · simp only [Bool.or_eq_true, decide_eq_true_eq]
      omega
  -- Sorted and different from each other means ascending.
  have hne : (edits.mergeSort fun a b => a.1 ≤ b.1).Pairwise fun a b => a.1 ≠ b.1 :=
    List.pairwise_map.1 ((hperm.map Prod.fst).nodup_iff.2 h)
  exact (hle.and hne).imp fun h => Nat.lt_of_le_of_ne h.1 h.2

/-- The empty update leaves an array as it is. -/
theorem apply_update_nil_arr (items : List Json) :
    (Diff.update [] []).apply (some (.arr items)) = .ok (.arr items) := by
  rw [apply, editParts, editItems, fieldEdits]
  show Except.map _ (List.foldlM _ (cutAt [] items) (List.mergeSort [] _)) = _
  rw [List.mergeSort_nil]
  rfl

/-- The position that a key spells, and `0` for a key that spells none. -/
def positionOf (key : String) : Nat := (ArrayIndex.parse? key).getD 0

/-- `positionOf` reads back the spelling of a position below the limit. -/
theorem positionOf_text {i : Nat} (h : i < ArrayIndex.limit) :
    positionOf (ArrayIndex.text i) = i := by
  rw [positionOf, ArrayIndex.parse?_text h]
  rfl

/-- `position` does not fail on the spelling of a position below the limit. -/
theorem position_text {i : Nat} (h : i < ArrayIndex.limit) :
    position (ArrayIndex.text i) = .ok (positionOf (ArrayIndex.text i)) := by
  rw [position, positionOf, ArrayIndex.parse?_text h]
  rfl

/-- If `positions` are all positions of `items` from `len` on, in whatever order, then `cutAt`
    leaves the first `len` items. -/
theorem cutAt_eq_take {positions : List Nat} {items : List Json} {len : Nat}
    (h : ∀ i, i ∈ positions ↔ len ≤ i ∧ i < items.length) :
    cutAt positions items = items.take len := by
  unfold cutAt
  cases hm : positions.min? with
  | none =>
    have hle : items.length ≤ len := by
      refine Nat.le_of_not_lt ?_
      intro hlt
      have hmem : len ∈ positions := (h len).2 ⟨Nat.le_refl _, hlt⟩
      rw [List.min?_eq_none_iff.1 hm] at hmem
      cases hmem
    exact (List.take_of_length_le hle).symm
  | some cut =>
    -- The least position is the new end itself.
    obtain ⟨hmem, hleast⟩ := List.min?_eq_some_iff.1 hm
    have hcut : len ≤ cut ∧ cut < items.length := (h cut).1 hmem
    have hlen : cut ≤ len := hleast len ((h len).2 ⟨Nat.le_refl _, by omega⟩)
    have heq : cut = len := by omega
    rw [heq]

/-- The edits of an array with the positions that their keys spell. -/
def placed (changes : List (String × Diff)) : List (Nat × Edit) :=
  (fieldEdits changes).map fun p => (positionOf p.1, p.2)

section Placed

variable {changes : Dict Diff} {len : Nat} (hlen : len ≤ ArrayIndex.limit)
  (hkeys : ∀ key ∈ Dict.keys changes, ∃ i, key = ArrayIndex.text i ∧ i < len)
include hlen hkeys

/-- Reading the positions of the edits does not fail, and gives `placed changes`. -/
theorem mapM_position_fieldEdits : ((fieldEdits changes).mapM fun (p : String × Edit) =>
    (position p.1).map fun i => (i, p.2)) = .ok (placed changes) := by
  refine mapM_ok ?_
  intro p hmem
  have hin : p.1 ∈ Dict.keys changes := by
    rw [← Dict.keys_mapValues apply changes, ← fieldEdits_eq]
    exact List.mem_map_of_mem hmem
  obtain ⟨i, hi, hlt⟩ := hkeys p.1 hin
  rw [hi, position_text (Nat.lt_of_lt_of_le hlt hlen)]
  rfl

/-- The members of `placed changes` are the edits of single items, each at a position below the new
    length. -/
theorem mem_placed (hc : (Dict.keys changes).Nodup) {q : Nat × Edit} : q ∈ placed changes ↔
    q.1 < len ∧ ∃ d, Dict.get? changes (ArrayIndex.text q.1) = some d ∧ q.2 = d.apply := by
  obtain ⟨i, edit⟩ := q
  rw [placed, fieldEdits_eq, List.mem_map]
  have hnodup : (Dict.keys (Dict.mapValues apply changes)).Nodup := by rwa [Dict.keys_mapValues]
  constructor
  · rintro ⟨⟨key, e⟩, hmem, he⟩
    cases he
    have hg := Dict.get?_of_mem hnodup hmem
    rw [Dict.get?_mapValues] at hg
    obtain ⟨d, hd, rfl⟩ := Option.map_eq_some_iff.1 hg
    -- Every key spells a position below the length, so none is dropped.
    have hin : key ∈ Dict.keys changes := by
      rw [← Dict.isSome_get?_iff, hd]
      rfl
    obtain ⟨i, rfl, hlt⟩ := hkeys key hin
    rw [positionOf_text (Nat.lt_of_lt_of_le hlt hlen)]
    exact ⟨hlt, d, hd, rfl⟩
  · rintro ⟨hlt, d, hd, rfl⟩
    refine ⟨(ArrayIndex.text i, d.apply), Dict.mem_of_get? ?_, ?_⟩
    · rw [Dict.get?_mapValues, hd]
      rfl
    · rw [positionOf_text (Nat.lt_of_lt_of_le hlt hlen)]

/-- No two members of `placed changes` have the same position, since different keys spell different
    positions. -/
theorem nodup_placed (hc : (Dict.keys changes).Nodup) : ((placed changes).map Prod.fst).Nodup := by
  have hfst : (placed changes).map Prod.fst = (Dict.keys changes).map positionOf := by
    rw [placed, List.map_map, ← Dict.keys_mapValues apply changes, ← fieldEdits_eq, Dict.keys,
      List.map_map]
    rfl
  rw [hfst, List.Nodup, List.pairwise_map]
  refine List.Pairwise.imp_of_mem ?_ hc
  intro k l hk hl hne e
  refine hne ?_
  obtain ⟨i, rfl, hi⟩ := hkeys k hk
  obtain ⟨j, rfl, hj⟩ := hkeys l hl
  rw [positionOf_text (by omega), positionOf_text (by omega)] at e
  rw [e]

end Placed

section Items

variable {changes : Dict Diff} {removed : List String} {prior next : List Json}
  (hp : prior.length ≤ ArrayIndex.limit) (hn : next.length ≤ ArrayIndex.limit)
  (hc : (Dict.keys changes).Nodup)
  (hgone : ∀ key, key ∈ removed ↔
    ∃ i, key = ArrayIndex.text i ∧ next.length ≤ i ∧ i < prior.length)
  (hkeys : ∀ key ∈ Dict.keys changes, ∃ i, key = ArrayIndex.text i ∧ i < next.length)
  (hlead : ∀ (i : Nat) (v : Json), next[i]? = some v →
    Leads (Dict.get? changes (ArrayIndex.text i)) prior[i]? v)

include hp hgone in
/-- Reading the positions of `removed` does not fail. -/
theorem mapM_position_removed : removed.mapM position = .ok (removed.map positionOf) := by
  refine mapM_ok ?_
  intro key hkey
  obtain ⟨i, rfl, -, hi⟩ := (hgone key).1 hkey
  exact position_text (Nat.lt_of_lt_of_le hi hp)

include hp hgone in
/-- Cutting at the positions of `removed` leaves of `prior` as many items as `next` has, or all if
    there are fewer. -/
theorem cutAt_removed : cutAt (removed.map positionOf) prior = prior.take next.length := by
  refine cutAt_eq_take ?_
  intro i
  rw [List.mem_map]
  constructor
  · -- A position that is cut at is spelled by a key of `removed`, and `hgone` says where it is.
    rintro ⟨key, hkey, rfl⟩
    obtain ⟨i, rfl, hge, hlt⟩ := (hgone key).1 hkey
    rw [positionOf_text (Nat.lt_of_lt_of_le hlt hp)]
    exact ⟨hge, hlt⟩
  · rintro ⟨hge, hlt⟩
    have hmem : ArrayIndex.text i ∈ removed := (hgone _).2 ⟨i, rfl, hge, hlt⟩
    exact ⟨_, hmem, positionOf_text (Nat.lt_of_lt_of_le hlt hp)⟩

include hn hc hkeys hlead in
/-- The edits of `placed changes`, in the order of their positions, bring what is left of `prior`
    to `next`. -/
theorem foldlM_placed : ((placed changes).mergeSort fun a b => a.1 ≤ b.1).foldlM
    (fun items (p : Nat × Edit) => editItem items p.1 p.2) (prior.take next.length) =
      .ok next := by
  have hmem : ∀ q, q ∈ (placed changes).mergeSort (fun a b => a.1 ≤ b.1) ↔ q.1 < next.length ∧
      ∃ d, Dict.get? changes (ArrayIndex.text q.1) = some d ∧ q.2 = d.apply := by
    intro q
    exact (List.mergeSort_perm _ _).mem_iff.trans (mem_placed hn hkeys hc)
  have hlen : (prior.take next.length).length ≤ next.length := by
    rw [List.length_take]
    omega
  refine foldlM_editItem (pairwise_mergeSort_lt (nodup_placed hn hkeys hc)) hlen
    (fun q hq => ?_) fun i hi hout => ?_
  · obtain ⟨hlt, d, hd, he⟩ := (hmem q).1 hq
    have hl := hlead q.1 _ (List.getElem?_eq_getElem hlt)
    rw [hd] at hl
    refine ⟨next[q.1], List.getElem?_eq_getElem hlt, ?_⟩
    rw [List.getElem?_take_of_lt hlt, he]
    exact hl
  · -- An item that is not edited is the one that stood there.
    have hl := hlead i _ (List.getElem?_eq_getElem hi)
    rw [List.getElem?_take_of_lt hi, List.getElem?_eq_getElem hi]
    cases hd : Dict.get? changes (ArrayIndex.text i) with
    | none =>
      rw [hd] at hl
      exact hl
    | some d => exact absurd rfl (hout (i, d.apply) ((hmem _).2 ⟨hi, d, hd, rfl⟩))

include hp hn hc hgone hkeys hlead in
/-- `update changes removed` brings the array `prior` to the array `next`, if `removed` spells the
    positions behind the end of `next` and `changes` leads every item of `next` from what `prior`
    has there. -/
theorem apply_update_arr :
    (Diff.update changes removed).apply (some (.arr prior)) = .ok (.arr next) := by
  rw [apply, editParts, editItems, mapM_position_removed hp hgone,
    mapM_position_fieldEdits hn hkeys]
  show Except.map _ (List.foldlM _ (cutAt (removed.map positionOf) prior) _) = _
  rw [cutAt_removed hp hgone, foldlM_placed hn hc hkeys hlead]
  rfl

end Items

end Diff

end Observatory
