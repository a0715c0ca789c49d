import Observatory.Proofs.Store.Consumer

/-!
# Differences without superfluous parts

A difference is exact if it tells what is different and nothing else.  What is different is said
of places: which of them were visible before, which are visible now, and where something fresh
stands.  The move of a cursor knows none of this, but only the stamps that it recorded; still, on
a tree that came from the recorded one by later changes it finds exactly the places where
something stands that is stamped later, and those that are visible no more.

* `Diff.under?`: the difference of a place, reached through changes in place;
* `Diff.Exact`: the difference tells what is different, and nothing else;
* `Node.visible`: the places that a snapshot captures;
* `Cursor.Moves`: the moves of all parts of a node;
* `Cursor.exact_of_moves`: exact differences of the parts make one of the node;
* `Cursor.exact_recordOf`: the difference on the way of a cursor is exact.
-/

namespace Observatory

namespace Diff

/-! ### Exact differences -/

/-- Whether a difference changes its value in place, rather than replacing it. -/
def isUpdate : Diff → Bool
  | update _ _ => true
  | _ => false

/-- What a difference says of a place that is reached through changes in place. -/
def under? : Diff → List String → Option Diff
  | d, [] => some d
  | update changes _, key :: rest => (Dict.get? changes key).bind fun e => under? e rest
  | _, _ :: _ => none

section Exact

variable (before now fresh : List String → Prop)

/-- Something visible is gone from a place, or what is visible there is fresh. -/
def Differs (path : List String) : Prop :=
  before path ∧ ¬ now path ∨ now path ∧ fresh path

/-- What a change in place at `place` must look like: it changes or removes something, it changes
    the parts with something that `Differs` at or beneath them, replaces those that are fresh, and
    removes those that are visible no more. -/
structure Inside (place : List String) (changes : List (String × Diff)) (removed : List String) :
    Prop where
  /-- It changes something. -/
  nonempty : changes ≠ [] ∨ removed ≠ []
  /-- A part is changed if it is visible and something differs there or beneath. -/
  changed : ∀ key, key ∈ Dict.keys changes ↔
    now (place ++ [key]) ∧ ∃ rest, Differs before now fresh (place ++ key :: rest)
  /-- A part is replaced if it is fresh itself, and otherwise changed in place. -/
  replaced : ∀ key e, Dict.get? changes key = some e →
    (e.isUpdate = false ↔ fresh (place ++ [key]))
  /-- A part is removed if it was visible and is not any more. -/
  gone : ∀ key, key ∈ removed ↔ before (place ++ [key]) ∧ ¬ now (place ++ [key])

/-- A difference that tells what `Differs` and nothing else, at every depth. -/
structure Exact (d : Option Diff) : Prop where
  /-- There is no difference exactly if no place differs. -/
  none_iff : d = none ↔ ∀ path, ¬ Differs before now fresh path
  /-- Unless the whole differs it is changed in place. -/
  replaced : ∀ e, d = some e → (e.isUpdate = false ↔ Differs before now fresh [])
  /-- Every change in place on the way is made of what differs beneath. -/
  inside : ∀ e, d = some e → ∀ place changes removed,
    e.under? place = some (update changes removed) → Inside before now fresh place changes removed

variable {before now fresh}

/-- `Differs` depends on `fresh` only at visible places. -/
theorem differs_congr {fresh' : List String → Prop}
    (h : ∀ path, now path → (fresh path ↔ fresh' path)) (path : List String) :
    Differs before now fresh path ↔ Differs before now fresh' path :=
  or_congr_right (and_congr_right (h path))

/-- `Exact` depends on `fresh` only at the paths that are there now. -/
theorem Exact.congr {fresh' : List String → Prop} {d : Option Diff}
    (h : Exact before now fresh d) (hfresh : ∀ path, now path → (fresh path ↔ fresh' path)) :
    Exact before now fresh' d where
  none_iff := by
    simp only [← differs_congr hfresh]
    exact h.none_iff
  replaced := by
    simp only [← differs_congr hfresh]
    exact h.replaced
  -- The keys of an update are there now, so `fresh` and `fresh'` agree on them.
  inside := by
    intro e he place changes removed hunder
    have hin := h.inside e he place changes removed hunder
    refine ⟨hin.nonempty, ?_, fun key e' he' => ?_, hin.gone⟩
    · simp only [← differs_congr hfresh]
      exact hin.changed
    · have hkey : key ∈ Dict.keys changes := Dict.isSome_get?_iff.1 (by rw [he']; rfl)
      rw [hin.replaced key e' he', hfresh _ ((hin.changed key).1 hkey).1]

/-- If the whole differs, then a difference that replaces everything is exact. -/
theorem exact_of_replaced {d : Diff} (hd : d.isUpdate = false) (h : Differs before now fresh []) :
    Exact before now fresh (some d) where
  none_iff := iff_of_false nofun fun hnone => hnone [] h
  replaced := by
    rintro e ⟨⟩
    exact iff_of_true hd h
  inside := by
    rintro e ⟨⟩ place changes removed hunder
    -- No change in place leads anywhere.
    cases d with
    | update cs rs => cases hd
    | _ => cases place <;> cases hunder

/-- If no place differs, then no difference is exact. -/
theorem exact_none (h : ∀ path, ¬ Differs before now fresh path) : Exact before now fresh none where
  none_iff := iff_of_true rfl h
  replaced := nofun
  inside := nofun

end Exact

end Diff

/-! ### Visible places -/

namespace Node

/-- Whether a snapshot captures a node at a place. -/
def visible (w : Whitelist) (n : Node) (path : List String) : Bool :=
  ((Cursor.capture w n).descend? path).isSome

/-- The part that is captured under a key, with its rule: a child that passes, or an item under
    its own position. -/
def shown? (w : Whitelist) (key : String) : Node → Option (Whitelist × Node)
  | scalar _ _ => none
  | object _ children => (Dict.get? children key).bind fun c => (w.child? key).map (·, c)
  | array _ items => (Cursor.itemRule? w).bind fun rule =>
    (Dict.get? (numbered 0 items) key).map (rule, ·)

section Visible

variable {w : Whitelist} {n : Node} {key : String}

theorem numbered_map {α β : Type} (f : α → β) (i : Nat) (xs : List α) :
    numbered i (xs.map f) = Dict.mapValues f (numbered i xs) := by
  induction xs generalizing i with
  | nil => rfl
  | cons x rest ih => exact congrArg ((ArrayIndex.text i, f x) :: ·) (ih (i + 1))

@[simp] theorem visible_nil (w : Whitelist) (n : Node) : n.visible w [] = true := rfl

/-- Under a key the capture of a node has the capture of the part that is `shown?` there. -/
theorem get?_props_capture (hn : n.Regular) (key : String) :
    Dict.get? (Cursor.capture w n).props key =
      (n.shown? w key).map fun p => Cursor.capture p.1 p.2 := by
  -- A capture keeps the parts that have a rule: children by their key, items by their position.
  cases n with
  | scalar s a => rfl
  | object s children =>
    rw [Cursor.capture, Cursor.props_mk, Cursor.captureChildren_eq,
      Dict.get?_select (regular_object.1 hn).2.1.nodup_keys, shown?]
    cases Dict.get? children key with
    | none => rfl
    | some c => cases w.child? key <;> rfl
  | array s items =>
    by_cases hw : w = .nothing
    · subst hw
      rfl
    · rw [Cursor.capture_array hw, Cursor.props_mk, Dict.get?_ofPairs (nodup_keys_numbered 0 _),
        shown?, Whitelist.itemRule?_of_ne hw, Option.bind_some, Option.map_map, numbered_map,
        Dict.get?_mapValues]
      rfl

/-- What is visible beneath a key is visible in the part that is `shown?` there. -/
theorem visible_cons (hn : n.Regular) (rest : List String) : n.visible w (key :: rest) =
    (n.shown? w key).any fun p => p.2.visible p.1 rest := by
  rw [visible, Cursor.descend?, Cursor.prop?, get?_props_capture hn]
  cases n.shown? w key <;> rfl

/-- The part that is `shown?` under a key stands there. -/
theorem child?_of_shown? (hn : n.Regular) {p : Whitelist × Node} (h : n.shown? w key = some p) :
    n.child? key = some p.2 := by
  cases n with
  | scalar s a => cases h
  | object s children =>
    obtain ⟨c, hc, hrule⟩ := Option.bind_eq_some_iff.1 h
    obtain ⟨rule, -, rfl⟩ := Option.map_eq_some_iff.1 hrule
    exact hc
  | array s items =>
    obtain ⟨rule, -, hitem⟩ := Option.bind_eq_some_iff.1 h
    obtain ⟨c, hc, rfl⟩ := Option.map_eq_some_iff.1 hitem
    obtain ⟨i, rfl, hi⟩ := mem_numbered.1 (Dict.mem_of_get? hc)
    -- The text of a position is read back as that position, as far as arrays go.
    have hlt : i < ArrayIndex.limit :=
      Nat.lt_of_lt_of_le (List.getElem?_eq_some_iff.1 hi).1 (regular_array.1 hn).2.1
    rw [child?, ArrayIndex.parse?_text hlt]
    exact hi

/-- The part that is `shown?` in a regular tree is regular. -/
theorem regular_of_shown? (hn : n.Regular) {p : Whitelist × Node} (h : n.shown? w key = some p) :
    p.2.Regular := by
  have hself : n.RegularTo n.childSerial := ⟨Nat.le_refl _, hn⟩
  exact (hself.child? (child?_of_shown? hn h)).2

/-- Where something is `visible` a node stands. -/
theorem descendant?_of_visible (hn : n.Regular) {path : List String} (h : n.visible w path = true) :
    ∃ m, n.descendant? path = some m := by
  induction path generalizing w n with
  | nil => exact ⟨n, rfl⟩
  | cons key rest ih =>
    rw [visible_cons hn] at h
    cases hp : n.shown? w key with
    | none =>
      rw [hp] at h
      cases h
    | some p =>
      rw [hp] at h
      obtain ⟨m, hm⟩ := ih (regular_of_shown? hn hp) h
      exact ⟨m, by rw [descendant?, child?_of_shown? hn hp, Option.bind_some, hm]⟩

end Visible

end Node

/-! ### The move of a cursor -/

namespace Cursor

section Moves

variable {w : Whitelist} {seen : Nat} {old new : Node} {moves : Dict Progress}
  {removed : List String} {s : Stamp}

/-- The moves of all parts of a node that a reader may see, together with the keys that it has to
    forget, where `old` stood and `new` stands. -/
structure Moves (w : Whitelist) (old new : Node) (moves : Dict Progress) (removed : List String) :
    Prop where
  nodup : (Dict.keys moves).Nodup
  /-- The part under a key is captured by the same rule as before. -/
  rule : ∀ key p q, old.shown? w key = some p → new.shown? w key = some q → p.1 = q.1
  /-- Every part that is captured now is moved to. -/
  move : ∀ key, Dict.get? moves key = (new.shown? w key).map fun p =>
    advance p.1 p.2 (recordOf p.1 ((old.shown? w key).map Prod.snd))
  /-- What was captured and is not any more is forgotten. -/
  gone : ∀ key, key ∈ removed ↔ (old.shown? w key).isSome ∧ new.shown? w key = none

/-- `childMoves` and `removedKeys` are the `Moves` of an object. -/
theorem moves_object {s s' : Stamp} {children next : Dict Node} (hold : Dict.Sorted children)
    (hnew : Dict.Sorted next) : Moves w (.object s children) (.object s' next)
      (childMoves w children next)
      (removedKeys w (.object s' next) (recordOf w (some (.object s children))).props) where
  nodup := (sorted_childMoves hnew).nodup_keys
  rule := by
    intro key p q hp hq
    obtain ⟨_, -, hp⟩ := Option.bind_eq_some_iff.1 hp
    obtain ⟨_, -, hq⟩ := Option.bind_eq_some_iff.1 hq
    obtain ⟨rule, hr, rfl⟩ := Option.map_eq_some_iff.1 hp
    obtain ⟨rule', hr', rfl⟩ := Option.map_eq_some_iff.1 hq
    exact Option.some.inj (hr.symm.trans hr')
  move := by
    intro key
    rw [get?_childMoves hnew, Node.shown?, Node.shown?]
    -- Whether the key has a rule, whether it had a child and whether it has one now.
    cases w.child? key with
    | none => cases Dict.get? next key <;> rfl
    | some rule => cases Dict.get? next key <;> cases Dict.get? children key <;> rfl
  gone := by
    intro key
    rw [mem_removedKeys_object hold hnew, Node.get?_viewChildren hold, Node.get?_viewChildren hnew,
      Node.shown?, Node.shown?]
    cases w.child? key with
    | none => cases Dict.get? children key <;> simp
    | some rule => cases Dict.get? children key <;> cases Dict.get? next key <;> simp

/-- `itemMoves` and `removedKeys` are the `Moves` of an array, if its items pass. -/
theorem moves_items (hw : w ≠ .nothing) {s s' : Stamp} {items next : List Node}
    (hold : items.length ≤ ArrayIndex.limit) (hnew : next.length ≤ ArrayIndex.limit) :
    Moves w (.array s items) (.array s' next) (itemMoves w s items next)
      (removedKeys w (.array s' next) (recordOf w (some (.array s items))).props) where
  nodup := (Dict.sorted_ofPairs _).nodup_keys
  rule := by
    intro key p q hp hq
    obtain ⟨rule, hr, hp⟩ := Option.bind_eq_some_iff.1 hp
    obtain ⟨rule', hr', hq⟩ := Option.bind_eq_some_iff.1 hq
    obtain ⟨_, -, rfl⟩ := Option.map_eq_some_iff.1 hp
    obtain ⟨_, -, rfl⟩ := Option.map_eq_some_iff.1 hq
    exact Option.some.inj (hr.symm.trans hr')
  move := by
    intro key
    simp only [Node.shown?, Whitelist.itemRule?_of_ne hw, Option.bind_some, Option.map_map]
    by_cases hkey : ∃ i, key = ArrayIndex.text i
    · obtain ⟨i, rfl⟩ := hkey
      simp only [get?_itemMoves hw, Node.get?_numbered]
      cases items[i]? <;> cases next[i]? <;> rfl
    · -- A key that is no position stands for no item, in either array.
      have hmoves : Dict.get? (itemMoves w s items next) key = none := by
        refine Dict.get?_eq_none_iff.2 fun h => hkey ?_
        obtain ⟨i, hi, -⟩ := mem_keys_itemMoves h
        exact ⟨i, hi⟩
      have hnext : Dict.get? (Node.numbered 0 next) key = none := by
        refine Dict.get?_eq_none_iff.2 fun h => hkey ?_
        obtain ⟨j, -, hj⟩ := Node.mem_keys_numbered.1 h
        exact ⟨0 + j, hj⟩
      rw [hmoves, hnext]
      rfl
  gone := by
    intro key
    simp only [mem_removedKeys_array hw hold hnew, Node.shown?, Whitelist.itemRule?_of_ne hw,
      Option.bind_some, Option.isSome_map, Option.map_eq_none_iff, Dict.isSome_get?_iff,
      Dict.get?_eq_none_iff, Node.mem_keys_numbered, Nat.zero_add]
    constructor
    · rintro ⟨i, rfl, hge, hlt⟩
      refine ⟨⟨i, hlt, rfl⟩, ?_⟩
      rintro ⟨j, hj, hij⟩
      have hsame : i = j := ArrayIndex.text_injective hij
      omega
    · rintro ⟨⟨i, hlt, rfl⟩, hout⟩
      exact ⟨i, rfl, Nat.le_of_not_lt fun h => hout ⟨i, h, rfl⟩, hlt⟩

/-- Moving a cursor over an array with a change beneath gathers its `Moves`, whatever the
    whitelist. -/
theorem moves_array {s s' : Stamp} {items next : List Node}
    (hold : items.length ≤ ArrayIndex.limit) (hnew : next.length ≤ ArrayIndex.limit)
    (hs : s'.serial = s.serial) (hc : s'.childSerial ≠ s.childSerial) :
    ∃ moves removed, Moves w (.array s items) (.array s' next) moves removed ∧
      advance w (.array s' next) (recordOf w (some (.array s items))) =
        gather s' moves removed := by
  by_cases hw : w = .nothing
  · -- Nothing of the array is captured, then or now.
    subst hw
    refine ⟨[], [], ⟨List.nodup_nil, nofun, fun key => rfl, fun key => ?_⟩, ?_⟩
    · exact iff_of_false nofun nofun
    · rw [advance.eq_def]
      simp only [recordOf, stamp_capture, Node.stamp, Node.serial, Node.childSerial, hs, hc, ne_eq,
        not_true_eq_false, if_false]
      rfl
  · have hstamp : (recordOf w (some (.array s items))).stamp = some s :=
      stamp_capture w (.array s items)
    exact ⟨_, _, moves_items hw hold hnew, advance_array hw hstamp hs hc⟩

/-- What was visible of a place, where `old` stood or nothing. -/
def before (w : Whitelist) (old : Option Node) (path : List String) : Prop :=
  old.any (·.visible w path) = true

/-- What is visible of a place. -/
def now (w : Whitelist) (new : Node) (path : List String) : Prop := new.visible w path = true

/-- Whether a node is stamped later than what was seen. -/
def fresh (seen : Nat) (new : Node) (path : List String) : Prop :=
  ∃ m, new.descendant? path = some m ∧ seen < m.serial

/-- `Diff.Exact` for the difference of a place, where `old` stood or nothing, and `new` stands. -/
abbrev ExactAt (w : Whitelist) (seen : Nat) (old : Option Node) (new : Node) (d : Option Diff) :
    Prop := Diff.Exact (before w old) (now w new) (fresh seen new) d

theorem now_singleton (hnew : new.Regular) {key : String} :
    now w new [key] ↔ (new.shown? w key).isSome := by
  rw [now, Node.visible_cons hnew]
  cases new.shown? w key <;> simp

theorem before_singleton (hold : old.Regular) {key : String} :
    before w (some old) [key] ↔ (old.shown? w key).isSome := now_singleton hold

/-- A node that is not fresh itself does not differ as a whole. -/
theorem not_differs_nil (h : new.serial ≤ seen) :
    ¬ Diff.Differs (before w (some old)) (now w new) (fresh seen new) [] := by
  rintro (⟨-, hnow⟩ | ⟨-, m, hm, hlt⟩)
  · exact hnow rfl
  · cases hm
    exact Nat.not_lt.2 h hlt

section Part

variable {key : String} {p : Whitelist × Node} (hp : new.shown? w key = some p)
include hp

theorem now_cons (hnew : new.Regular) (rest : List String) :
    now w new (key :: rest) ↔ now p.1 p.2 rest := by
  rw [now, now, Node.visible_cons hnew, hp]
  rfl

theorem fresh_cons (hnew : new.Regular) (rest : List String) :
    fresh seen new (key :: rest) ↔ fresh seen p.2 rest := by
  rw [fresh, fresh, Node.descendant?, Node.child?_of_shown? hnew hp]
  rfl

theorem Moves.before_cons (h : Moves w old new moves removed) (hold : old.Regular)
    (rest : List String) : before w (some old) (key :: rest) ↔
      before p.1 ((old.shown? w key).map Prod.snd) rest := by
  rw [before, before, Option.any_some, Node.visible_cons hold]
  cases ho : old.shown? w key with
  | none => rfl
  | some q =>
    rw [← h.rule key q p ho hp]
    rfl

/-- What `Differs` beneath a part is what differs in the part, by the rule for it. -/
theorem Moves.differs_cons (h : Moves w old new moves removed) (hold : old.Regular)
    (hnew : new.Regular) (rest : List String) :
    Diff.Differs (before w (some old)) (now w new) (fresh seen new) (key :: rest) ↔
      Diff.Differs (before p.1 ((old.shown? w key).map Prod.snd)) (now p.1 p.2) (fresh seen p.2)
        rest := by
  rw [Diff.Differs, Diff.Differs, h.before_cons hp hold, now_cons hp hnew, fresh_cons hp hnew]

end Part

section Exact

variable (h : Moves w old new moves removed) (hold : old.Regular) (hnew : new.Regular)
  (hserial : new.serial ≤ seen)
  (hpart : ∀ key p, new.shown? w key = some p →
    ExactAt p.1 seen ((old.shown? w key).map Prod.snd) p.2
      (advance p.1 p.2 (recordOf p.1 ((old.shown? w key).map Prod.snd))).2)
include h

/-- The change under a key is the difference of the part that is `shown?` there. -/
theorem Moves.get?_changes (key : String) : Dict.get? (changes moves) key =
    (new.shown? w key).bind fun p =>
      (advance p.1 p.2 (recordOf p.1 ((old.shown? w key).map Prod.snd))).2 := by
  rw [changes_eq, Dict.get?_select h.nodup, h.move]
  cases new.shown? w key <;> rfl

include hold hnew

/-- The removed keys are those that were visible and are not any more. -/
theorem Moves.mem_removed (key : String) :
    key ∈ removed ↔ before w (some old) [key] ∧ ¬ now w new [key] := by
  rw [h.gone, before_singleton hold, now_singleton hnew, Option.not_isSome_iff_eq_none]

include hpart

/-- A part has a change exactly if it is visible and something differs at or beneath it. -/
theorem Moves.mem_changes (key : String) : key ∈ Dict.keys (changes moves) ↔
    now w new [key] ∧
      ∃ rest, Diff.Differs (before w (some old)) (now w new) (fresh seen new) (key :: rest) := by
  rw [← Dict.isSome_get?_iff, h.get?_changes, now_singleton hnew]
  cases hp : new.shown? w key with
  | none => exact iff_of_false nofun nofun
  | some p =>
    rw [Option.bind_some, Option.isSome_iff_ne_none, ne_eq, (hpart key p hp).none_iff]
    simp only [h.differs_cons hp hold hnew, Classical.not_forall, Classical.not_not,
      Option.isSome_some, true_and]

include hserial

/-- There are neither changes nor removed keys exactly if no place differs. -/
theorem Moves.empty_iff : changes moves = [] ∧ removed = [] ↔
    ∀ path, ¬ Diff.Differs (before w (some old)) (now w new) (fresh seen new) path := by
  constructor
  · rintro ⟨hchanges, hremoved⟩ path hdiffers
    cases path with
    | nil => exact not_differs_nil hserial hdiffers
    | cons key rest =>
      by_cases hkey : now w new [key]
      · have hmem := (h.mem_changes hold hnew hpart key).2 ⟨hkey, rest, hdiffers⟩
        rw [hchanges] at hmem
        cases hmem
      · -- Nothing is visible beneath what is not, so something is gone.
        have hnone : new.shown? w key = none := by
          rw [now_singleton hnew] at hkey
          exact Option.not_isSome_iff_eq_none.1 hkey
        have hnow : ¬ now w new (key :: rest) := by
          rw [now, Node.visible_cons hnew, hnone]
          exact Bool.false_ne_true
        obtain ⟨hbefore, -⟩ := hdiffers.resolve_right fun hd => hnow hd.1
        have hmem : key ∈ removed := by
          refine (h.gone key).2 ⟨?_, hnone⟩
          rw [before, Option.any_some, Node.visible_cons hold] at hbefore
          cases ho : old.shown? w key with
          | none =>
            rw [ho] at hbefore
            cases hbefore
          | some q => rfl
        rw [hremoved] at hmem
        cases hmem
  · intro hnone
    constructor
    · refine List.eq_nil_iff_forall_not_mem.2 fun c hc => ?_
      have hkey : c.1 ∈ Dict.keys (changes moves) := List.mem_map_of_mem hc
      obtain ⟨-, rest, hdiffers⟩ := (h.mem_changes hold hnew hpart c.1).1 hkey
      exact hnone _ hdiffers
    · refine List.eq_nil_iff_forall_not_mem.2 fun key hkey => ?_
      exact hnone [key] (.inl ((h.mem_removed hold hnew key).1 hkey))

/-- If the differences of the parts are exact, then gathering them gives an exact difference of the
    node. -/
theorem Moves.exact (s : Stamp) :
    ExactAt w seen (some old) new (gather s moves removed).2 := by
  have hempty := h.empty_iff hold hnew hserial hpart
  rw [gather_snd]
  split
  · next hnil =>
    rw [Bool.and_eq_true, List.isEmpty_iff, List.isEmpty_iff] at hnil
    exact Diff.exact_none (hempty.1 hnil)
  · next hsome =>
    rw [Bool.and_eq_true, List.isEmpty_iff, List.isEmpty_iff] at hsome
    refine ⟨iff_of_false nofun fun hnone => hsome (hempty.2 hnone), ?_, ?_⟩
    · rintro e ⟨⟩
      exact iff_of_false nofun (not_differs_nil hserial)
    · rintro e ⟨⟩ place changes' removed' hunder
      -- At the place itself the change is made of the moves, further down it belongs to one part.
      cases place with
      | nil =>
        cases hunder
        refine ⟨Classical.not_and_iff_not_or_not.1 hsome, h.mem_changes hold hnew hpart, ?_,
          h.mem_removed hold hnew⟩
        intro key e he
        rw [h.get?_changes] at he
        obtain ⟨p, hp, he⟩ := Option.bind_eq_some_iff.1 he
        rw [(hpart key p hp).replaced e he, List.nil_append, fresh_cons hp hnew]
        constructor
        · rintro (⟨-, hnow⟩ | ⟨-, hfresh⟩)
          · exact absurd rfl hnow
          · exact hfresh
        · exact fun hfresh => .inr ⟨rfl, hfresh⟩
      | cons key rest =>
        obtain ⟨e, he, hunder⟩ := Option.bind_eq_some_iff.1 hunder
        rw [h.get?_changes] at he
        obtain ⟨p, hp, he⟩ := Option.bind_eq_some_iff.1 he
        have hin := (hpart key p hp).inside e he rest changes' removed' hunder
        refine ⟨hin.nonempty, fun k => ?_, fun k e' he' => ?_, fun k => ?_⟩
        · simp only [List.cons_append, now_cons hp hnew, h.differs_cons hp hold hnew]
          exact hin.changed k
        · rw [List.cons_append, fresh_cons hp hnew]
          exact hin.replaced k e' he'
        · rw [List.cons_append, h.before_cons hp hold, now_cons hp hnew]
          exact hin.gone k

end Exact

end Moves

/-! ### Places -/

/-- `materialize` replaces what was there. -/
theorem isUpdate_materialize (w : Whitelist) (n : Node) : (materialize w n).isUpdate = false := by
  cases n <;> rfl

/-- **The difference of a move is exact.**  If `new` has come from `old` by changes `Since seen`,
    then moving the record of `old` to `new` gives a difference that is `ExactAt` the place, for
    every whitelist. -/
theorem exact_recordOf {w : Whitelist} {seen : Nat} {old : Option Node} {new : Node}
    (h : Node.Since seen old new) (hold : ∀ n, old = some n → n.RegularTo seen)
    (hnew : new.Regular) : ExactAt w seen old new (advance w new (recordOf w old)).2 := by
  induction h generalizing w with
  | same n =>
    have hnone : advance w n (recordOf w (some n)) = (capture w n, none) :=
      advance_of_stamp_eq (stamp_capture w n)
    rw [hnone]
    refine Diff.exact_none fun path hdiffers => ?_
    rcases hdiffers with ⟨hbefore, hgone⟩ | ⟨-, m, hm, hlt⟩
    · exact hgone hbefore
    · exact Nat.not_lt.2 ((hold n rfl).descendant? hm).serial_le hlt
  -- A node that was stamped is spelled out, which is exact as it differs as a whole.
  | @renewed old new hlt =>
    have hall : advance w new (recordOf w old) = (capture w new, some (materialize w new)) := by
      cases old with
      | none => exact advance_unseen w new
      | some n =>
        have hle : n.serial ≤ seen := (hold n rfl).serial_le
        have hne : new.serial ≠ n.serial := by omega
        exact advance_of_serial_ne (stamp_capture w n) hne
    rw [hall]
    exact Diff.exact_of_replaced (isUpdate_materialize w new) (.inr ⟨rfl, new, rfl, hlt⟩)
  | @object s s' children next hs hc h ih =>
    have hto := hold _ rfl
    have hd := (Node.regular_object.1 hto.2).2.1
    have hd' := (Node.regular_object.1 hnew).2.1
    have hne : s'.childSerial ≠ s.childSerial := Nat.ne_of_gt (Nat.lt_of_le_of_lt hto.1 hc)
    have hserial : (Node.object s' next).serial ≤ seen := by
      show s'.serial ≤ seen
      rw [hs]
      exact hto.serial_le
    have hstamp : (recordOf w (some (.object s children))).stamp = some s := rfl
    rw [advance_object hstamp hs hne, advanceChildren_recordOf hd]
    refine (moves_object hd hd').exact hto.2 hnew hserial (fun key p hp => ?_) s'
    have hn : Dict.get? next key = some p.2 := Node.child?_of_shown? hnew hp
    have hpart : ((Node.object s children).shown? w key).map Prod.snd = Dict.get? children key := by
      obtain ⟨c, -, hrule⟩ := Option.bind_eq_some_iff.1 hp
      obtain ⟨rule, hr, -⟩ := Option.map_eq_some_iff.1 hrule
      rw [Node.shown?, hr]
      cases Dict.get? children key <;> rfl
    rw [hpart]
    exact ih key p.2 hn (fun m hm => hto.child.2 key m hm) (Node.regular_of_shown? hnew hp)
  | @array s s' items next hs hc h ih =>
    have hto := hold _ rfl
    have hl := (Node.regular_array.1 hto.2).2.1
    have hl' := (Node.regular_array.1 hnew).2.1
    have hne : s'.childSerial ≠ s.childSerial := Nat.ne_of_gt (Nat.lt_of_le_of_lt hto.1 hc)
    have hserial : (Node.array s' next).serial ≤ seen := by
      show s'.serial ≤ seen
      rw [hs]
      exact hto.serial_le
    obtain ⟨moves, removed, hmoves, hadvance⟩ := moves_array (w := w) hl hl' hs hne
    rw [hadvance]
    refine hmoves.exact hto.2 hnew hserial (fun key p hp => ?_) s'
    obtain ⟨rule, hr, hitem⟩ := Option.bind_eq_some_iff.1 hp
    obtain ⟨c, hc, rfl⟩ := Option.map_eq_some_iff.1 hitem
    obtain ⟨i, rfl, hi⟩ := Node.mem_numbered.1 (Dict.mem_of_get? hc)
    have hpart : ((Node.array s items).shown? w (ArrayIndex.text i)).map Prod.snd = items[i]? := by
      rw [Node.shown?, hr, Option.bind_some, Node.get?_numbered]
      cases items[i]? <;> rfl
    rw [hpart]
    exact ih i c hi (fun m hm => hto.item.2 i m hm) (Node.regular_of_shown? hnew hp)

end Cursor

end Observatory
