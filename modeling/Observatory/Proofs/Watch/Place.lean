import Observatory.Proofs.Store.Edit
import Observatory.Watch.Trigger

/-!
# Places of a trie

A trie is gone down branch by branch: by a key, or by the instance of a wildcard for a key.
A key without an instance leads to the pattern, which is what its instance would be a copy of.
In this way a trie is a function of places, and so are the data, and what is done to a trie
is described place by place.

* `Branch`, `Place`: ways down; `look` follows a place in some data;
* `Trigger.branch`, `Trigger.place`: follow a branch or a place in a trie;
* `Trigger.Proper`: no key twice, patterns have seen nothing, and instances have the
  listeners of their pattern; `Trigger.ProperInstances` is the part about instances, and
  `Trigger.Proper.branchInduction` goes down a proper trie.
-/

namespace Observatory

/-! ### Ways down -/

/-- A step down: by a key as such, or by a key that a wildcard stands for. -/
inductive Branch where
  | named (key : String)
  | wild (key : String)
  deriving DecidableEq, Repr

/-- The step of a path that a branch belongs to. -/
def Branch.step : Branch → Step
  | named key => .key key
  | wild _ => .wildcard

/-- The part of some data that a branch leads to.  A wildcard stands only for the keys that are
    there, in the spelling that they have there: an item of an array has one such key, but can be
    named by several. -/
def Branch.part (data : Option Node) : Branch → Option Node
  | named key => Trigger.part data key
  | wild key => if key ∈ Trigger.dataKeys data then Trigger.part data key else none

/-- Several steps down. -/
abbrev Place := List Branch

/-- The path that a place belongs to. -/
def Place.steps (p : Place) : List Step := p.map Branch.step

theorem Place.steps_cons (b : Branch) (p : Place) :
    Place.steps (b :: p) = b.step :: p.steps := rfl

/-- What stands at a place in some data. -/
def look (data : Option Node) (p : Place) : Option Node := p.foldl Branch.part data

@[simp] theorem look_nil (data : Option Node) : look data [] = data := rfl

@[simp] theorem look_cons (data : Option Node) (b : Branch) (p : Place) :
    look data (b :: p) = look (b.part data) p := rfl

@[simp] theorem Branch.part_none (b : Branch) : b.part none = none := by
  cases b <;> rfl

@[simp] theorem look_none (p : Place) : look none p = none := by
  induction p with
  | nil => rfl
  | cons b rest ih => rw [look_cons, Branch.part_none, ih]

namespace Trigger

/-- The trie below a branch, and the empty trie where there is no branch.  A key without an
    instance leads to the pattern. -/
def branch : Trigger → Branch → Trigger
  | mk _ ns _ _, .named key => (Dict.get? ns key).getD empty
  | mk _ _ none _, .wild _ => empty
  | mk _ _ (some (pattern, is)) _, .wild key => (Dict.get? is key).getD pattern

theorem branch_named (t : Trigger) (key : String) :
    t.branch (.named key) = (Dict.get? t.named key).getD empty := by
  cases t
  rfl

theorem branch_wild (t : Trigger) (key : String) : t.branch (.wild key) = match t.wildcard with
    | none => empty
    | some (pattern, is) => (Dict.get? is key).getD pattern := by
  obtain ⟨ls, ns, w, v⟩ := t
  cases w with
  | none => rfl
  | some w => rfl

/-- The trie at a place. -/
def place (t : Trigger) (p : Place) : Trigger := p.foldl branch t

@[simp] theorem place_nil (t : Trigger) : t.place [] = t := rfl

@[simp] theorem place_cons (t : Trigger) (b : Branch) (p : Place) :
    t.place (b :: p) = (t.branch b).place p := rfl

@[simp] theorem branch_empty (b : Branch) : empty.branch b = empty := by
  cases b <;> rfl

@[simp] theorem place_empty (p : Place) : empty.place p = empty := by
  induction p with
  | nil => rfl
  | cons b rest ih => rw [place_cons, branch_empty, ih]

/-! ### Proper tries -/

/-- Nothing was visited at any place of the trie, and no listener has seen anything. -/
def Blank (t : Trigger) : Prop :=
  ∀ p, (t.place p).visited = none ∧ ∀ l ∈ (t.place p).listeners, l.seen = none

/-- The tokens of the listeners at a place. -/
def tokensAt (t : Trigger) (p : Place) : List Token := (t.place p).listeners.map Listener.token

/-- The same tokens listen at every place, whatever they have seen. -/
def Alike (t u : Trigger) : Prop := ∀ p, t.tokensAt p = u.tokensAt p

/-- The invariant of a trie: no key occurs twice, patterns are `Blank`, and the instances of a
    wildcard are `Alike` its pattern, at every depth. -/
inductive Proper : Trigger → Prop
  | mk {ls : List Listener} {ns : Dict Trigger} {w : Option (Trigger × Dict Trigger)}
      {v : Sighting}
      (named : Dict.Sorted ns) (each : ∀ key t, Dict.get? ns key = some t → Proper t)
      (instances : ∀ pattern is, w = some (pattern, is) → Dict.Sorted is)
      (pattern : ∀ pattern is, w = some (pattern, is) → Proper pattern)
      (blank : ∀ pattern is, w = some (pattern, is) → Blank pattern)
      (instanceOf : ∀ pattern is, w = some (pattern, is) →
        ∀ key t, Dict.get? is key = some t → Proper t)
      (alike : ∀ pattern is, w = some (pattern, is) →
        ∀ key t, Dict.get? is key = some t → Alike pattern t) :
      Proper (mk ls ns w v)

theorem proper_empty : Proper empty :=
  .mk Dict.sorted_nil nofun nofun nofun nofun nofun nofun

theorem blank_empty : Blank empty := by
  intro p
  rw [place_empty]
  exact ⟨rfl, nofun⟩

theorem Blank.branch {t : Trigger} (h : Blank t) (b : Branch) : Blank (t.branch b) :=
  fun p => h (b :: p)

/-- `Alike` is reflexive. -/
theorem Alike.refl (t : Trigger) : Alike t t := fun _ => rfl

/-- `Alike` tries have `Alike` branches. -/
theorem Alike.branch {t u : Trigger} (h : Alike t u) (b : Branch) :
    Alike (t.branch b) (u.branch b) := fun p => h (b :: p)

theorem Proper.sorted_named {t : Trigger} (h : Proper t) : Dict.Sorted t.named := by
  cases h with
  | mk named => exact named

/-- The part of `Proper` that concerns one wildcard: its pattern is `Proper` and `Blank`, and its
    instances are `Proper`, `Alike` the pattern, and in order. -/
structure ProperInstances (pattern : Trigger) (is : Dict Trigger) : Prop where
  sorted : Dict.Sorted is
  proper : Proper pattern
  blank : Blank pattern
  each : ∀ key t, Dict.get? is key = some t → Proper t
  alike : ∀ key t, Dict.get? is key = some t → Alike pattern t

/-- The wildcard of a `Proper` trie has `ProperInstances`. -/
theorem Proper.instances {t pattern : Trigger} {is : Dict Trigger} (h : Proper t)
    (hw : t.wildcard = some (pattern, is)) : ProperInstances pattern is := by
  cases h with
  | mk _ _ sorted proper blank each alike =>
    exact ⟨sorted pattern is hw, proper pattern is hw, blank pattern is hw, each pattern is hw,
      alike pattern is hw⟩

/-- A trie is `Proper` if its named branches are and its wildcard, if any, has
    `ProperInstances`. -/
theorem proper_mk {ls : List Listener} {ns : Dict Trigger} {w : Option (Trigger × Dict Trigger)}
    {v : Sighting} (named : Dict.Sorted ns) (each : ∀ key t, Dict.get? ns key = some t → Proper t)
    (h : ∀ pattern is, w = some (pattern, is) → ProperInstances pattern is) :
    Proper (mk ls ns w v) :=
  .mk named each (fun p is hw => (h p is hw).sorted) (fun p is hw => (h p is hw).proper)
    (fun p is hw => (h p is hw).blank) (fun p is hw => (h p is hw).each)
    fun p is hw => (h p is hw).alike

/-- A wildcard with the empty pattern and no instances has `ProperInstances`. -/
theorem properInstances_empty : ProperInstances empty [] :=
  ⟨Dict.sorted_nil, proper_empty, blank_empty, nofun, nofun⟩

/-- `ProperInstances` is kept if pattern and instances are changed in a way that keeps them
    `Proper` and `Alike`. -/
theorem ProperInstances.map {pattern pattern' : Trigger} {is : Dict Trigger}
    (h : ProperInstances pattern is) (hp : Proper pattern') (hb : Blank pattern')
    {f : String → Trigger → Trigger}
    (each : ∀ key t, Dict.get? is key = some t → Proper (f key t))
    (alike : ∀ key t, Dict.get? is key = some t → Alike pattern' (f key t)) :
    ProperInstances pattern' (is.map fun p => (p.1, f p.1 p.2)) := by
  -- The keys are the same, and what stands under each of them comes from what stood there.
  refine ⟨?_, hp, hb, ?_, ?_⟩
  · rw [Dict.sorted_iff_keys, Dict.keys_mapEntries f]
    exact Dict.sorted_iff_keys.1 h.sorted
  · intro key t hk
    rw [Dict.get?_mapEntries f] at hk
    obtain ⟨u, hu, rfl⟩ := Option.map_eq_some_iff.1 hk
    exact each key u hu
  · intro key t hk
    rw [Dict.get?_mapEntries f] at hk
    obtain ⟨u, hu, rfl⟩ := Option.map_eq_some_iff.1 hk
    exact alike key u hu

/-- The branch of a wildcard by any key is `Alike` the pattern, whether or not the key has an
    instance. -/
theorem Proper.alike_branch {t pattern : Trigger} {is : Dict Trigger} (h : Proper t)
    (hw : t.wildcard = some (pattern, is)) (key : String) :
    Alike pattern (t.branch (.wild key)) := by
  rw [branch_wild, hw]
  dsimp only
  cases hk : Dict.get? is key with
  | none => exact .refl pattern
  | some u => exact (h.instances hw).alike key u hk

/-- Induction down the branches of a `Proper` trie.  Unlike the recursor it does not tell named
    branches from instances. -/
@[elab_as_elim]
theorem Proper.branchInduction {motive : Trigger → Prop} (empty : motive .empty)
    (down : ∀ t, Proper t → (∀ b, motive (t.branch b)) → motive t) {t : Trigger}
    (h : Proper t) : motive t := by
  induction h with
  | @mk ls ns w v named each instances pattern blank instanceOf alike ihe ihp ihi =>
    refine down _ (.mk named each instances pattern blank instanceOf alike) ?_
    intro b
    cases b with
    | named key =>
      rw [Trigger.branch]
      cases hk : Dict.get? ns key with
      | none => exact empty
      | some t => exact ihe key t hk
    | wild key =>
      rcases w with - | ⟨pat, is⟩
      · exact empty
      · -- A key without an instance leads to the pattern.
        rw [Trigger.branch]
        cases hk : Dict.get? is key with
        | none => exact ihp pat is rfl
        | some t => exact ihi pat is rfl key t hk

/-- Every branch of a `Proper` trie is `Proper`. -/
theorem Proper.branch {t : Trigger} (h : Proper t) (b : Branch) : Proper (t.branch b) := by
  have hempty : ∀ b, Proper (empty.branch b) := by
    intro b
    rw [branch_empty]
    exact proper_empty
  have hall : Proper t ∧ ∀ b, Proper (t.branch b) :=
    Proper.branchInduction ⟨proper_empty, hempty⟩ (fun t ht ih => ⟨ht, fun b => (ih b).1⟩) h
  exact hall.2 b

/-- A trie for which `isEmpty` holds has no listeners at any place. -/
theorem listeners_place_of_isEmpty {t : Trigger} (h : t.isEmpty = true) (p : Place) :
    (t.place p).listeners = [] := by
  obtain ⟨ls, ns, w, v⟩ := t
  rw [isEmpty, Bool.and_eq_true, Bool.and_eq_true, List.isEmpty_iff, List.isEmpty_iff,
    Option.isNone_iff_eq_none] at h
  obtain ⟨⟨rfl, rfl⟩, rfl⟩ := h
  cases p with
  | nil => rfl
  | cons b rest =>
    have hb : (Trigger.mk [] [] none v).branch b = empty := by cases b <;> rfl
    rw [place_cons, hb, place_empty]
    rfl

end Trigger

end Observatory
