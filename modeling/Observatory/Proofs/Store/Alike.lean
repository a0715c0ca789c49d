import Observatory.Proofs.Store.Change
import Observatory.Proofs.Store.View

/-!
# Trees that a reader cannot tell apart

Two stores with clocks of their own hold two trees.  A reader with a whitelist looked at the
one when its clock stood at `a` and at the other when its clock stood at `b`.  What it can be
told of them afterwards depends on the parts that pass, and for each of these on its value and
on whether it was renewed since that look.  The serials themselves, and everything that the
whitelist keeps back, do not show.

* `Node.Alike`: two places that agree in this sense; it is an equivalence
  (`Node.Alike.refl`, `Node.Alike.symm`, `Node.Alike.trans`);
* `Node.Alike.rebase`: two places that are alike stay so when the reader looks at both;
* `Node.Alike.put`, `Node.Alike.apply`: the same change, made later than the looks, keeps two
  places or two trees alike.
-/

namespace Observatory

namespace Node

/-- `Alike a b w o p`: what stands at two places looks the same under the whitelist `w`, and each
    part that passes was renewed since `a` at the one place exactly if it was renewed since `b` at
    the other. -/
inductive Alike (a b : Nat) : Whitelist → Option Node → Option Node → Prop
  | nowhere {w : Whitelist} : Alike a b w none none
  | scalar {w : Whitelist} {s t : Stamp} {v : Scalar} (hf : a < s.serial ↔ b < t.serial) :
      Alike a b w (some (.scalar s v)) (some (.scalar t v))
  | object {w : Whitelist} {s t : Stamp} {cs ds : Dict Node} (hf : a < s.serial ↔ b < t.serial)
      (h : ∀ key rule, w.child? key = some rule →
        Alike a b rule (Dict.get? cs key) (Dict.get? ds key)) :
      Alike a b w (some (.object s cs)) (some (.object t ds))
  | array {w : Whitelist} {s t : Stamp} {xs ys : List Node} (hf : a < s.serial ↔ b < t.serial)
      (h : ∀ i : Nat, Alike a b w xs[i]? ys[i]?) :
      Alike a b w (some (.array s xs)) (some (.array t ys))

section Alike

variable {a b c : Nat} {w : Whitelist} {o p q : Option Node}

/-! ### An equivalence -/

/-- `Alike` is reflexive, for looks at the same time. -/
theorem Alike.refl (a : Nat) (w : Whitelist) (o : Option Node) : Alike a a w o o := by
  cases o with
  | none => exact .nowhere
  | some n =>
    -- Along the tree, for all whitelists at once.
    induction n using Node.partsInduction generalizing w with
    | scalar s v => exact .scalar Iff.rfl
    | object s children ih =>
      refine .object Iff.rfl fun key rule _ => ?_
      cases hk : Dict.get? children key with
      | none => exact .nowhere
      | some child => exact ih (key, child) (Dict.mem_of_get? hk) rule
    | array s items ih =>
      refine .array Iff.rfl fun i => ?_
      cases hi : items[i]? with
      | none => exact .nowhere
      | some item => exact ih item (List.mem_of_getElem? hi) w

/-- `Alike` is symmetric. -/
theorem Alike.symm (h : Alike a b w o p) : Alike b a w p o := by
  induction h with
  | nowhere => exact .nowhere
  | scalar hf => exact .scalar hf.symm
  | object hf _ ih => exact .object hf.symm ih
  | array hf _ ih => exact .array hf.symm ih

/-- `Alike` is transitive. -/
theorem Alike.trans (h : Alike a b w o p) (h' : Alike b c w p q) : Alike a c w o q := by
  induction h generalizing q with
  | nowhere => cases h' with
    | nowhere => exact .nowhere
  | scalar hf => cases h' with
    | scalar hf' => exact .scalar (hf.trans hf')
  | object hf _ ih => cases h' with
    | object hf' hc =>
      exact .object (hf.trans hf') fun key rule hr => ih key rule hr (hc key rule hr)
  | array hf _ ih => cases h' with
    | array hf' hc => exact .array (hf.trans hf') fun i => ih i (hc i)

/-- If neither place has a stamp later than the looks at `a'` and `b'`, then places that are alike
    for other looks are alike for these, since no part was renewed since. -/
theorem Alike.rebase (h : Alike a b w o p) {a' b' : Nat}
    (ho : ∀ n, o = some n → n.RegularTo a') (hp : ∀ n, p = some n → n.RegularTo b') :
    Alike a' b' w o p := by
  -- Nothing in the one tree was renewed since `a'`, nothing in the other since `b'`.
  have hf : ∀ m n : Node, m.RegularTo a' → n.RegularTo b' →
      (a' < m.serial ↔ b' < n.serial) := by
    intro m n hm hn
    have hma := hm.serial_le
    have hnb := hn.serial_le
    omega
  induction h with
  | nowhere => exact .nowhere
  | scalar _ => exact .scalar (hf _ _ (ho _ rfl) (hp _ rfl))
  | @object w s t cs ds _ _ ih =>
    have hm := ho _ rfl
    have hn := hp _ rfl
    exact .object (hf _ _ hm hn) fun key rule hr => ih key rule hr (hm.child.2 key) (hn.child.2 key)
  | @array w s t xs ys _ _ ih =>
    have hm := ho _ rfl
    have hn := hp _ rfl
    exact .array (hf _ _ hm hn) fun i => ih i (hm.item.2 i) (hn.item.2 i)

/-- Of two places that are alike both have a node, or neither has. -/
theorem Alike.isSome_eq (h : Alike a b w o p) : o.isSome = p.isSome := by
  cases h <;> rfl

/-- If `f` and `g` keep nodes alike, then mapping them keeps places alike. -/
theorem Alike.map (h : Alike a b w o p) {f g : Node → Node}
    (hfg : ∀ m n, Alike a b w (some m) (some n) → Alike a b w (some (f m)) (some (g n))) :
    Alike a b w (o.map f) (p.map g) := by
  cases o with
  | none => cases h with
    | nowhere => exact .nowhere
  | some m => cases p with
    | none => cases h
    | some n => exact hfg m n h

/-- Two places that are alike make lists of at most one item with alike items. -/
theorem Alike.toList (h : Alike a b w o p) (i : Nat) :
    Alike a b w o.toList[i]? p.toList[i]? := by
  cases o with
  | none => cases h with
    | nowhere => exact .nowhere
  | some m => cases p with
    | none => cases h
    | some n => cases i with
      | zero => exact h
      | succ i => exact .nowhere

/-- Arrays with alike items at every position have the same length. -/
theorem length_eq_of_alike {xs ys : List Node} (h : ∀ i : Nat, Alike a b w xs[i]? ys[i]?) :
    xs.length = ys.length := by
  have hiff : ∀ i, i < xs.length ↔ i < ys.length := by
    intro i
    have hsome := (h i).isSome_eq
    rw [← Nat.not_le, ← Nat.not_le, ← List.getElem?_eq_none_iff, ← List.getElem?_eq_none_iff,
      ← Option.not_isSome_iff_eq_none, ← Option.not_isSome_iff_eq_none, hsome]
  have h₁ := hiff xs.length
  have h₂ := hiff ys.length
  omega

/-! ### The same change at both places -/

variable {t u : Nat} (ha : a < t) (hb : b < u)
include ha hb

/-- A value that is built at both places, later than the looks, makes them alike whatever was
    there. -/
theorem alike_build (w : Whitelist) (v : Json) :
    Alike a b w (some (build t v)) (some (build u v)) := by
  have hf : a < (Stamp.fresh t).serial ↔ b < (Stamp.fresh u).serial := iff_of_true ha hb
  -- All nodes are stamped later than the looks, so they are alike as soon as their values are.
  induction v using Json.partsInduction generalizing w with
  | scalar x => exact .scalar hf
  | obj fields ih =>
    rw [build, build, buildFields_eq, buildFields_eq]
    refine .object hf fun key rule _ => ?_
    rw [Dict.get?_mapValues, Dict.get?_mapValues]
    cases hk : Dict.get? fields key with
    | none => exact .nowhere
    | some v => exact ih (key, v) (Dict.mem_of_get? hk) rule
  | arr items ih =>
    rw [build, build, buildItems_eq, buildItems_eq]
    refine .array hf fun i => ?_
    rw [List.getElem?_map, List.getElem?_map]
    cases hi : items[i]? with
    | none => exact .nowhere
    | some v => exact ih v (List.mem_of_getElem? hi) w

/-- Giving the same value to both places, later than the looks, keeps them alike. -/
theorem Alike.given (h : Alike a b w o p) (v : Json) :
    Alike a b w (some (given t o v)) (some (given u p v)) := by
  induction v using Json.partsInduction generalizing w o p with
  | scalar x =>
    cases h with
    | nowhere => exact alike_build ha hb w _
    | object hf h => exact alike_build ha hb w _
    | array hf h => exact alike_build ha hb w _
    | @scalar _ s s' y hf =>
      rw [Node.given, Node.given, assign, assign]
      -- The two scalars are the same, so both are kept or both are renewed.
      cases y.same x with
      | true => exact .scalar hf
      | false => exact .scalar (iff_of_true ha hb)
  | obj fields ih =>
    cases h with
    | nowhere => exact alike_build ha hb w _
    | scalar hf => exact alike_build ha hb w _
    | array hf h => exact alike_build ha hb w _
    | @object _ s s' cs ds hf h =>
      obtain ⟨s₁, cs', h₁, hs₁, hget₁⟩ := given_object t s cs fields
      obtain ⟨s₂, ds', h₂, hs₂, hget₂⟩ := given_object u s' ds fields
      rw [h₁, h₂]
      refine .object (by rwa [hs₁, hs₂]) fun key rule hr => ?_
      rw [hget₁, hget₂]
      cases hk : Dict.get? fields key with
      | none => exact .nowhere
      | some v => exact ih (key, v) (Dict.mem_of_get? hk) (h key rule hr)
  | arr values ih =>
    cases h with
    | nowhere => exact alike_build ha hb w _
    | scalar hf => exact alike_build ha hb w _
    | object hf h => exact alike_build ha hb w _
    -- Each item is given its own value, and items behind the end are gone at both places.
    | @array _ s s' xs ys hf h =>
      obtain ⟨s₁, xs', h₁, hs₁, hget₁⟩ := given_array t s xs values
      obtain ⟨s₂, ys', h₂, hs₂, hget₂⟩ := given_array u s' ys values
      rw [h₁, h₂]
      refine .array (by rwa [hs₁, hs₂]) fun i => ?_
      rw [hget₁, hget₂]
      cases hi : values[i]? with
      | none => exact .nowhere
      | some v => exact ih v (List.mem_of_getElem? hi) (h i)

/-- Renewing both nodes later than the looks keeps them alike. -/
theorem Alike.renew {m n : Node} (h : Alike a b w (some m) (some n)) :
    Alike a b w (some (m.renew t)) (some (n.renew u)) := by
  cases h with
  | scalar hf => exact .scalar (iff_of_true ha hb)
  | object hf h => exact .object (iff_of_true ha hb) h
  | array hf h => exact .array (iff_of_true ha hb) h

/-- A change at two places where nothing stands makes them alike. -/
theorem alike_put_none (c : Change) (path : List String) (w : Whitelist) :
    Alike a b w (c.put t path none) (c.put u path none) := by
  cases c with
  | set v => exact alike_build ha hb w _
  | remove => exact .nowhere
  | touch => exact .nowhere

/-- If a change keeps alike items alike and takes none away, then the arrays have alike items after
    it. -/
theorem alike_items {c : Change} {key : String} {rest : List String} {xs ys : List Node}
    (h : ∀ i : Nat, Alike a b w xs[i]? ys[i]?)
    (hput : ∀ m n, Alike a b w (some m) (some n) →
      Alike a b w (some (c.apply t rest m)) (some (c.apply u rest n))) (i : Nat) :
    Alike a b w (c.items t key rest xs)[i]? (c.items u key rest ys)[i]? := by
  have hl := length_eq_of_alike h
  rw [Change.items, Change.items, hl]
  cases ArrayIndex.parse? key with
  | none => exact h i
  | some j =>
    dsimp only
    split
    · -- An item that is there is changed in its place.
      rw [List.getElem?_modify, List.getElem?_modify]
      refine (h i).map fun m n hmn => ?_
      split
      · exact hput m n hmn
      · exact hmn
    · split
      · -- Behind the old items there is what the change puts there.
        rw [List.getElem?_append, List.getElem?_append, hl]
        split
        · exact h i
        · exact (alike_put_none ha hb c rest w).toList _
      · exact h i

/-- If the item at the same position is taken away in two arrays with alike items, then the arrays
    are alike: both are renewed. -/
theorem alike_remove_item {s s' : Stamp} {xs ys : List Node} (hf : a < s.serial ↔ b < s'.serial)
    (h : ∀ i : Nat, Alike a b w xs[i]? ys[i]?) (key : String) :
    Alike a b w (some (Change.remove.apply t [key] (array s xs)))
      (some (Change.remove.apply u [key] (array s' ys))) := by
  rw [Change.apply_remove_item, Change.apply_remove_item, length_eq_of_alike h]
  cases (ArrayIndex.parse? key).filter (· < ys.length) with
  | none => exact .array hf h
  | some i =>
    refine .array (iff_of_true ha hb) fun j => ?_
    rw [List.getElem?_eraseIdx, List.getElem?_eraseIdx]
    split
    · exact h j
    · exact h (j + 1)

/-- The same change of two places themselves, later than the looks, keeps them alike. -/
theorem Alike.put_nil (h : Alike a b w o p) (c : Change) :
    Alike a b w (c.put t [] o) (c.put u [] p) := by
  cases o with
  | none => cases h with
    | nowhere => exact alike_put_none ha hb c [] w
  | some m => cases p with
    | none => cases h
    | some n =>
      cases c with
      | set v => simpa [Change.put, Change.takesAway] using h.given ha hb v
      | remove => exact .nowhere
      | touch => exact h.renew ha hb

/-- The same change along the same path, made at both places later than the looks, keeps them
    alike. -/
theorem Alike.put (h : Alike a b w o p) (c : Change) (path : List String) :
    Alike a b w (c.put t path o) (c.put u path p) := by
  induction path generalizing w o p with
  | nil => exact h.put_nil ha hb c
  | cons key rest ih =>
    have hstay : c.takesAway (key :: rest) = false := by cases c <;> rfl
    cases h with
    | nowhere => exact alike_put_none ha hb c (key :: rest) w
    | @scalar _ s s' v hf =>
      rw [c.put_some hstay, c.put_some hstay, Change.apply_scalar, Change.apply_scalar]
      have hnew := alike_put_none ha hb c (key :: rest) w
      cases c with
      | set v => exact hnew
      | remove => exact .scalar hf
      | touch => exact .scalar hf
    | @object _ s s' cs ds hf h =>
      rw [c.put_some hstay, c.put_some hstay]
      obtain ⟨s₁, cs', h₁, hs₁, hget₁⟩ := c.apply_object t key rest s cs
      obtain ⟨s₂, ds', h₂, hs₂, hget₂⟩ := c.apply_object u key rest s' ds
      rw [h₁, h₂]
      refine .object (by rwa [hs₁, hs₂]) fun k rule hr => ?_
      rw [hget₁, hget₂]
      split
      · next hk => exact ih (hk ▸ h k rule hr)
      · exact h k rule hr
    -- To take away an item moves those behind it, so this is not a change of one item.
    | @array _ s s' xs ys hf h =>
      rw [c.put_some hstay, c.put_some hstay]
      cases ht : c.takesAway rest with
      | false =>
        obtain ⟨s₁, hs₁, h₁⟩ := Change.apply_array t key ht s xs
        obtain ⟨s₂, hs₂, h₂⟩ := Change.apply_array u key ht s' ys
        rw [h₁, h₂]
        refine .array (by rwa [hs₁, hs₂]) (alike_items ha hb h fun m n hmn => ?_)
        have hput := ih hmn
        rwa [c.put_some ht, c.put_some ht] at hput
      | true =>
        obtain ⟨rfl, rfl⟩ := Change.eq_remove_of_takesAway ht
        exact alike_remove_item ha hb hf h key

/-- The same change, made to two trees later than the looks, keeps them alike. -/
theorem Alike.apply {m n : Node} (h : Alike a b w (some m) (some n)) (c : Change)
    (path : List String) : Alike a b w (some (c.apply t path m)) (some (c.apply u path n)) := by
  cases ht : c.takesAway path with
  | false =>
    have hput := h.put ha hb c path
    rwa [c.put_some ht, c.put_some ht] at hput
  | true =>
    -- A tree does not go away as a whole.
    obtain ⟨rfl, rfl⟩ := Change.eq_remove_of_takesAway ht
    exact h

end Alike

end Node

end Observatory
