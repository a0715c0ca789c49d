import Observatory.Proofs.Store.Edit

/-!
# What became of a tree since a serial was drawn

A reader who looked at a tree when the clock stood at `seen` finds, on a later look, every
place in one of three states: the node there is the one it saw, or it is stamped later than
`seen`, or it is the same object or array with changes beneath.

* `Node.Since`: the three states, for the place and for every place below it;
* `Node.Edit.since`: one change at a later serial leads there;
* `Node.Since.trans`: and so do several.
-/

namespace Observatory

namespace Node

/-- `Since seen old new`: every change that put `new` where `old` stood, if anything did, was made
    later than `seen`.  Either nothing changed, or `new` itself is stamped later, or it is the same
    object or array with changes beneath, which its child serial shows. -/
inductive Since (seen : Nat) : Option Node → Node → Prop
  | same (n : Node) : Since seen (some n) n
  | renewed {old : Option Node} {new : Node} (h : seen < new.serial) : Since seen old new
  | object {s s' : Stamp} {children next : Dict Node} (hs : s'.serial = s.serial)
      (hc : seen < s'.childSerial)
      (h : ∀ key n, Dict.get? next key = some n → Since seen (Dict.get? children key) n) :
      Since seen (some (.object s children)) (.object s' next)
  | array {s s' : Stamp} {items next : List Node} (hs : s'.serial = s.serial)
      (hc : seen < s'.childSerial)
      (h : ∀ (i : Nat) (n : Node), next[i]? = some n → Since seen items[i]? n) :
      Since seen (some (.array s items)) (.array s' next)

/-- A single change at a serial later than `seen` leads to `Since seen`. -/
theorem Edit.since {serial seen : Nat} (hlt : seen < serial) {old : Option Node} {new : Node}
    (h : Edit serial old new) : Since seen old new := by
  have hmax : ∀ c, seen < max c serial := by
    intro c
    omega
  induction h with
  | kept n => exact .same n
  | built hv => exact .renewed (by rwa [serial_build])
  | scalar s a b => exact .renewed hlt
  | renewed n => exact .renewed (by rwa [serial_renew])
  | taken s items i => exact .renewed hlt
  | object hs h ih => exact .object rfl (hmax _) ih
  | array hl h ih => exact .array rfl (hmax _) ih

/-- A node that stands where nothing stood has a serial later than `seen`. -/
theorem Since.lt_of_none {seen : Nat} {new : Node} (h : Since seen none new) :
    seen < new.serial := by
  cases h with
  | renewed h => exact h

/-- `Since seen` is transitive, so any number of changes lead there as one does. -/
theorem Since.trans {seen : Nat} {old : Option Node} {mid new : Node}
    (h₁ : Since seen old mid) (h₂ : Since seen (some mid) new) : Since seen old new := by
  -- The induction is on the later change: the earlier one only has to be taken apart.
  generalize hm : some mid = o at h₂
  induction h₂ generalizing old mid with
  | same n =>
    cases hm
    exact h₁
  | renewed h => exact .renewed h
  | @object s s' children next hs hc h ih =>
    cases hm
    cases h₁ with
    | same => exact .object hs hc h
    | renewed hlt => exact .renewed (Nat.lt_of_lt_of_eq hlt hs.symm)
    | object hs₁ hc₁ h' =>
      refine .object (hs.trans hs₁) hc ?_
      intro key n hn
      cases hk : Dict.get? children key with
      -- A child that was not there in the middle has come with the later change.
      | none => exact .renewed (hk ▸ h key n hn).lt_of_none
      | some m => exact ih key n hn (h' key m hk) hk.symm
  | @array s s' items next hs hc h ih =>
    cases hm
    cases h₁ with
    | same => exact .array hs hc h
    | renewed hlt => exact .renewed (Nat.lt_of_lt_of_eq hlt hs.symm)
    | array hs₁ hc₁ h' =>
      refine .array (hs.trans hs₁) hc ?_
      intro i n hn
      cases hi : items[i]? with
      | none => exact .renewed (hi ▸ h i n hn).lt_of_none
      | some m => exact ih i n hn (h' i m hi) hi.symm

end Node

end Observatory
