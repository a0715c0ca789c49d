import Observatory.ArrayIndex
import Observatory.Proofs.Dict
import Observatory.Store.Node

/-!
# Positions read back

* `ArrayIndex.parse?_text`: the shortest spelling of a position reads back;
* `ArrayIndex.text_injective`: two positions are not spelled alike;
* `Node.get?_numbered`: the items of an array are found under the spellings of their
  positions, and under nothing else.
-/

namespace Observatory

namespace ArrayIndex

/-- `digit?` gives the distance of a digit from `'0'`. -/
theorem digit?_of_isDigit {c : Char} (h : c.isDigit = true) : digit? c = some (c.toNat - 48) := by
  rw [Char.isDigit, Bool.and_eq_true, decide_eq_true_eq, decide_eq_true_eq] at h
  exact if_pos h

/-- On digits `parseDigits?` computes `Nat.ofDigitChars`, from the number `n` read so far. -/
theorem parseDigits?_eq {cs : List Char} (h : ∀ c ∈ cs, c.isDigit = true) (n : Nat) :
    parseDigits? n cs = some (Nat.ofDigitChars 10 cs n) := by
  induction cs generalizing n with
  | nil => simp [parseDigits?]
  | cons c rest ih =>
    rw [parseDigits?, digit?_of_isDigit (h c List.mem_cons_self)]
    show parseDigits? (n * 10 + (c.toNat - 48)) rest = _
    rw [ih fun d hd => h d (List.mem_cons_of_mem _ hd), Nat.ofDigitChars_cons, Nat.mul_comm n 10]
    rfl

/-- `parse?` reads back the position from its shortest spelling `text n`, for all positions below
    the limit. -/
theorem parse?_text {n : Nat} (h : n < limit) : parse? (text n) = some n := by
  have hdigits : ∀ c ∈ Nat.toDigits 10 n, c.isDigit = true := by
    intro c hc
    exact Nat.isDigit_of_mem_toDigits (by decide) (by decide) hc
  have hunsigned : parseUnsigned? (Nat.toDigits 10 n) = some n := by
    cases hcs : Nat.toDigits 10 n with
    | nil => exact absurd hcs Nat.toDigits_ne_nil
    | cons c cs =>
      rw [parseUnsigned?, ← hcs, parseDigits?_eq hdigits, Nat.ofDigitChars_ten_toDigits]
      · exact if_pos h
      · exact fun e => List.cons_ne_nil _ _ e
  have htext : (text n).toList = Nat.toDigits 10 n := Nat.toList_repr
  rw [parse?, htext]
  split
  · next rest hcs =>
    -- A sign is no digit.
    have := hdigits '+' (hcs ▸ List.mem_cons_self)
    exact absurd this (by decide)
  · exact hunsigned

/-- Different positions have different spellings `text i`. -/
theorem text_injective {i j : Nat} (h : text i = text j) : i = j := by
  have htext : Nat.toDigits 10 i = Nat.toDigits 10 j := by
    rw [← Nat.toList_repr, ← Nat.toList_repr]
    exact congrArg String.toList h
  rw [← Nat.ofDigitChars_ten_toDigits (n := i), htext, Nat.ofDigitChars_ten_toDigits]

/-- `parse?` gives only positions below the limit, whatever it is given to read. -/
theorem lt_limit_of_parse? {key : String} {i : Nat} (h : parse? key = some i) : i < limit := by
  have hunsigned : ∀ cs : List Char, parseUnsigned? cs = some i → i < limit := by
    intro cs hcs
    cases cs with
    | nil => simp [parseUnsigned?] at hcs
    | cons c cs =>
      -- What is read from the digits counts only if it is below the limit.
      rw [parseUnsigned?] at hcs
      · split at hcs
        · split at hcs
          · next hlt =>
            cases hcs
            exact hlt
          · simp at hcs
        · simp at hcs
      · exact fun e => List.cons_ne_nil _ _ e
  unfold parse? at h
  split at h
  · exact hunsigned _ h
  · exact hunsigned _ h

end ArrayIndex

namespace Node

variable {α : Type}

/-- The keys of `numbered i xs` are the spellings of the positions from `i` on, one for every
    item. -/
theorem mem_keys_numbered {i : Nat} {xs : List α} {key : String} :
    key ∈ Dict.keys (numbered i xs) ↔ ∃ j, j < xs.length ∧ key = ArrayIndex.text (i + j) := by
  induction xs generalizing i with
  | nil => simp [numbered, Dict.keys]
  | cons x rest ih =>
    rw [numbered, Dict.keys, List.map_cons, List.mem_cons]
    show key = _ ∨ key ∈ Dict.keys (numbered (i + 1) rest) ↔ _
    rw [ih]
    -- Positions are counted from `i` on, so those of the rest are shifted by one.
    have hshift : ∀ j, i + (j + 1) = i + 1 + j := by
      intro j
      omega
    constructor
    · rintro (rfl | ⟨j, hj, rfl⟩)
      · exact ⟨0, by simp, rfl⟩
      · exact ⟨j + 1, by simpa using hj, by rw [hshift j]⟩
    · rintro ⟨j, hj, rfl⟩
      cases j with
      | zero => exact Or.inl rfl
      | succ j => exact Or.inr ⟨j, by simpa using hj, by rw [hshift j]⟩

/-- No key comes twice in `numbered i xs`. -/
theorem nodup_keys_numbered (i : Nat) (xs : List α) : (Dict.keys (numbered i xs)).Nodup := by
  induction xs generalizing i with
  | nil => exact List.nodup_nil
  | cons x rest ih =>
    rw [numbered, Dict.keys, List.map_cons, List.nodup_cons]
    constructor
    · intro h
      obtain ⟨j, -, hj⟩ := mem_keys_numbered.1 h
      have hij : i = i + 1 + j := ArrayIndex.text_injective hj
      omega
    · exact ih (i + 1)

/-- Under the spelling of position `i + j` there is the item with number `j`, if the numbering
    starts at `i`. -/
theorem get?_numbered_text (i j : Nat) (xs : List α) :
    Dict.get? (numbered i xs) (ArrayIndex.text (i + j)) = xs[j]? := by
  induction xs generalizing i j with
  | nil => rfl
  | cons x rest ih =>
    rw [numbered, Dict.get?_cons]
    cases j with
    | zero =>
      rw [Nat.add_zero, if_pos rfl]
      rfl
    | succ j =>
      -- The key of the first item is not looked up, since spellings are different.
      have hne : ArrayIndex.text i ≠ ArrayIndex.text (i + (j + 1)) := by
        intro h
        have hij : i = i + (j + 1) := ArrayIndex.text_injective h
        omega
      have hshift : i + (j + 1) = i + 1 + j := by omega
      rw [if_neg hne, List.getElem?_cons_succ, ← ih (i + 1) j, hshift]

/-- `get?_numbered_text` for a numbering that starts at `0`. -/
theorem get?_numbered (xs : List α) (j : Nat) :
    Dict.get? (numbered 0 xs) (ArrayIndex.text j) = xs[j]? := by
  rw [← get?_numbered_text 0 j xs, Nat.zero_add]

/-- The entries of `numbered 0 xs` are the items of `xs`, each with the spelling of its
    position. -/
theorem mem_numbered {xs : List α} {key : String} {x : α} :
    (key, x) ∈ numbered 0 xs ↔ ∃ j, key = ArrayIndex.text j ∧ xs[j]? = some x := by
  rw [← Dict.get?_eq_some_iff (nodup_keys_numbered 0 xs)]
  constructor
  · intro h
    have hkey : key ∈ Dict.keys (numbered 0 xs) := by
      rw [← Dict.isSome_get?_iff, h]
      rfl
    obtain ⟨j, -, rfl⟩ := mem_keys_numbered.1 hkey
    rw [get?_numbered_text, Nat.zero_add] at *
    exact ⟨j, rfl, h⟩
  · rintro ⟨j, rfl, h⟩
    rw [get?_numbered, h]

end Node

end Observatory
