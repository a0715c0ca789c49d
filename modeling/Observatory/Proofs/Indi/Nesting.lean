import Observatory.Proofs.Indi.Stream

/-!
# How deep a stream goes

The elements of a well-formed stream nest: from the message level on, what is closed was opened at
that level or beneath it.  So the bytes from any point on tell how many elements are open there,
whatever a framer made of those before.

* `Tag.Nests`: how deep some bytes begin, if they end at a level and never go above it;
* `Tag.Nests.unique`: there is only one such depth;
* `XmlStream.nests_bytes`: a stream begins at depth zero;
* `XmlStream.Begins`, `XmlStream.Begins.nests`: its messages begin at the message level.
-/

namespace Observatory

namespace Tag

/-! ### Depths -/

/-- `Nests level depth bytes`: read from depth `depth` on, `bytes` close nothing that was open at
    `level`, and end at `level` again.  One constructor for each kind of markup that may come
    first. -/
inductive Nests (level : Nat) : Nat → List UInt8 → Prop
  | nothing {bytes : List UInt8} (none_left : next? bytes = none) : Nests level level bytes
  | passes {depth : Nat} {bytes : List UInt8} {t : Tag} (first : next? bytes = some t)
    (kind : t.kind = .skip ∨ t.kind = .selfClosing) (rest : Nests level depth t.rest) :
    Nests level depth bytes
  | opens {depth : Nat} {bytes : List UInt8} {t : Tag} (first : next? bytes = some t)
    (kind : t.kind = .openTag) (rest : Nests level (depth + 1) t.rest) : Nests level depth bytes
  | closes {depth : Nat} {bytes : List UInt8} {t : Tag} (first : next? bytes = some t)
    (kind : t.kind = .closeTag) (rest : Nests level depth t.rest) (inside : level ≤ depth) :
    Nests level (depth + 1) bytes

variable {level depth depth' : Nat} {bytes : List UInt8} {t : Tag}

/-- Inversion of `Nests` at markup that opens and closes nothing. -/
theorem Nests.passed (h : Nests level depth bytes) (ht : next? bytes = some t)
    (hk : t.kind = .skip ∨ t.kind = .selfClosing) : Nests level depth t.rest := by
  cases h with
  | nothing first =>
    rw [first] at ht
    cases ht
  | passes first _ rest =>
    rw [first] at ht
    cases ht
    exact rest
  | opens first kind | closes first kind =>
    rw [first] at ht
    cases ht
    simp [kind] at hk

/-- Inversion of `Nests` at an opening tag: the rest begins one deeper. -/
theorem Nests.opened (h : Nests level depth bytes) (ht : next? bytes = some t)
    (hk : t.kind = .openTag) : Nests level (depth + 1) t.rest := by
  cases h with
  | nothing first =>
    rw [first] at ht
    cases ht
  | opens first _ rest =>
    rw [first] at ht
    cases ht
    exact rest
  | passes first kind | closes first kind =>
    rw [first] at ht
    cases ht
    simp [hk] at kind

/-- Inversion of `Nests` at a closing tag: it closes an element beneath the level, and the rest
    begins one less deep. -/
theorem Nests.closed (h : Nests level depth bytes) (ht : next? bytes = some t)
    (hk : t.kind = .closeTag) : level < depth ∧ Nests level (depth - 1) t.rest := by
  cases h with
  | nothing first =>
    rw [first] at ht
    cases ht
  | closes first _ rest inside =>
    rw [first] at ht
    cases ht
    exact ⟨Nat.lt_succ_of_le inside, rest⟩
  | passes first kind | opens first kind =>
    rw [first] at ht
    cases ht
    simp [hk] at kind

/-- **The bytes tell how deep they begin.** They nest from at most one depth, by induction on the
    derivation, with the inversions above for the other one. -/
theorem Nests.unique (h : Nests level depth bytes) (h' : Nests level depth' bytes) :
    depth = depth' := by
  induction h generalizing depth' with
  | nothing none_left =>
    cases h' with
    | nothing => rfl
    | passes first | opens first | closes first =>
      rw [none_left] at first
      cases first
  | passes first kind _ ih => exact ih (h'.passed first kind)
  | opens first kind _ ih => exact Nat.succ.inj (ih (h'.opened first kind))
  | closes first kind _ inside ih =>
    obtain ⟨hlt, hrest⟩ := h'.closed first kind
    have hsame := ih hrest
    omega

/-- `Nests` depends on the kind of the first markup and on the bytes behind it, and not on the
    markup itself. -/
theorem Nests.congr {bytes' : List UInt8} (h : Nests level depth bytes)
    (same : (next? bytes').map (fun t => (t.kind, t.rest)) =
      (next? bytes).map fun t => (t.kind, t.rest)) : Nests level depth bytes' := by
  -- Both have markup at the same time, of one kind and with one rest.
  have hfirst : ∀ t, next? bytes = some t → ∃ t', next? bytes' = some t' ∧ t'.kind = t.kind ∧
      t'.rest = t.rest := by
    intro t ht
    rw [ht, Option.map_some] at same
    obtain ⟨t', ht', he⟩ := Option.map_eq_some_iff.1 same
    exact ⟨t', ht', (Prod.mk.inj he).1, (Prod.mk.inj he).2⟩
  cases h with
  | nothing none_left =>
    rw [none_left] at same
    exact .nothing (Option.map_eq_none_iff.1 same)
  | passes first kind rest =>
    obtain ⟨t', ht', hk, hr⟩ := hfirst _ first
    exact .passes ht' (hk ▸ kind) (hr ▸ rest)
  | opens first kind rest =>
    obtain ⟨t', ht', hk, hr⟩ := hfirst _ first
    exact .opens ht' (hk.trans kind) (hr ▸ rest)
  | closes first kind rest inside =>
    obtain ⟨t', ht', hk, hr⟩ := hfirst _ first
    exact .closes ht' (hk.trans kind) (hr ▸ rest) inside

/-- Text in front of `bytes` does not change from which depth they nest. -/
theorem nests_text {text : List UInt8} (ht : opener ∉ text) :
    Nests level depth (text ++ bytes) ↔ Nests level depth bytes := by
  have hsame : (next? (text ++ bytes)).map (fun t => (t.kind, t.rest)) =
      (next? bytes).map fun t => (t.kind, t.rest) := by
    rw [next?_text ht, Option.map_map]
    rfl
  exact ⟨fun h => h.congr hsame.symm, fun h => h.congr hsame⟩

/-- The gap in front of the next markup holds no opener, since it ends at the first one. -/
theorem opener_not_mem_gap (ht : next? bytes = some t) : opener ∉ t.gap := by
  obtain ⟨p, -, rfl⟩ := Option.map_eq_some_iff.1 ht
  exact opener_not_mem_takeWhile bytes

/-- If `bytes` nest from a depth, so does what is left of them without the gap in front of the
    first markup. -/
theorem Nests.body (h : Nests level depth bytes) (ht : next? bytes = some t) :
    Nests level depth (t.body ++ t.rest) := by
  rw [← append_of_next? ht] at h
  exact (nests_text (opener_not_mem_gap ht)).1 h

end Tag

/-! ### Streams -/

namespace XmlStream

open Tag (Nests)

variable {level depth : Nat} {rest : List UInt8}

/-- Fillers between tags, which are text and skipped markup, do not change the depth. -/
theorem nests_fill (fillers : List Filler) (h : Nests level depth rest) :
    Nests level depth (fill fillers ++ rest) := by
  induction fillers with
  | nil => exact h
  | cons filler fillers ih =>
    rw [fill, List.flatMap_cons, List.append_assoc]
    cases filler with
    | text run => exact (Tag.nests_text run.plain).2 ih
    | skipped markup => exact .passes (Tag.next?_skipped markup _) (.inl rfl) ih

mutual

/-- A whole element leaves the depth as it was, so that in front of `rest` it nests where `rest`
    does. -/
theorem nests_element (e : Element) {depth : Nat} {rest : List UInt8} (hd : level ≤ depth)
    (h : Nests level depth rest) : Nests level depth (e.bytes ++ rest) := by
  match e with
  | .empty tag =>
    rw [Element.bytes]
    exact .passes (Tag.next?_closed tag rest) (.inr rfl) h
  | .full tag inside after =>
    have hclosing : Nests level (depth + 1) (tag.closing after ++ rest) :=
      .closes (Tag.next?_closing tag after rest) rfl h hd
    have hinside := nests_content inside (Nat.le_succ_of_le hd) hclosing
    rw [Element.bytes, List.append_assoc, List.append_assoc]
    exact .opens (Tag.next?_opening tag _) rfl hinside

/-- The content of an element leaves the depth as it was; proved together with `nests_element`
    along the syntax. -/
theorem nests_content (c : Content) {depth : Nat} {rest : List UInt8} (hd : level ≤ depth)
    (h : Nests level depth rest) : Nests level depth (c.bytes ++ rest) := by
  match c with
  | .nothing =>
    rw [Content.bytes]
    exact h
  | .filler filler more =>
    have hmore := nests_fill [filler] (nests_content more hd h)
    rw [fill, List.flatMap_singleton] at hmore
    rw [Content.bytes, List.append_assoc]
    exact hmore
  | .element e more =>
    rw [Content.bytes, List.append_assoc]
    exact nests_element e hd (nests_content more hd h)

end

/-- The messages of a stream begin and end at the message level. -/
theorem nests_messages (messages : List (List Filler × Element)) (h : Nests level level rest) :
    Nests level level (messageBytes messages ++ rest) := by
  induction messages with
  | nil => exact h
  | cons m messages ih =>
    rw [messageBytes, List.flatMap_cons, List.append_assoc, List.append_assoc]
    exact nests_fill m.1 (nests_element m.2 (Nat.le_refl level) ih)

/-- The opening tags of the enclosing elements lead down to the message level, one depth for
    each. -/
theorem nests_roots (roots : List (List Filler × TagText))
    (h : Nests level (depth + roots.length) rest) :
    Nests level depth (rootBytes roots ++ rest) := by
  induction roots generalizing depth with
  | nil => exact h
  | cons root roots ih =>
    have hsum : depth + (root :: roots).length = depth + 1 + roots.length := by
      rw [List.length_cons]
      omega
    rw [hsum] at h
    rw [rootBytes, List.flatMap_cons, List.append_assoc, List.append_assoc]
    exact nests_fill root.1 (.opens (Tag.next?_opening root.2 _) rfl (ih h))

/-- The remaining messages and what stands behind the last one nest from the message level. -/
theorem nests_tail (s : XmlStream) (messages : List (List Filler × Element)) :
    Nests level level (messageBytes messages ++ fill s.tail) := by
  have htail := nests_fill s.tail (.nothing rfl : Nests level level [])
  rw [List.append_nil] at htail
  exact nests_messages messages htail

/-- A well-formed stream nests from depth zero. -/
theorem nests_bytes (s : XmlStream) : Nests s.roots.length 0 s.bytes := by
  refine nests_roots s.roots ?_
  rw [Nat.zero_add]
  exact s.nests_tail s.messages

/-- In the stream `s`, one of its messages begins right behind the bytes `front`. -/
def Begins (s : XmlStream) (front : List UInt8) : Prop :=
  ∃ done m more, s.messages = done ++ m :: more ∧
    front = rootBytes s.roots ++ (messageBytes done ++ fill m.1)

/-- **Where a message begins, the stream is at the message level.** With `Nests.unique`, a framer
    that is at another depth there has lost count. -/
theorem Begins.nests {s : XmlStream} {front : List UInt8} (h : s.Begins front)
    (hs : front ++ rest = s.bytes) : Nests s.roots.length s.roots.length rest := by
  obtain ⟨done, m, more, hmessages, rfl⟩ := h
  have hrest : rest = m.2.bytes ++ (messageBytes more ++ fill s.tail) := by
    rw [bytes, hmessages] at hs
    simpa [messageBytes] using hs
  rw [hrest]
  exact nests_element m.2 (Nat.le_refl _) (s.nests_tail more)

end XmlStream

end Observatory
