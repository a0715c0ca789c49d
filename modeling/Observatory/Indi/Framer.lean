import Observatory.Text.Utf8

/-!
# Framing a stream of elements

An INDI server writes one element after the other, or all of them inside of one root element.
A framer takes in bytes as they arrive and hands out each element that is complete at the
message level.  Comments, processing instructions, CDATA sections and declarations are stepped
over; text outside of a message is dropped.

* `Markup`, `Tag.next?`: the pieces of markup in a run of bytes.
* `Framer`: the bytes that arrived and how far they are understood.
* `Framer.extend`, `Framer.next`: take in bytes, hand out a message.
* `FramingError`: what goes wrong with a stream.
-/

namespace Observatory

/-! ### Markup -/

/-- The kinds of markup that matter for the depth of elements. -/
inductive Markup where
  | openTag
  | closeTag
  | selfClosing
  /-- Markup that is stepped over as a whole. -/
  | skip
  deriving DecidableEq, Repr

/-- The bytes of some ASCII characters. -/
def asciiBytes (cs : List Char) : List UInt8 := cs.map fun c => c.toNat.toUInt8

/-- A piece of markup in a run of bytes: what stands before it, the markup itself, and what
    comes after it. -/
structure Tag where
  gap : List UInt8
  kind : Markup
  body : List UInt8
  rest : List UInt8
  deriving Repr

namespace Tag

/-- The byte that begins markup. -/
def opener : UInt8 := asciiBytes ['<'] |>.headD 0

/-- Openers and terminators of the markup that is stepped over as a whole. -/
def skipped : List (List UInt8 × List UInt8) :=
  [(asciiBytes ['<', '!', '-', '-'], asciiBytes ['-', '-', '>']),
    (asciiBytes ['<', '!', '[', 'C', 'D', 'A', 'T', 'A', '['], asciiBytes [']', ']', '>']),
    (asciiBytes ['<', '?'], asciiBytes ['?', '>'])]

/-- Some bytes up to the first occurrence of `close`, which is included, and the rest. -/
def splitAfter? (close : List UInt8) : List UInt8 → Option (List UInt8 × List UInt8)
  | [] => if close.isEmpty then some ([], []) else none
  | b :: bytes =>
    if close.isPrefixOf (b :: bytes) then some (close, (b :: bytes).drop close.length)
    else (splitAfter? close bytes).map fun p => (b :: p.1, p.2)

/-- The rest of a tag up to its closing bracket, which is included, and what follows it; a
    bracket inside of quotes closes nothing. -/
def splitTag? : Option UInt8 → List UInt8 → Option (List UInt8 × List UInt8)
  | _, [] => none
  | some q, b :: bytes =>
    (splitTag? (if b = q then none else some q) bytes).map fun p => (b :: p.1, p.2)
  | none, b :: bytes =>
    -- The closing bracket ends the tag, a quote of either kind begins a quotation.
    if b = 0x3E then some ([b], bytes)
    else
      (splitTag? (if b = 0x22 ∨ b = 0x27 then some b else none) bytes).map
        fun p => (b :: p.1, p.2)

/-- The kind of a tag. -/
def kindOf (body : List UInt8) : Markup :=
  if (asciiBytes ['<', '!']).isPrefixOf body then .skip
  else if (asciiBytes ['<', '/']).isPrefixOf body then .closeTag
  else if (asciiBytes ['/', '>']).isSuffixOf body then .selfClosing
  else .openTag

/-- The markup at the head of some bytes, which begin with an opening bracket, and what follows
    it; nothing while it is not complete. -/
def scan? : List (List UInt8 × List UInt8) → List UInt8 → Option (Markup × List UInt8 × List UInt8)
  | [], [] => none
  | [], b :: bytes => (splitTag? none bytes).map fun p => (kindOf (b :: p.1), b :: p.1, p.2)
  | (opening, closing) :: others, bytes =>
    -- Too few bytes may still become this opener.
    if bytes.length < opening.length && bytes.isPrefixOf opening then none
    else if opening.isPrefixOf bytes then
      (splitAfter? closing (bytes.drop opening.length)).map
        fun p => (.skip, opening ++ p.1, p.2)
    else scan? others bytes

/-- The first piece of markup in some bytes, if it is complete. -/
def next? (bytes : List UInt8) : Option Tag :=
  (scan? skipped (bytes.dropWhile (· ≠ opener))).map fun (kind, body, rest) =>
    { gap := bytes.takeWhile (· ≠ opener), kind, body, rest }

/-! ### What follows markup is shorter -/

theorem length_splitAfter? {close bytes head rest : List UInt8}
    (h : splitAfter? close bytes = some (head, rest)) : rest.length ≤ bytes.length := by
  induction bytes generalizing head rest with
  | nil =>
    simp only [splitAfter?] at h
    split at h <;> simp_all
  | cons b bytes ih =>
    simp only [splitAfter?] at h
    split at h
    · simp only [Option.some.injEq, Prod.mk.injEq] at h
      rw [← h.2]
      simp only [List.length_drop]; omega
    · obtain ⟨p, hp, he⟩ := Option.map_eq_some_iff.1 h
      simp only [Prod.mk.injEq] at he
      have := ih hp
      rw [he.2] at this
      exact Nat.le_succ_of_le this

theorem length_splitTag? {q : Option UInt8} {bytes head rest : List UInt8}
    (h : splitTag? q bytes = some (head, rest)) : rest.length < bytes.length := by
  induction bytes generalizing q head rest with
  | nil => cases q <;> simp [splitTag?] at h
  | cons b bytes ih =>
    cases q with
    | some q =>
      simp only [splitTag?] at h
      obtain ⟨p, hp, he⟩ := Option.map_eq_some_iff.1 h
      simp only [Prod.mk.injEq] at he
      have := ih hp
      rw [he.2] at this
      exact Nat.lt_succ_of_lt this
    | none =>
      simp only [splitTag?] at h
      split at h
      · simp only [Option.some.injEq, Prod.mk.injEq] at h
        simp [← h.2]
      · obtain ⟨p, hp, he⟩ := Option.map_eq_some_iff.1 h
        simp only [Prod.mk.injEq] at he
        have := ih hp
        rw [he.2] at this
        exact Nat.lt_succ_of_lt this

theorem length_scan? {marks : List (List UInt8 × List UInt8)} {bytes body rest : List UInt8}
    {kind : Markup} (hm : ∀ m ∈ marks, m.1 ≠ [])
    (h : scan? marks bytes = some (kind, body, rest)) : rest.length < bytes.length := by
  induction marks with
  | nil =>
    cases bytes with
    | nil => simp [scan?] at h
    | cons b bytes =>
      simp only [scan?] at h
      obtain ⟨p, hp, he⟩ := Option.map_eq_some_iff.1 h
      simp only [Prod.mk.injEq] at he
      have := length_splitTag? hp
      rw [he.2.2] at this
      exact Nat.lt_succ_of_lt this
  | cons m others ih =>
    obtain ⟨opening, closing⟩ := m
    simp only [scan?] at h
    split at h
    · simp at h
    · split at h
      · next hpre =>
        obtain ⟨p, hp, he⟩ := Option.map_eq_some_iff.1 h
        simp only [Prod.mk.injEq] at he
        have hle := length_splitAfter? hp
        rw [he.2.2, List.length_drop] at hle
        have hpos : 0 < opening.length := List.length_pos_iff.2 (hm _ List.mem_cons_self)
        have hbound := (List.isPrefixOf_iff_prefix.1 hpre).length_le
        omega
      · exact ih (fun m' h' => hm m' (List.mem_cons_of_mem _ h')) h

/-- What follows the first piece of markup is shorter than the whole. -/
theorem length_next? {bytes : List UInt8} {t : Tag} (h : next? bytes = some t) :
    t.rest.length < bytes.length := by
  obtain ⟨p, hp, he⟩ := Option.map_eq_some_iff.1 h
  have hlt := length_scan? (by decide) hp
  have hle := (List.dropWhile_sublist (l := bytes) (· ≠ opener)).length_le
  rw [← he]
  exact Nat.lt_of_lt_of_le hlt hle

end Tag

/-! ### The framer -/

/-- What goes wrong with a stream of elements. -/
inductive FramingError where
  | unbalancedClosingTag
  | messageTooLarge (limit : Nat)
  deriving DecidableEq, Repr

/-- The message of an error. -/
def FramingError.message : FramingError → String
  | unbalancedClosingTag => "xml error: unbalanced closing tag"
  | messageTooLarge limit => "message exceeds " ++ toString limit ++ " bytes"

/-- The bytes that arrived.  `skipped` counts those that belong to no message and are not dropped
    yet, `captured` holds the understood part of the message that is under way, and `ahead`
    what is not understood yet.  `depth` elements are open after the captured part. -/
structure Framer where
  level : Nat := 0
  limit : Nat := 1048576
  skipped : Nat := 0
  captured : Option (List UInt8) := none
  ahead : List UInt8 := []
  depth : Nat := 0
  deriving Repr

namespace Framer

/-- Take in bytes. -/
def extend (f : Framer) (bytes : List UInt8) : Framer := { f with ahead := f.ahead ++ bytes }

/-- The number of bytes that arrived and were neither handed out nor dropped. -/
def buffered (f : Framer) : Nat :=
  f.skipped + (f.captured.getD []).length + f.ahead.length

/-- Forget everything that arrived. -/
def reset (f : Framer) : Framer := { level := f.level, limit := f.limit }

/-- Drop what was understood.  Elements below the message level stay open. -/
def recover (f : Framer) : Framer :=
  { f with skipped := 0, captured := none, depth := min f.depth f.level }

/-- Count some bytes as understood. -/
def pass (f : Framer) (bytes : List UInt8) : Framer :=
  match f.captured with
  | none => { f with skipped := f.skipped + bytes.length }
  | some c => { f with captured := some (c ++ bytes) }

/-- Drop what belongs to no message, unless a message is under way. -/
def dropIdle (f : Framer) : Framer :=
  match f.captured with
  | none => { f with skipped := 0 }
  | some _ => f

/-- The number of bytes that wait for the end of a message or of a piece of markup. -/
def pending (f : Framer) : Nat := (f.captured.getD []).length + f.ahead.length

/-- Wait for more bytes, unless too many wait already. -/
def wait (f : Framer) : Except FramingError (Option (List UInt8)) × Framer :=
  -- Text is understood as it comes, markup only as a whole.
  let f := { f.pass (f.ahead.takeWhile (· ≠ Tag.opener)) with
    ahead := f.ahead.dropWhile (· ≠ Tag.opener) }
  let f := f.dropIdle
  if f.limit < f.pending then (.error (.messageTooLarge f.limit), f.recover) else (.ok none, f)

/-- Hand out a message and drop it together with everything before it. -/
def handOut (f : Framer) (message : List UInt8) :
    Except FramingError (Option (List UInt8)) × Framer :=
  (.ok (some message), { f with skipped := 0, captured := none })

/-- The bytes of the next message, or nothing when none is complete.  After an error the stream
    goes on behind what was understood. -/
def next (f : Framer) : Except FramingError (Option (List UInt8)) × Framer :=
  match _h : Tag.next? f.ahead with
  | none => f.wait
  | some t =>
    let before := { f.pass t.gap with ahead := t.rest }
    match t.kind with
    | .skip => next { f.pass (t.gap ++ t.body) with ahead := t.rest }
    | .openTag =>
      -- A message begins at the message level; what stands before the tag is not a part of it.
      if f.depth = f.level then
        next { before with captured := some t.body, depth := f.depth + 1 }
      else next { f.pass (t.gap ++ t.body) with ahead := t.rest, depth := f.depth + 1 }
    | .selfClosing =>
      if f.depth = f.level then before.handOut t.body
      else next { f.pass (t.gap ++ t.body) with ahead := t.rest }
    | .closeTag =>
      let after := { f.pass (t.gap ++ t.body) with ahead := t.rest }
      if f.depth = 0 then (.error .unbalancedClosingTag, after.recover)
      else
        let after := { after with depth := f.depth - 1 }
        -- Without a message under way, the tag closes an element below the message level.
        match after.captured with
        | some message =>
          if after.depth = f.level then after.handOut message else next after
        | none => next after
  termination_by f.ahead.length
  decreasing_by all_goals exact Tag.length_next? _h

/-- The text of the next message. -/
def nextMessage (f : Framer) : Except FramingError (Option String) × Framer :=
  let (result, f) := f.next
  (result.map fun message => message.map Utf8.decodeText, f)

end Framer

end Observatory
