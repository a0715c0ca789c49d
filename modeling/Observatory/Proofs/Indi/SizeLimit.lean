import Mathlib.Data.List.TakeWhile
import Observatory.Proofs.Indi.Oversized

/-!
# The size limit

The limit is on what waits.  A call looks at it only when it finds no message, so an element that
arrives as a whole is handed out however long it is, and the same element, asked for in
between, is given up.  What exceeds the limit of a message that is handed out has arrived since
the last call that found none.  A stream whose pieces fit never meets the limit, wherever it is
cut.

* `Framer.givesUp_iff`: when a call answers that a message is too long;
* `Framer.length_le_of_quiet`: how long a message is that is handed out;
* `XmlStream.Content.messages`, `XmlStream.Content.Fits`: the messages of a stream with elements at
  any depth, and that it fits;
* `Framer.Serves`: the messages that a framer will hand out, with `Framer.Serves.next` and
  `Framer.Serves.run`;
* `Framer.serves_stream`: those of a stream that fits are its elements at the message level;
* `Framer.sized_run`: what the limit is a limit of.
-/

namespace Observatory

namespace Framer

variable {f g : Framer} {t : Tag} {more : List UInt8}

/-! ### What waits -/

/-- After a call that finds no message, no more bytes wait than the limit. -/
theorem pending_of_quiet (h : f.next.1 = .ok none) : f.next.2.pending ≤ f.limit := by
  -- A call finds no message only if it waits in the end, and there the limit was tested.
  induction f using nextInduction with
  | waits f hnone =>
    rw [next_of_none hnone, wait_eq] at h ⊢
    split at h
    · cases h
    · next hle =>
      rw [if_neg hle]
      exact Nat.le_of_not_lt hle
  | ends f t a f' ht hm =>
    rw [next_ends ht hm] at h
    cases a <;> cases h
  | goesOn f t f' ht hm ih =>
    have hlimit := (f.meet_bounds ht).1
    rw [hm] at hlimit
    rw [next_goesOn ht hm] at h ⊢
    exact hlimit ▸ ih h

/-- A call answers `messageTooLarge` if and only if, with room `n` for all that waits, it would
    find no message and leave more bytes waiting than the limit. -/
theorem givesUp_iff (f : Framer) {n : Nat} (hn : f.pending ≤ n) :
    f.next.1 = .error (.messageTooLarge f.limit) ↔
      (f.withLimit n).next.1 = .ok none ∧ f.limit < (f.withLimit n).next.2.pending := by
  rcases f.next_withLimit hn with ⟨hquiet, hlarge, hnext⟩ | ⟨hsmall, hnext⟩
  · exact ⟨fun _ => ⟨hquiet, hlarge⟩, fun _ => congrArg Prod.fst hnext⟩
  · refine ⟨fun h => absurd h hsmall, fun ⟨hquiet, hlarge⟩ => ?_⟩
    -- A call that finds no message has room for all that goes on waiting.
    have hle := pending_of_quiet ((congrArg Prod.fst hnext).trans hquiet)
    rw [hnext] at hle
    exact absurd hlarge (Nat.not_lt.2 hle)

/-- A message that is handed out was a part of what waited before the call. -/
theorem length_le_pending {m : List UInt8} (h : f.next.1 = .ok (some m)) :
    m.length ≤ f.pending := by
  have hsuffix := (f.next_suffix.2 m h).length_le
  rw [List.length_append, length_held] at hsuffix
  exact Nat.le_trans (Nat.le_add_right _ _) hsuffix

/-- A message that is handed out is longer than the limit by no more than what arrived since the
    last call that found none. -/
theorem length_le_of_quiet {before middle : List Event} {m : List UInt8} (hf : f.Settled)
    (hquiet : (f.run before).next.1 = .ok none)
    (h : (f.run (before ++ .next :: middle)).next.1 = .ok (some m)) :
    m.length ≤ f.limit + (fed middle).length := by
  have hwaits := pending_of_quiet hquiet
  rw [(settled_run hf before).2] at hwaits
  rw [run_next] at h
  calc m.length
      ≤ ((f.run before).next.2.run middle).pending := length_le_pending h
    _ ≤ (f.run before).next.2.pending + (fed middle).length := pending_run _ middle
    _ ≤ f.limit + (fed middle).length := Nat.add_le_add_right hwaits _

end Framer

/-! ### Streams that fit -/

namespace XmlStream

mutual

/-- The elements of an element that are so many levels further in. -/
def Element.messages : Nat → Element → List Element
  | 0, e => [e]
  | _ + 1, .empty _ => []
  | level + 1, .full _ inside _ => inside.messages level

/-- The elements at a level in some content. -/
def Content.messages : Nat → Content → List Element
  | _, .nothing => []
  | level, .filler _ rest => rest.messages level
  | level, .element e rest => e.messages level ++ rest.messages level

end

/-- Skipped markup is no longer than the limit.  Text is not restricted, as it is dropped outside
    of a message. -/
def Filler.Fits (limit : Nat) : Filler → Prop
  | text _ => True
  | skipped markup => markup.bytes.length ≤ limit

mutual

/-- Elements at the message level are no longer than the limit, and neither are the tags of those
    that enclose them. -/
def Element.Fits (limit : Nat) : Nat → Element → Prop
  | 0, e => e.bytes.length ≤ limit
  | _ + 1, .empty tag => tag.closed.length ≤ limit
  | level + 1, .full tag inside after =>
    tag.opening.length ≤ limit ∧ inside.Fits limit level ∧ (tag.closing after).length ≤ limit

/-- All that is in the content fits. -/
def Content.Fits (limit : Nat) : Nat → Content → Prop
  | _, .nothing => True
  | level, .filler f rest => f.Fits limit ∧ rest.Fits limit level
  | level, .element e rest => e.Fits limit level ∧ rest.Fits limit level

end

end XmlStream

namespace Tag

/-- Markup that `next?` recognises at the head of some bytes, whatever follows it. -/
def Whole (kind : Markup) (body : List UInt8) : Prop :=
  ∀ rest, next? (body ++ rest) = some ⟨[], kind, body, rest⟩

/-- There is no markup in text. -/
theorem next?_of_plain {bytes : List UInt8} (h : opener ∉ bytes) : next? bytes = none := by
  have htext := next?_text h []
  rwa [List.append_nil] at htext

/-- Unfinished markup is no longer than the markup that it turns out to be, since otherwise it
    would be complete. -/
theorem length_le_of_unfinished {bytes more : List UInt8} {t : Tag} (hnone : next? bytes = none)
    (hdrop : bytes.dropWhile (· ≠ opener) = bytes) (h : next? (bytes ++ more) = some t)
    (whole : Whole t.kind t.body) : bytes.length ≤ t.body.length := by
  have happend := append_of_next? h
  cases bytes with
  | nil => exact Nat.zero_le _
  | cons b bytes =>
    -- No text stands in front of it.
    have hb : b = opener := by
      refine Decidable.byContradiction fun hne => ?_
      rw [List.dropWhile_cons_of_pos (by simpa using hne)] at hdrop
      have hle := (List.dropWhile_sublist (l := bytes) (· ≠ opener)).length_le
      rw [hdrop] at hle
      exact Nat.not_succ_le_self _ hle
    have hgap : t.gap = [] := by
      cases hgap : t.gap with
      | nil => rfl
      | cons c gap =>
        rw [hgap, List.cons_append, List.cons_append] at happend
        have hc : c = opener := (List.cons.inj happend).1.trans hb
        exact absurd (hgap ▸ hc ▸ List.mem_cons_self) (opener_not_mem_gap h)
    rw [hgap, List.nil_append] at happend
    -- If all of the markup were there, it would be recognised.
    refine Nat.le_of_not_lt fun hlt => ?_
    have hprefix : t.body <+: b :: bytes :=
      List.prefix_of_prefix_length_le (happend ▸ List.prefix_append _ _) (List.prefix_append _ more)
        (by omega)
    obtain ⟨rest, hrest⟩ := hprefix
    have hfound := whole rest
    rw [hrest, hnone] at hfound
    cases hfound

end Tag

namespace Framer

open XmlStream

variable {f g : Framer} {t : Tag} {more : List UInt8} {out : List (List UInt8)}

/-! ### The messages ahead -/

/-- How many bytes are held when the markup `t` is complete: those of the message under way, the
    text in front of the markup, and the markup. -/
def load (f : Framer) (t : Tag) : Nat :=
  ((f.pass t.gap).captured.getD []).length + t.body.length

/-- `f.Serves out`: with what is ahead now, the framer will hand out the messages `out` and then
    meet text only, and no piece of markup on the way is too much for it.  One constructor for each
    piece of markup, so that the invariant is stepped along with `meet`. -/
inductive Serves : Framer → List (List UInt8) → Prop
  | nothing {f : Framer} (idle : f.captured = none) (plain : Tag.opener ∉ f.ahead) : Serves f []
  | markup {f g : Framer} {t : Tag} {m : Option (List UInt8)} {out : List (List UInt8)}
    (first : Tag.next? f.ahead = some t) (whole : Tag.Whole t.kind t.body)
    (room : f.load t ≤ f.limit) (met : f.meet t = (m.map .ok, g)) (rest : Serves g out) :
    Serves f (m.toList ++ out)

/-- `Serves` does not depend on the bytes that belong to no message. -/
theorem Serves.of_lighter (h : f.Lighter g) (hg : g.Serves out) : f.Serves out := by
  induction hg generalizing f with
  | nothing idle plain =>
    obtain ⟨n, -, rfl⟩ := h
    exact .nothing idle plain
  | @markup g g' t m out first whole room met rest ih =>
    obtain ⟨k, hk, hl⟩ := h.meet t
    obtain ⟨n, -, rfl⟩ := h
    have hload : f.load t = ({ f with skipped := n } : Framer).load t := by
      rw [load, load, captured_pass, captured_pass]
    rw [met] at hk
    obtain ⟨ha, rfl⟩ := Prod.mk.inj hk
    exact .markup first whole (hload ▸ room) (Prod.ext ha.symm rfl) (ih hl)

/-- `Serves` does not depend on whether text ahead was passed already. -/
theorem serves_text {text : List UInt8} (ht : Tag.opener ∉ text) (f : Framer) (rest : List UInt8) :
    Serves { f with ahead := text ++ rest } out ↔
      Serves { f.pass text with ahead := rest } out := by
  have htag := Tag.next?_text ht rest
  -- The load of the next piece of markup counts the text either way: as a part of the gap, or as
  -- passed.
  have hload : ∀ t, ({ f.pass text with ahead := rest } : Framer).load t =
      ({ f with ahead := text ++ rest } : Framer).load { t with gap := text ++ t.gap } := by
    intro t
    obtain ⟨level, limit, skipped, captured, ahead, depth⟩ := f
    cases captured <;> simp [load, pass]
  have hlimit : (f.pass text).limit = f.limit := limit_pass f text
  constructor
  · intro h
    cases h with
    | nothing idle plain =>
      refine .nothing ?_ fun hmem => plain (List.mem_append_right _ hmem)
      exact (captured_pass f text).trans (Option.map_eq_none_iff.2 idle)
    | @markup _ g t m out first whole room met behind =>
      rw [htag] at first
      obtain ⟨t', ht', rfl⟩ := Option.map_eq_some_iff.1 first
      rw [← meet_text f t' text rest] at met
      exact .markup ht' whole (by rwa [hload, hlimit]) met behind
  · intro h
    cases h with
    | nothing idle plain =>
      refine .nothing ?_ fun hmem => (List.mem_append.1 hmem).elim ht plain
      exact Option.map_eq_none_iff.1 ((captured_pass f text).symm.trans idle)
    | @markup _ g t m out first whole room met behind =>
      rw [meet_text f t text rest (text ++ rest)] at met
      rw [first, Option.map_some] at htag
      rw [hload, hlimit] at room
      exact .markup htag whole room met behind

/-! ### One call -/

/-- `Serves` is stepped along a piece of markup that has arrived, with more bytes to come. -/
theorem Serves.meet (h : (f.extend more).Serves out) (ht : Tag.next? f.ahead = some t) :
    ∃ (m : Option (List UInt8)) (rest : List (List UInt8)),
      f.meet t = (m.map .ok, (f.meet t).2) ∧ m.toList ++ rest = out ∧
        ((f.meet t).2.extend more).Serves rest := by
  have hmore : Tag.next? (f.extend more).ahead = some (t.followedBy more) :=
    Tag.next?_append ht more
  cases h with
  | nothing idle plain =>
    rw [Tag.next?_of_plain plain] at hmore
    cases hmore
  | @markup _ g t' m out first whole room met rest =>
    obtain rfl : t' = t.followedBy more := Option.some.inj (first.symm.trans hmore)
    rw [meet_extend] at met
    obtain ⟨ha, rfl⟩ := Prod.mk.inj met
    exact ⟨m, out, Prod.ext ha rfl, rfl, rest⟩

/-- `Serves` is kept by a framer that waits. -/
theorem Serves.waiting (h : (f.extend more).Serves out) : (f.waiting.extend more).Serves out := by
  have hopener := Tag.opener_not_mem_takeWhile f.ahead
  rw [extend, ← List.takeWhile_append_dropWhile (p := (· ≠ Tag.opener)) (l := f.ahead),
    List.append_assoc] at h
  -- What belongs to no message is dropped.
  refine ((serves_text hopener f _).1 h).of_lighter ?_
  obtain ⟨level, limit, skipped, captured, ahead, depth⟩ := f
  cases captured with
  | none => exact ⟨_, Nat.zero_le _, rfl⟩
  | some c => exact .refl _

/-- What waits is a part of what the next piece of markup will complete, and that is within the
    limit. -/
theorem Serves.pending_le (h : (f.extend more).Serves out) (hnone : Tag.next? f.ahead = none)
    (hdrop : f.ahead.dropWhile (· ≠ Tag.opener) = f.ahead) : f.pending ≤ f.limit := by
  cases h with
  | nothing idle plain =>
    have hcaptured : f.captured = none := idle
    have htext : ∀ b ∈ f.ahead, decide (b ≠ Tag.opener) = true := by
      intro b hb
      have hne : b ≠ Tag.opener := fun he => plain (List.mem_append_left _ (he ▸ hb))
      simpa using hne
    have hnil : f.ahead = [] := hdrop.symm.trans (List.dropWhile_eq_nil_iff.2 htext)
    rw [pending, hcaptured, hnil]
    exact Nat.zero_le _
  | @markup _ g t m out first whole room met rest =>
    -- The bytes ahead belong to markup that is not finished, so they are a part of its body.
    have hahead : f.ahead.length ≤ t.body.length :=
      Tag.length_le_of_unfinished hnone hdrop first whole
    have hcaptured : (f.captured.getD []).length ≤
        (((f.extend more).pass t.gap).captured.getD []).length := by
      rw [captured_pass]
      cases hc : f.captured <;> simp [extend, hc]
    exact Nat.le_trans (Nat.add_le_add hcaptured hahead) room

/-- **One call.** A framer that serves `out` answers no error: it hands out the first of these
    messages, or finds none yet. -/
theorem Serves.next (h : (f.extend more).Serves out) :
    ∃ (m : Option (List UInt8)) (rest : List (List UInt8)),
      f.next.1 = .ok m ∧ m.toList ++ rest = out ∧ (f.next.2.extend more).Serves rest := by
  induction f using nextInduction generalizing out with
  | waits f hnone =>
    have hwaiting := h.waiting
    -- What waits is within the limit, so the call does not give up.
    have hle : f.waiting.pending ≤ f.waiting.limit :=
      hwaiting.pending_le (by rw [ahead_waiting]; exact Tag.next?_dropWhile hnone)
        (by rw [ahead_waiting]; exact Tag.dropWhile_dropWhile _)
    rw [limit_waiting] at hle
    rw [next_of_none hnone, wait_eq, if_neg (Nat.not_lt.2 hle)]
    exact ⟨none, out, rfl, rfl, hwaiting⟩
  | ends f t a f' ht hm =>
    obtain ⟨m, rest, hmeet, hout, hrest⟩ := h.meet ht
    rw [hm] at hmeet hrest
    rw [next_ends ht hm]
    cases m with
    | none => cases hmeet
    | some m =>
      cases hmeet
      exact ⟨some m, rest, rfl, hout, hrest⟩
  | goesOn f t f' ht hm ih =>
    obtain ⟨m, rest, hmeet, hout, hrest⟩ := h.meet ht
    rw [hm] at hmeet hrest
    rw [next_goesOn ht hm]
    cases m with
    | none => exact ih (hout ▸ hrest)
    | some m => cases hmeet

/-- When all bytes have arrived, a call that finds no message means that none is left. -/
theorem Serves.eq_nil (h : f.Serves out) (hquiet : f.next.1 = .ok none) : out = [] := by
  induction h with
  | nothing => rfl
  | @markup f g t m out first whole room met rest ih =>
    cases m with
    | none =>
      rw [next_goesOn first met] at hquiet
      exact ih hquiet
    | some m =>
      rw [next_ends first met] at hquiet
      cases hquiet

/-! ### Runs -/

/-- **Runs.** Whatever is asked for in between, the messages are handed out in order, and the
    others are still served. -/
theorem Serves.run {events : List Event} (hreset : .reset ∉ events)
    (h : (f.extend (fed events ++ more)).Serves out) :
    ∃ rest : List (List UInt8),
      f.messages events ++ rest.map Utf8.decodeText = out.map Utf8.decodeText ∧
        ((f.run events).extend more).Serves rest := by
  induction events generalizing f out with
  | nil => exact ⟨out, rfl, h⟩
  | cons e events ih =>
    have hreset' : .reset ∉ events := fun hmem => hreset (List.mem_cons_of_mem _ hmem)
    -- What is fed later waits behind what was fed now, so it is a part of `more` at first.
    rw [fed_cons, List.append_assoc] at h
    cases e with
    | extend bytes =>
      rw [extend, Event.fed, ← List.append_assoc] at h
      exact ih hreset' h
    | next =>
      obtain ⟨m, rest, hanswer, rfl, hrest⟩ := h.next
      obtain ⟨rest', hmessages, hend⟩ := ih hreset' hrest
      refine ⟨rest', ?_, hend⟩
      rw [messages_next (Prod.ext hanswer rfl), List.append_assoc, hmessages]
      cases m <;> simp [Except.toOption]
    | reset => exact absurd List.mem_cons_self hreset

/-! ### Streams -/

variable {level limit depth depth' n : Nat} {c bytes rest : List UInt8} {kind : Markup}

/-- Inside a message, markup for which `meet` gives no answer is added to it. -/
theorem serves_within (whole : Tag.Whole kind bytes) (hroom : c.length + bytes.length ≤ limit)
    (hmeet : meet ⟨level, limit, n, some c, bytes ++ rest, depth⟩ ⟨[], kind, bytes, rest⟩ =
      (none, ⟨level, limit, n, some (c ++ bytes), rest, depth'⟩))
    (h : Serves ⟨level, limit, n, some (c ++ bytes), rest, depth'⟩ out) :
    Serves ⟨level, limit, n, some c, bytes ++ rest, depth⟩ out := by
  have hload : load ⟨level, limit, n, some c, bytes ++ rest, depth⟩ ⟨[], kind, bytes, rest⟩ =
      c.length + bytes.length := by simp [load, pass]
  exact .markup (m := none) (whole rest) whole (Nat.le_trans (Nat.le_of_eq hload) hroom) hmeet h

/-- Inside a message, a filler is added to it. -/
theorem serves_within_filler (filler : Filler) (hroom : c.length + filler.bytes.length ≤ limit)
    (h : Serves ⟨level, limit, n, some (c ++ filler.bytes), rest, depth⟩ out) :
    Serves ⟨level, limit, n, some c, filler.bytes ++ rest, depth⟩ out := by
  cases filler with
  | text run =>
    exact (serves_text run.plain ⟨level, limit, n, some c, run.bytes ++ rest, depth⟩ rest).2 h
  | skipped markup => exact serves_within (Tag.next?_skipped markup) hroom rfl h

mutual

/-- Inside a message, an element is added to it; along the syntax, with `serves_within_content`. -/
theorem serves_within_element (e : Element) {c rest : List UInt8} {depth : Nat}
    (hd : level < depth) (hroom : c.length + e.bytes.length ≤ limit)
    (h : Serves ⟨level, limit, n, some (c ++ e.bytes), rest, depth⟩ out) :
    Serves ⟨level, limit, n, some c, e.bytes ++ rest, depth⟩ out := by
  match e with
  | .empty tag =>
    rw [Element.bytes] at hroom h ⊢
    refine serves_within (Tag.next?_closed tag) hroom ?_ h
    exact if_neg (Nat.ne_of_gt hd)
  | .full tag inside after =>
    rw [Element.bytes, List.length_append, List.length_append] at hroom
    rw [Element.bytes, List.append_assoc] at h
    have hdeep : ¬depth + 1 - 1 = level := by omega
    -- From the end: first the closing tag, then the content in front of it, then the opening tag.
    have hclosing : Serves ⟨level, limit, n, some (c ++ tag.opening ++ inside.bytes),
        tag.closing after ++ rest, depth + 1⟩ out := by
      rw [← List.append_assoc, ← List.append_assoc] at h
      refine serves_within (Tag.next?_closing tag after) ?_ ?_ h
      · simp only [List.length_append]
        omega
      · simp [meet, beyond, pass, Nat.ne_of_gt hd]
    have hinside := serves_within_content inside (Nat.lt_succ_of_lt hd)
      (by rw [List.length_append]; omega) hclosing
    rw [Element.bytes, List.append_assoc, List.append_assoc]
    refine serves_within (Tag.next?_opening tag) (by omega) ?_ hinside
    exact if_neg (Nat.ne_of_gt hd)

/-- Inside a message, the content of an element is added to it. -/
theorem serves_within_content (content : Content) {c rest : List UInt8} {depth : Nat}
    (hd : level < depth) (hroom : c.length + content.bytes.length ≤ limit)
    (h : Serves ⟨level, limit, n, some (c ++ content.bytes), rest, depth⟩ out) :
    Serves ⟨level, limit, n, some c, content.bytes ++ rest, depth⟩ out := by
  -- There is room for all of the content, hence for its first piece and then for the rest.
  match content with
  | .nothing =>
    rw [Content.bytes, List.append_nil] at h
    exact h
  | .filler filler more =>
    rw [Content.bytes, List.length_append] at hroom
    rw [Content.bytes, ← List.append_assoc] at h
    rw [Content.bytes, List.append_assoc]
    refine serves_within_filler filler (by omega) (serves_within_content more hd ?_ h)
    rw [List.length_append]
    omega
  | .element e more =>
    rw [Content.bytes, List.length_append] at hroom
    rw [Content.bytes, ← List.append_assoc] at h
    rw [Content.bytes, List.append_assoc]
    refine serves_within_element e hd (by omega) (serves_within_content more hd ?_ h)
    rw [List.length_append]
    omega

end

/-- Outside of a message, markup within the limit is met, whether it is a message or not. -/
theorem serves_outside {m : Option (List UInt8)} {n' : Nat} (whole : Tag.Whole kind bytes)
    (hroom : bytes.length ≤ limit)
    (hmeet : meet ⟨level, limit, n, none, bytes ++ rest, depth⟩ ⟨[], kind, bytes, rest⟩ =
      (m.map .ok, ⟨level, limit, n', none, rest, depth'⟩))
    (h : Serves ⟨level, limit, n', none, rest, depth'⟩ out) :
    Serves ⟨level, limit, n, none, bytes ++ rest, depth⟩ (m.toList ++ out) := by
  have hload : load ⟨level, limit, n, none, bytes ++ rest, depth⟩ ⟨[], kind, bytes, rest⟩ =
      bytes.length := by simp [load, pass]
  exact .markup (whole rest) whole (Nat.le_trans (Nat.le_of_eq hload) hroom) hmeet h

/-- Outside of a message, a filler that fits is passed. -/
theorem serves_outside_filler (filler : Filler) (hfits : filler.Fits limit)
    (h : ∀ n, Serves ⟨level, limit, n, none, rest, depth⟩ out) (n : Nat) :
    Serves ⟨level, limit, n, none, filler.bytes ++ rest, depth⟩ out := by
  cases filler with
  | text run =>
    exact (serves_text run.plain ⟨level, limit, n, none, run.bytes ++ rest, depth⟩ rest).2 (h _)
  | skipped markup =>
    exact serves_outside (m := none) (Tag.next?_skipped markup) hfits rfl (h _)

/-- An element at the message level that fits is handed out. -/
theorem serves_message (e : Element) (hfits : e.bytes.length ≤ limit)
    (h : ∀ n, Serves ⟨level, limit, n, none, rest, level⟩ out) (n : Nat) :
    Serves ⟨level, limit, n, none, e.bytes ++ rest, level⟩ (e.bytes :: out) := by
  cases e with
  | empty tag =>
    rw [Element.bytes] at hfits ⊢
    exact serves_outside (m := some tag.closed) (Tag.next?_closed tag) hfits (if_pos rfl) (h 0)
  | full tag inside after =>
    rw [Element.bytes, List.length_append, List.length_append] at hfits
    -- Its closing tag completes what its opening tag began.
    have hclosing : Serves ⟨level, limit, n, some (tag.opening ++ inside.bytes),
        tag.closing after ++ rest, level + 1⟩
          ((tag.opening ++ inside.bytes ++ tag.closing after) :: out) := by
      refine .markup (m := some (tag.opening ++ inside.bytes ++ tag.closing after))
        (Tag.next?_closing tag after rest) (Tag.next?_closing tag after) ?_ ?_ (h 0)
      · simp only [load, pass, List.append_nil, Option.getD_some, List.length_append]
        omega
      · simp [meet]
    have hinside := serves_within_content inside (Nat.lt_succ_self level) (by omega) hclosing
    rw [Element.bytes, List.append_assoc, List.append_assoc]
    refine .markup (m := none) (Tag.next?_opening tag _) (Tag.next?_opening tag) ?_ ?_ hinside
    · simp only [load, pass, Option.getD_none, List.length_nil]
      omega
    · simp [meet, pass]

mutual

/-- An element above the message level serves the messages in it; along the syntax, with
    `serves_content`. -/
theorem serves_element (e : Element) {k depth : Nat} {rest : List UInt8}
    {out : List (List UInt8)} (hd : depth + k = level) (hfits : e.Fits limit k)
    (h : ∀ n, Serves ⟨level, limit, n, none, rest, depth⟩ out) (n : Nat) :
    Serves ⟨level, limit, n, none, e.bytes ++ rest, depth⟩
      ((e.messages k).map Element.bytes ++ out) := by
  -- At the message level the element is a message; above it, its tags are passed and its content
  -- serves.
  match k, e with
  | 0, e =>
    obtain rfl : depth = level := hd
    rw [Element.Fits] at hfits
    rw [Element.messages]
    exact serves_message e hfits h n
  | k + 1, .empty tag =>
    have hother : depth ≠ level := by omega
    rw [Element.Fits] at hfits
    rw [Element.bytes, Element.messages]
    exact serves_outside (m := none) (Tag.next?_closed tag) hfits (if_neg hother) (h _)
  | k + 1, .full tag inside after =>
    have hother : depth ≠ level := by omega
    rw [Element.Fits] at hfits
    obtain ⟨hopening, hinside, hclosing⟩ := hfits
    have hbehind : ∀ n, Serves ⟨level, limit, n, none, tag.closing after ++ rest, depth + 1⟩ out :=
      fun n => serves_outside (m := none) (Tag.next?_closing tag after) hclosing rfl (h _)
    have hcontent := serves_content inside (by omega) hinside hbehind
    rw [Element.bytes, Element.messages, List.append_assoc, List.append_assoc]
    exact serves_outside (m := none) (Tag.next?_opening tag) hopening (if_neg hother) (hcontent _)

/-- The content of an element serves the messages in it. -/
theorem serves_content (content : Content) {k depth : Nat} {rest : List UInt8}
    {out : List (List UInt8)} (hd : depth + k = level) (hfits : content.Fits limit k)
    (h : ∀ n, Serves ⟨level, limit, n, none, rest, depth⟩ out) (n : Nat) :
    Serves ⟨level, limit, n, none, content.bytes ++ rest, depth⟩
      ((content.messages k).map Element.bytes ++ out) := by
  -- Each piece of the content in turn, with what the others serve behind it.
  match content with
  | .nothing =>
    rw [Content.bytes, Content.messages]
    exact h n
  | .filler filler more =>
    rw [Content.Fits] at hfits
    rw [Content.bytes, Content.messages, List.append_assoc]
    exact serves_outside_filler filler hfits.1 (serves_content more hd hfits.2 h) n
  | .element e more =>
    rw [Content.Fits] at hfits
    rw [Content.bytes, Content.messages, List.map_append, List.append_assoc, List.append_assoc]
    exact serves_element e hd hfits.1 (serves_content more hd hfits.2 h) n

end

/-- A new framer, given a stream that fits, serves the elements of the stream at the message
    level. -/
theorem serves_stream (stream : Content) (level limit : Nat) (hfits : stream.Fits limit level) :
    ((start level limit).extend stream.bytes).Serves
      ((stream.messages level).map Element.bytes) := by
  have hend : ∀ n, Serves ⟨level, limit, n, none, [], 0⟩ [] :=
    fun n => .nothing rfl List.not_mem_nil
  have hcontent := serves_content stream (Nat.zero_add level) hfits hend 0
  rwa [List.append_nil, List.append_nil] at hcontent

/-- **The limit is on what waits.** A call answers `messageTooLarge` if and only if it would find
    no message with room for all that waits, and more bytes than the limit would go on waiting.
    What a message that is handed out has in excess of the limit arrived after the last call that
    found none.  Of a stream whose messages fit, and whose markup outside of them does, no call
    answers an error, however it is cut and whenever it is asked for messages, and its messages are
    handed out. -/
theorem sized_run (level limit : Nat) :
    (∀ (events : List Event) (n : Nat), ((start level limit).run events).pending ≤ n →
      (((start level limit).run events).next.1 = .error (.messageTooLarge limit) ↔
        (((start level limit).run events).withLimit n).next.1 = .ok none ∧
          limit < (((start level limit).run events).withLimit n).next.2.pending)) ∧
    (∀ (before middle : List Event) (m : List UInt8),
      ((start level limit).run before).next.1 = .ok none →
        ((start level limit).run (before ++ .next :: middle)).next.1 = .ok (some m) →
          m.length ≤ limit + (fed middle).length) ∧
    ∀ (stream : Content) (events : List Event) (more : List UInt8), stream.Fits limit level →
      .reset ∉ events → fed events ++ more = stream.bytes →
        (∀ before after, events = before ++ .next :: after →
          ∃ m, ((start level limit).run before).next.1 = .ok m) ∧
        ∃ rest, (start level limit).messages events ++ rest =
            (stream.messages level).map (fun e => Utf8.decodeText e.bytes) ∧
          (more = [] → ((start level limit).run events).nextMessage.1 = .ok none → rest = []) := by
  have hsettled := settled_start level limit
  refine ⟨fun events n hn => ?_, fun before middle m => length_le_of_quiet hsettled, ?_⟩
  · have hlimit : ((start level limit).run events).limit = limit := (settled_run hsettled events).2
    have hgives := givesUp_iff _ hn
    rwa [hlimit] at hgives
  intro stream events more hfits hreset hfed
  have hserves := serves_stream stream level limit hfits
  rw [← hfed] at hserves
  constructor
  · rintro before after rfl
    -- The messages that are handed out before the call leave those that it is asked for.
    have hbefore : .reset ∉ before := fun hmem => hreset (List.mem_append_left _ hmem)
    rw [fed_append, List.append_assoc] at hserves
    obtain ⟨rest, -, hrest⟩ := hserves.run hbefore
    obtain ⟨m, -, hanswer, -⟩ := hrest.next
    exact ⟨m, hanswer⟩
  · obtain ⟨rest, hmessages, hend⟩ := hserves.run hreset
    rw [List.map_map] at hmessages
    refine ⟨_, hmessages, ?_⟩
    rintro rfl hquiet
    rw [extend, List.append_nil] at hend
    rw [hend.eq_nil (nextMessage_eq_none.1 hquiet), List.map_nil]

end Framer

namespace XmlStream

/-- A stream with a message of four bytes, in a root element with twenty bytes of text. -/
def wordy : Content :=
  .element (.full ⟨letter 'w' (by decide), [], noSpace⟩
    (.filler (.text ⟨asciiBytes "abcdefghij0123456789".toList, by decide⟩)
      (.element (.empty ⟨letter 'o' (by decide), [], noSpace⟩) .nothing))
    noSpace) .nothing

/-- An element of twenty-seven bytes. -/
def lengthy : Element :=
  .full ⟨letter 'l' (by decide), [], noSpace⟩
    (.filler (.text ⟨asciiBytes "abcdefghij0123456789".toList, by decide⟩) .nothing) noSpace

end XmlStream

namespace Framer

/-- `sized_run` on the stream `wordy` with a limit of eight bytes: cut in its text and in a tag, it
    is read to its end. -/
theorem sized_run_wordy :
    let events := [.extend (asciiBytes "<w>abcdefghij01".toList), .next,
      .extend (asciiBytes "23456789<o".toList), .next, .extend (asciiBytes "/></w>".toList), .next]
    XmlStream.wordy.Fits 8 1 ∧ .reset ∉ events ∧ fed events ++ [] = XmlStream.wordy.bytes ∧
      ∃ rest, (start 1 8).messages events ++ rest = ["<o/>"] := by
  intro events
  have hfits : XmlStream.wordy.Fits 8 1 := by
    simp only [XmlStream.wordy, XmlStream.Content.Fits, XmlStream.Element.Fits,
      XmlStream.Filler.Fits]
    decide
  have hreset : .reset ∉ events := by simp [events]
  have hfed : fed events ++ [] = XmlStream.wordy.bytes := by decide
  -- The theorem gives the texts of the messages; what is left is to compute them.
  obtain ⟨-, rest, hrest, -⟩ := (sized_run 1 8).2.2 XmlStream.wordy events [] hfits hreset hfed
  have hencode : Utf8.encodeText "<o/>" = asciiBytes "<o/>".toList := by
    rw [Utf8.encodeText_eq]
    decide
  have hmessages : (XmlStream.wordy.messages 1).map (fun e => Utf8.decodeText e.bytes) =
      ["<o/>"] := by
    change [Utf8.decodeText (asciiBytes "<o/>".toList)] = _
    rw [← hencode, Utf8.decodeText_encodeText]
  exact ⟨hfits, hreset, hfed, rest, hmessages ▸ hrest⟩

/-- The limit is not on the length of a message: an element of twenty-seven bytes is handed out
    with a limit of sixteen if it arrives as a whole, and is given up if a call finds it without
    its last byte. -/
theorem lengthy_handed_out :
    16 < XmlStream.lengthy.bytes.length ∧
      ((start 0 16).run [.extend XmlStream.lengthy.bytes]).next.1 =
        .ok (some XmlStream.lengthy.bytes) ∧
      ((start 0 16).run [.extend (XmlStream.lengthy.bytes.take 26)]).next.1 =
        .error (.messageTooLarge 16) := by
  refine ⟨by decide, ?_, ?_⟩
  · have hnext := next_element XmlStream.lengthy (f := start 0 16) rfl rfl []
    rw [List.append_nil] at hnext
    exact congrArg Prod.fst hnext
  · -- Without the last byte the closing tag is not complete, so the call waits with all the bytes
    -- but one.
    have hopening : Tag.next? (XmlStream.lengthy.bytes.take 26) = some ⟨[], .openTag,
        asciiBytes "<l>".toList, asciiBytes "abcdefghij0123456789</l".toList⟩ := rfl
    change ((start 0 16).extend (XmlStream.lengthy.bytes.take 26)).next.1 = _
    rw [next_goesOn (f := (start 0 16).extend (XmlStream.lengthy.bytes.take 26)) hopening rfl,
      next_of_none rfl, wait_eq]
    rfl

end Framer

end Observatory
