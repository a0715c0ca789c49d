import Observatory.Indi.Framer

/-!
# Draining a framer

Who reads a stream takes in bytes and then asks for messages until there is none, going on after
errors.  This ends unless the bytes stop in the middle of markup that is by itself longer
than a message may be: then the framer has nothing to drop, and answers the same error for
ever.

* `Tag.unfinished`: the markup that some bytes stop in the middle of;
* `Framer.Settled`: the invariant between two calls, with `Framer.settled_run`;
* `Framer.next_of_tag`, `Framer.next_of_none`: what a call does with the next piece of markup,
  and when there is none;
* `Framer.Stuck`: the state that a call does not change, although it answers an error;
* `Framer.drain_iff`: when draining ends, and which calls make the buffer shorter.
-/

namespace Observatory

/-! ### Unfinished markup -/

namespace Tag

/-- The markup that some bytes stop in the middle of, from its opener on; nothing if they do
    not. -/
def unfinished (bytes : List UInt8) : List UInt8 :=
  match _h : next? bytes with
  | none => bytes.dropWhile (· ≠ opener)
  | some t => unfinished t.rest
  termination_by bytes.length
  decreasing_by exact length_next? _h

/-- If no markup is complete, the unfinished markup begins with the first opener. -/
theorem unfinished_of_none {bytes : List UInt8} (h : next? bytes = none) :
    unfinished bytes = bytes.dropWhile (· ≠ opener) := by
  unfold unfinished
  split
  · rfl
  · next heq =>
    rw [h] at heq
    cases heq

/-- Behind complete markup, the unfinished markup is the same. -/
theorem unfinished_of_some {bytes : List UInt8} {t : Tag} (h : next? bytes = some t) :
    unfinished bytes = unfinished t.rest := by
  rw [unfinished]
  split
  · next heq =>
    rw [h] at heq
    cases heq
  · next heq =>
    rw [h] at heq
    cases heq
    rfl

theorem dropWhile_dropWhile (bytes : List UInt8) :
    (bytes.dropWhile (· ≠ opener)).dropWhile (· ≠ opener) = bytes.dropWhile (· ≠ opener) := by
  induction bytes with
  | nil => rfl
  | cons b rest ih =>
    by_cases hb : b ≠ opener
    · rw [List.dropWhile_cons_of_pos (by simpa using hb)]
      exact ih
    · rw [List.dropWhile_cons_of_neg (by simpa using hb),
        List.dropWhile_cons_of_neg (by simpa using hb)]

/-- Without the text in front there is still no complete markup. -/
theorem next?_dropWhile {bytes : List UInt8} (h : next? bytes = none) :
    next? (bytes.dropWhile (· ≠ opener)) = none := by
  rw [next?, Option.map_eq_none_iff] at h ⊢
  rwa [dropWhile_dropWhile]

/-- The unfinished markup does not depend on the text in front of it. -/
theorem unfinished_dropWhile {bytes : List UInt8} (h : next? bytes = none) :
    unfinished (bytes.dropWhile (· ≠ opener)) = unfinished bytes := by
  rw [unfinished_of_none (next?_dropWhile h), unfinished_of_none h, dropWhile_dropWhile]

/-- The unfinished markup is a part of the bytes, hence not longer. -/
theorem length_unfinished_le (bytes : List UInt8) :
    (unfinished bytes).length ≤ bytes.length := by
  cases h : next? bytes with
  | none =>
    rw [unfinished_of_none h]
    exact (List.dropWhile_sublist _).length_le
  | some t =>
    have hlt := length_next? h
    rw [unfinished_of_some h]
    exact Nat.le_trans (length_unfinished_le t.rest) (Nat.le_of_lt hlt)
  termination_by bytes.length
  decreasing_by exact hlt

/-- Bytes that are nothing but unfinished markup have no complete markup. -/
theorem next?_of_unfinished_eq {bytes : List UInt8} (h : unfinished bytes = bytes) :
    next? bytes = none := by
  cases hn : next? bytes with
  | none => rfl
  | some t =>
    have hlt := length_next? hn
    have hle := length_unfinished_le t.rest
    rw [← unfinished_of_some hn, h] at hle
    omega

/-- `scan?` never finds empty markup, if no opening mark is empty. -/
theorem scan?_ne_nil {marks : List (List UInt8 × List UInt8)} {kind : Markup}
    {bytes body rest : List UInt8} (hm : ∀ m ∈ marks, m.1 ≠ [])
    (h : scan? marks bytes = some (kind, body, rest)) : body ≠ [] := by
  induction marks with
  | nil =>
    cases bytes with
    | nil => cases h
    | cons b bytes =>
      obtain ⟨p, -, he⟩ := Option.map_eq_some_iff.1 h
      cases he
      exact List.cons_ne_nil _ _
  | cons m others ih =>
    obtain ⟨opening, closing⟩ := m
    unfold scan? at h
    split at h
    · cases h
    · split at h
      · -- The markup has at least its opener.
        obtain ⟨p, -, he⟩ := Option.map_eq_some_iff.1 h
        cases he
        exact List.append_ne_nil_of_left_ne_nil (hm _ List.mem_cons_self) _
      · exact ih (fun m' h' => hm m' (List.mem_cons_of_mem _ h')) h

/-- `next?` never finds empty markup. -/
theorem body_ne_nil {bytes : List UInt8} {t : Tag} (h : next? bytes = some t) : t.body ≠ [] := by
  have hmarks : ∀ m ∈ skipped, m.1 ≠ [] := by decide
  obtain ⟨p, hp, rfl⟩ := Option.map_eq_some_iff.1 h
  exact scan?_ne_nil hmarks hp

end Tag

namespace Framer

/-! ### One step -/

/-- The invariant inside a call: without a message under way the framer is not beneath the
    message level, and a message under way is captured from its first byte on and open
    beneath that level. -/
structure Sound (f : Framer) : Prop where
  idle : f.captured = none → f.depth ≤ f.level
  busy : ∀ c, f.captured = some c → c ≠ [] ∧ f.level < f.depth

/-- The invariant between two calls: `Sound`, and the bytes that belong to no message have been
    dropped. -/
structure Settled (f : Framer) : Prop extends Sound f where
  dropped : f.captured = none → f.skipped = 0

/-- The framer behind a piece of markup that neither begins a message nor ends one. -/
def beyond (f : Framer) (t : Tag) (depth : Nat) : Framer :=
  { f.pass (t.gap ++ t.body) with ahead := t.rest, depth }

/-- `pass` changes only `skipped` and `captured`. -/
theorem pass_eq (f : Framer) (bytes : List UInt8) : f.pass bytes =
    { f with
      skipped := (f.pass bytes).skipped
      captured := f.captured.map (· ++ bytes) } := by
  obtain ⟨level, limit, skipped, captured, ahead, depth⟩ := f
  cases captured with
  | none => rfl
  | some message => rfl

@[simp] theorem level_pass (f : Framer) (bytes : List UInt8) : (f.pass bytes).level = f.level := by
  rw [pass_eq]

@[simp] theorem limit_pass (f : Framer) (bytes : List UInt8) : (f.pass bytes).limit = f.limit := by
  rw [pass_eq]

@[simp] theorem depth_pass (f : Framer) (bytes : List UInt8) : (f.pass bytes).depth = f.depth := by
  rw [pass_eq]

/-- `pass` adds the bytes to a message that is under way, if there is one. -/
theorem captured_pass (f : Framer) (bytes : List UInt8) :
    (f.pass bytes).captured = f.captured.map (· ++ bytes) := by
  rw [pass_eq]

/-- `beyond` changes nothing but `skipped`, `captured`, `ahead` and `depth`. -/
theorem beyond_eq (f : Framer) (t : Tag) (depth : Nat) : f.beyond t depth =
    { f with
      skipped := (f.pass (t.gap ++ t.body)).skipped
      captured := f.captured.map (· ++ (t.gap ++ t.body))
      ahead := t.rest
      depth } := by
  rw [beyond, pass_eq]

theorem beyond_depth (f : Framer) (t : Tag) :
    { f.pass (t.gap ++ t.body) with ahead := t.rest } = f.beyond t f.depth := by
  rw [beyond, pass_eq]

/-- `beyond` keeps `Sound` if the new depth suits what was captured. -/
theorem sound_beyond {f : Framer} {t : Tag} {depth : Nat}
    (hidle : f.captured = none → depth ≤ f.level)
    (hbusy : ∀ c, f.captured = some c → c ≠ [] ∧ f.level < depth) : (f.beyond t depth).Sound := by
  rw [beyond_eq]
  constructor
  · intro h
    exact hidle (Option.map_eq_none_iff.1 h)
  · intro c hc
    obtain ⟨d, hd, rfl⟩ := Option.map_eq_some_iff.1 hc
    exact ⟨List.append_ne_nil_of_left_ne_nil (hbusy d hd).1 _, (hbusy d hd).2⟩

/-- A call on `f` goes on behind the markup `t` as the framer `g`, which is further ahead in the
    same stream. -/
structure GoesOn (f : Framer) (t : Tag) (g : Framer) : Prop where
  next : f.next = g.next
  ahead : g.ahead = t.rest
  level : g.level = f.level
  limit : g.limit = f.limit
  sound : g.Sound

/-- A call on `f` ends with the markup `t` and an answer: what was captured and everything up to
    the markup is gone. -/
structure EndsWith (f : Framer) (t : Tag) (depth : Nat) : Prop where
  answer : f.next.1 ≠ .ok none
  framer : f.next.2 = { f with skipped := 0, captured := none, ahead := t.rest, depth }
  depth : depth ≤ f.level

/-- A call that goes on as `beyond` says, goes on in the sense of `GoesOn`. -/
theorem goesOn_beyond {f : Framer} {t : Tag} {depth : Nat} (h : f.next = (f.beyond t depth).next)
    (hs : (f.beyond t depth).Sound) : f.GoesOn t (f.beyond t depth) := by
  refine ⟨h, ?_, ?_, ?_, hs⟩ <;> rw [beyond_eq]

section Step

variable {f : Framer} {t : Tag}

/-- The equation of `next` where a piece of markup is complete, by the kind of the markup. -/
theorem next_eq (h : Tag.next? f.ahead = some t) : f.next =
    match t.kind with
    | .skip => (f.beyond t f.depth).next
    | .openTag =>
      if f.depth = f.level then
        { f.pass t.gap with ahead := t.rest, captured := some t.body, depth := f.depth + 1 }.next
      else (f.beyond t (f.depth + 1)).next
    | .selfClosing =>
      if f.depth = f.level then { f.pass t.gap with ahead := t.rest }.handOut t.body
      else (f.beyond t f.depth).next
    | .closeTag =>
      if f.depth = 0 then (.error .unbalancedClosingTag, (f.beyond t f.depth).recover)
      else
        match (f.beyond t (f.depth - 1)).captured with
        | some message =>
          if f.depth - 1 = f.level then (f.beyond t (f.depth - 1)).handOut message
          else (f.beyond t (f.depth - 1)).next
        | none => (f.beyond t (f.depth - 1)).next := by
  have hnext := Framer.next.eq_1 f
  split at hnext
  · next heq =>
    rw [h] at heq
    cases heq
  next u heq =>
  rw [h] at heq
  cases heq
  rw [hnext]
  dsimp only
  rw [beyond_depth]
  -- Only a closing tag looks at what was captured.
  cases t.kind with
  | skip => rfl
  | openTag => rfl
  | selfClosing => rfl
  | closeTag =>
    obtain ⟨level, limit, skipped, captured, ahead, depth⟩ := f
    cases captured with
    | none => rfl
    | some message => rfl

variable (hf : f.Sound) (h : Tag.next? f.ahead = some t)
include hf h

/-- An opening tag never ends a call: it begins a message at the message level, and is passed
    elsewhere. -/
theorem next_of_openTag (hk : t.kind = .openTag) : ∃ g, f.GoesOn t g := by
  have hnext := next_eq h
  rw [hk] at hnext
  dsimp only at hnext
  split at hnext
  · next hd =>
    -- A message begins.
    refine ⟨_, hnext, rfl, level_pass f t.gap, limit_pass f t.gap, ⟨nofun, ?_⟩⟩
    intro c hc
    cases hc
    refine ⟨Tag.body_ne_nil h, ?_⟩
    rw [level_pass, hd]
    exact Nat.lt_succ_self _
  · next hd =>
    refine ⟨_, goesOn_beyond hnext (sound_beyond ?_ ?_)⟩
    · intro hc
      have hle : f.depth ≤ f.level := hf.idle hc
      omega
    · intro c hc
      exact ⟨(hf.busy c hc).1, Nat.lt_succ_of_lt (hf.busy c hc).2⟩

/-- A tag that closes itself is a message at the message level, and is passed elsewhere. -/
theorem next_of_selfClosing (hk : t.kind = .selfClosing) :
    (∃ g, f.GoesOn t g) ∨ ∃ depth, f.EndsWith t depth := by
  have hnext := next_eq h
  rw [hk] at hnext
  dsimp only at hnext
  split at hnext
  · next hd =>
    refine .inr ⟨f.depth, ?_, ?_, Nat.le_of_eq hd⟩
    · intro hnone
      rw [hnext] at hnone
      cases hnone
    · rw [hnext, handOut, pass_eq]
  · exact .inl ⟨_, goesOn_beyond hnext (sound_beyond hf.idle hf.busy)⟩

/-- A closing tag ends the call if it ends a message, or if there is nothing to close; otherwise it
    is passed. -/
theorem next_of_closeTag (hk : t.kind = .closeTag) :
    (∃ g, f.GoesOn t g) ∨ ∃ depth, f.EndsWith t depth := by
  have hnext := next_eq h
  have hcaptured : (f.beyond t (f.depth - 1)).captured = f.captured.map (· ++ (t.gap ++ t.body)) :=
    captured_pass f _
  rw [hk] at hnext
  dsimp only at hnext
  split at hnext
  · -- There is nothing to be closed.
    refine .inr ⟨min f.depth f.level, ?_, ?_, Nat.min_le_right _ _⟩
    · intro hnone
      rw [hnext] at hnone
      cases hnone
    · rw [hnext, recover, beyond_eq]
  split at hnext
  · next message hm =>
    obtain ⟨c, hc, -⟩ := Option.map_eq_some_iff.1 (hcaptured.symm.trans hm)
    split at hnext
    · next hd =>
      -- The message ends.
      refine .inr ⟨f.depth - 1, ?_, ?_, Nat.le_of_eq hd⟩
      · intro hnone
        rw [hnext] at hnone
        cases hnone
      · rw [hnext, handOut, beyond_eq]
    · next hd =>
      refine .inl ⟨_, goesOn_beyond hnext (sound_beyond ?_ ?_)⟩
      · intro hc'
        rw [hc] at hc'
        cases hc'
      · intro c' hc'
        obtain ⟨hne, hlt⟩ := hf.busy c' hc'
        exact ⟨hne, by omega⟩
  · next hm =>
    have hc := Option.map_eq_none_iff.1 (hcaptured.symm.trans hm)
    refine .inl ⟨_, goesOn_beyond hnext (sound_beyond ?_ ?_)⟩
    · intro _
      have hle : f.depth ≤ f.level := hf.idle hc
      omega
    · intro c' hc'
      rw [hc] at hc'
      cases hc'

/-- **Complete markup.** A call passes it and goes on with less ahead, or ends with it. -/
theorem next_of_tag : (∃ g, f.GoesOn t g) ∨ ∃ depth, f.EndsWith t depth := by
  cases hk : t.kind with
  | skip =>
    have hnext := next_eq h
    rw [hk] at hnext
    exact .inl ⟨_, goesOn_beyond hnext (sound_beyond hf.idle hf.busy)⟩
  | openTag => exact .inl (next_of_openTag hf h hk)
  | selfClosing => exact next_of_selfClosing hf h hk
  | closeTag => exact next_of_closeTag hf h hk

end Step

/-! ### The end of the bytes -/

/-- A call that finds no complete markup waits. -/
theorem next_of_none {f : Framer} (h : Tag.next? f.ahead = none) : f.next = f.wait := by
  rw [Framer.next.eq_1]
  split
  · rfl
  · next heq =>
    rw [h] at heq
    cases heq

/-- The framer that waits: text up to the first opener is dropped, or added to the message under
    way. -/
def waiting (f : Framer) : Framer :=
  match f.captured with
  | none => { f with skipped := 0, ahead := f.ahead.dropWhile (· ≠ Tag.opener) }
  | some c =>
    { f with
      captured := some (c ++ f.ahead.takeWhile (· ≠ Tag.opener))
      ahead := f.ahead.dropWhile (· ≠ Tag.opener) }

/-- A call that waits gives up if more bytes wait than the limit, and finds no message
    otherwise. -/
theorem wait_eq (f : Framer) : f.wait =
    if f.limit < f.waiting.pending then (.error (.messageTooLarge f.limit), f.waiting.recover)
    else (.ok none, f.waiting) := by
  obtain ⟨level, limit, skipped, captured, ahead, depth⟩ := f
  cases captured with
  | none => rfl
  | some message => rfl
/-- Without a message under way, text is dropped. -/
theorem waiting_of_idle {f : Framer} (h : f.captured = none) : f.waiting =
    { f with skipped := 0, ahead := f.ahead.dropWhile (· ≠ Tag.opener) } := by
  rw [waiting, h]

/-- A framer that waits has only the unfinished markup ahead. -/
theorem ahead_waiting (f : Framer) :
    f.waiting.ahead = f.ahead.dropWhile (· ≠ Tag.opener) := by
  unfold waiting
  split <;> rfl

theorem limit_waiting (f : Framer) : f.waiting.limit = f.limit := by
  unfold waiting
  split <;> rfl

/-- A framer that waits is `Settled`. -/
theorem settled_waiting {f : Framer} (hf : f.Sound) : f.waiting.Settled := by
  unfold waiting
  split
  · next h =>
    refine ⟨⟨fun _ => hf.idle h, ?_⟩, fun _ => rfl⟩
    intro c hc
    rw [h] at hc
    cases hc
  · next c h =>
    refine ⟨⟨nofun, ?_⟩, nofun⟩
    intro d hd
    cases hd
    exact ⟨List.append_ne_nil_of_left_ne_nil (hf.busy c h).1 _, (hf.busy c h).2⟩

/-- A framer that has given up is `Settled`. -/
theorem settled_recover (f : Framer) : f.recover.Settled :=
  ⟨⟨fun _ => Nat.min_le_right _ _, nofun⟩, fun _ => rfl⟩

/-! ### One call -/

/-- What one call, answering `a`, does to a framer `f`: the unfinished markup at the end stays the
    same, what is ahead gets shorter if markup is complete, a call that finds no message leaves no
    more unfinished markup than the limit, and after any other answer nothing is captured. -/
structure Answered (f : Framer) (a : Except FramingError (Option (List UInt8))) (f' : Framer) :
    Prop where
  limit : f'.limit = f.limit
  settled : f'.Settled
  unfinished : Tag.unfinished f'.ahead = Tag.unfinished f.ahead
  shorter : f'.ahead.length ≤ f.ahead.length
  progress : ∀ t, Tag.next? f.ahead = some t → f'.ahead.length < f.ahead.length
  quiet : a = .ok none → (Tag.unfinished f.ahead).length ≤ f.limit
  loud : a ≠ .ok none → f'.captured = none

/-- `Answered` for a call that finds no complete markup. -/
theorem answered_of_none {f : Framer} (hf : f.Sound) (h : Tag.next? f.ahead = none) :
    Answered f f.next.1 f.next.2 := by
  have hahead := ahead_waiting f
  have hunfinished : Tag.unfinished f.waiting.ahead = Tag.unfinished f.ahead := by
    rw [hahead, Tag.unfinished_dropWhile h]
  have hshorter : f.waiting.ahead.length ≤ f.ahead.length := by
    rw [hahead]
    exact (List.dropWhile_sublist _).length_le
  have hprogress : ∀ (f' : Framer) t, Tag.next? f.ahead = some t →
      f'.ahead.length < f.ahead.length := by
    intro f' t ht
    rw [h] at ht
    cases ht
  rw [next_of_none h, wait_eq]
  split
  · exact ⟨limit_waiting f, settled_recover _, hunfinished, hshorter, hprogress _, nofun,
      fun _ => rfl⟩
  · next hle =>
    refine ⟨limit_waiting f, settled_waiting hf, hunfinished, hshorter, hprogress _, ?_,
      fun ha => absurd rfl ha⟩
    -- What is pending includes the unfinished markup, and is not too long.
    intro _
    rw [Tag.unfinished_of_none h, ← hahead]
    unfold pending at hle
    omega

/-- **Every call is `Answered`.** By recursion on the number of bytes ahead, which each complete
    piece of markup makes smaller. -/
theorem answered_next {f : Framer} (hf : f.Sound) : Answered f f.next.1 f.next.2 := by
  cases h : Tag.next? f.ahead with
  | none => exact answered_of_none hf h
  | some t =>
    have hlt := Tag.length_next? h
    rcases next_of_tag hf h with ⟨g, hg⟩ | ⟨depth, he⟩
    · -- The call goes on with fewer bytes ahead, which the recursion is on.
      have hglt : g.ahead.length < f.ahead.length := by rwa [hg.ahead]
      have hans := answered_next hg.sound
      have hshorter := Nat.lt_of_le_of_lt hans.shorter hglt
      have hunfinished : Tag.unfinished g.ahead = Tag.unfinished f.ahead := by
        rw [hg.ahead, Tag.unfinished_of_some h]
      rw [hg.next]
      refine ⟨hans.limit.trans hg.limit, hans.settled, hans.unfinished.trans hunfinished,
        Nat.le_of_lt hshorter, fun _ _ => hshorter, ?_, hans.loud⟩
      intro ha
      rw [← hunfinished, ← hg.limit]
      exact hans.quiet ha
    · -- The call ends with this piece of markup.
      rw [he.framer]
      exact ⟨rfl, ⟨⟨fun _ => he.depth, nofun⟩, fun _ => rfl⟩, (Tag.unfinished_of_some h).symm,
        Nat.le_of_lt hlt, fun _ _ => hlt, fun ha => absurd ha he.answer, fun _ => rfl⟩
  termination_by f.ahead.length

/-- The framer stands before unfinished markup that is longer than the limit, and has nothing else
    to drop. -/
structure Stuck (f : Framer) : Prop where
  idle : f.captured = none
  whole : Tag.unfinished f.ahead = f.ahead
  large : f.limit < f.ahead.length

/-- A `Stuck` framer answers `messageTooLarge` and stays as it is, so every further call answers
    the same. -/
theorem next_of_stuck {f : Framer} (hf : f.Settled) (h : f.Stuck) :
    f.next = (.error (.messageTooLarge f.limit), f) := by
  have hnone := Tag.next?_of_unfinished_eq h.whole
  -- Neither waiting nor giving up has anything to drop.
  have hwaiting : f.waiting = f := by
    rw [waiting_of_idle h.idle, ← Tag.unfinished_of_none hnone, h.whole, ← hf.dropped h.idle]
  have hpending : f.pending = f.ahead.length := by
    rw [pending, h.idle]
    exact Nat.zero_add _
  have hrecover : f.recover = f := by
    rw [recover, Nat.min_eq_left (hf.idle h.idle), ← h.idle, ← hf.dropped h.idle]
  have hlarge : f.limit < f.pending := by
    rw [hpending]
    exact h.large
  rw [next_of_none hnone, wait_eq, hwaiting, if_pos hlarge, hrecover]

/-- A framer that is not `Stuck`, with no message under way and too many bytes waiting, drops some
    text. -/
theorem ahead_waiting_lt {f : Framer} (hc : f.captured = none) (h : Tag.next? f.ahead = none)
    (hlarge : f.limit < f.waiting.pending) (hs : ¬f.Stuck) :
    f.waiting.ahead.length < f.ahead.length := by
  refine Nat.lt_of_not_le ?_
  intro hle
  -- If nothing is dropped, all that is there is unfinished markup.
  have hsuffix := List.dropWhile_suffix (l := f.ahead) (· ≠ Tag.opener)
  rw [ahead_waiting] at hle
  have heq : f.ahead.dropWhile (· ≠ Tag.opener) = f.ahead :=
    hsuffix.eq_of_length (Nat.le_antisymm hsuffix.length_le hle)
  have hpending : f.waiting.pending = f.ahead.length := by
    rw [waiting_of_idle hc, heq, pending, hc]
    exact Nat.zero_add _
  exact hs ⟨hc, (Tag.unfinished_of_none h).trans heq, hpending ▸ hlarge⟩

/-- **Progress.** A framer that is not `Stuck` has fewer bytes in its buffer after every call that
    answers a message or an error. -/
theorem buffered_next_lt {f : Framer} (hf : f.Settled) (ha : f.next.1 ≠ .ok none)
    (hs : ¬f.Stuck) : f.next.2.buffered < f.buffered := by
  have hans := answered_next hf.toSound
  have hcaptured := hans.loud ha
  have hbuffered : f.next.2.buffered = f.next.2.ahead.length := by
    rw [buffered, hcaptured, hans.settled.dropped hcaptured]
    exact Nat.zero_add _
  have hshorter := hans.shorter
  rw [hbuffered, buffered]
  cases h : Tag.next? f.ahead with
  | some t =>
    have hlt := hans.progress t h
    omega
  | none =>
    cases hc : f.captured with
    | some c =>
      -- What was captured is gone with the message.
      have hpos := List.length_pos_iff.2 (hf.busy c hc).1
      rw [Option.getD_some]
      omega
    | none =>
      rw [next_of_none h, wait_eq] at ha ⊢
      split at ha
      · next hlarge =>
        rw [if_pos hlarge]
        exact Nat.lt_of_lt_of_le (ahead_waiting_lt hc h hlarge hs) (Nat.le_add_left _ _)
      · exact absurd rfl ha

/-! ### Runs -/

/-- What may happen to a framer: it is given bytes, asked for a message, or reset. -/
inductive Event where
  | extend (bytes : List UInt8)
  | next
  | reset

/-- The framer after an event. -/
def Event.step (f : Framer) : Event → Framer
  | extend bytes => f.extend bytes
  | next => f.nextMessage.2
  | reset => f.reset

/-- A framer that no bytes have reached. -/
def start (level limit : Nat) : Framer := { level, limit }

/-- The framer after some events. -/
def run (f : Framer) (events : List Event) : Framer := events.foldl Event.step f

/-- Every event keeps `Settled` and the limit. -/
theorem settled_step {f : Framer} (hf : f.Settled) (e : Event) :
    (e.step f).Settled ∧ (e.step f).limit = f.limit := by
  cases e with
  | extend bytes => exact ⟨⟨⟨hf.idle, hf.busy⟩, hf.dropped⟩, rfl⟩
  | next =>
    have hans := answered_next hf.toSound
    exact ⟨hans.settled, hans.limit⟩
  | reset => exact ⟨⟨⟨fun _ => Nat.zero_le _, nofun⟩, fun _ => rfl⟩, rfl⟩

/-- Every run keeps `Settled` and the limit. -/
theorem settled_run {f : Framer} (hf : f.Settled) (events : List Event) :
    (f.run events).Settled ∧ (f.run events).limit = f.limit := by
  induction events generalizing f with
  | nil => exact ⟨hf, rfl⟩
  | cons e rest ih =>
    obtain ⟨hstep, hlimit⟩ := settled_step hf e
    obtain ⟨hrest, hlimit'⟩ := ih hstep
    exact ⟨hrest, hlimit'.trans hlimit⟩

theorem settled_start (level limit : Nat) : (start level limit).Settled :=
  ⟨⟨fun _ => Nat.zero_le _, nofun⟩, fun _ => rfl⟩

/-! ### Draining -/

/-- The framer after `n` calls of `nextMessage`, whatever these answered. -/
def drained : Nat → Framer → Framer
  | 0, f => f
  | n + 1, f => drained n f.nextMessage.2

theorem nextMessage_eq_none {f : Framer} : f.nextMessage.1 = .ok none ↔ f.next.1 = .ok none := by
  unfold nextMessage
  rcases f.next with ⟨e | - | message, f'⟩
  · exact ⟨nofun, nofun⟩
  · exact ⟨fun _ => rfl, fun _ => rfl⟩
  · exact ⟨nofun, nofun⟩

/-- If some call finds no message, the unfinished markup at the end of the bytes is no longer than
    the limit, as no call changes it. -/
theorem unfinished_le_of_drained {f : Framer} (hf : f.Settled) {n : Nat}
    (h : (f.drained n).nextMessage.1 = .ok none) :
    (Tag.unfinished f.ahead).length ≤ f.limit := by
  have hans := answered_next hf.toSound
  induction n generalizing f with
  | zero => exact hans.quiet (nextMessage_eq_none.1 h)
  | succ n ih =>
    have hle := ih hans.settled h (answered_next hans.settled.toSound)
    rwa [hans.unfinished, hans.limit] at hle

/-- If the unfinished markup is no longer than the limit, the framer never becomes `Stuck`, and the
    buffer gets shorter until a call finds no message. -/
theorem drained_of_unfinished_le {f : Framer} (hf : f.Settled)
    (h : (Tag.unfinished f.ahead).length ≤ f.limit) :
    ∃ n, (f.drained n).nextMessage.1 = .ok none := by
  by_cases ha : f.next.1 = .ok none
  · exact ⟨0, nextMessage_eq_none.2 ha⟩
  · have hstuck : ¬f.Stuck := by
      intro hs
      have hlarge := hs.large
      rw [hs.whole] at h
      omega
    -- The call leaves the unfinished markup as it is, so the recursion goes on with less.
    have hans := answered_next hf.toSound
    have hlt := buffered_next_lt hf ha hstuck
    obtain ⟨n, hn⟩ := drained_of_unfinished_le hans.settled
      (by rwa [hans.unfinished, hans.limit])
    exact ⟨n + 1, hn⟩
  termination_by f.buffered

/-- **When draining ends.** After every run, asking for messages until there is none ends if and
    only if the unfinished markup at the end of the bytes is no longer than the limit.  A call that
    answers a message or an error makes the buffer shorter if and only if the framer is not
    `Stuck`. -/
theorem drain_iff (level limit : Nat) (events : List Event) :
    let f := (start level limit).run events
    ((∃ n, (f.drained n).nextMessage.1 = .ok none) ↔ (Tag.unfinished f.ahead).length ≤ limit) ∧
      (f.nextMessage.1 = .ok none ∨ (f.nextMessage.2.buffered < f.buffered ↔ ¬f.Stuck)) := by
  intro f
  obtain ⟨hf, hlimit⟩ : f.Settled ∧ f.limit = limit :=
    settled_run (settled_start level limit) events
  refine ⟨⟨?_, ?_⟩, ?_⟩
  · rintro ⟨n, hn⟩
    rw [← hlimit]
    exact unfinished_le_of_drained hf hn
  · intro h
    rw [← hlimit] at h
    exact drained_of_unfinished_le hf h
  · by_cases ha : f.next.1 = .ok none
    · exact .inl (nextMessage_eq_none.2 ha)
    · refine .inr ⟨?_, fun hs => buffered_next_lt hf ha hs⟩
      intro hlt hs
      -- A framer that is stuck is left as it was, so the buffer cannot be shorter.
      have hsame : f.nextMessage.2 = f := congrArg Prod.snd (next_of_stuck hf hs)
      rw [hsame] at hlt
      exact Nat.lt_irrefl _ hlt

/-- Draining does not always end: with twenty bytes of an unfinished tag and a limit of sixteen,
    every call answers the same error and drops nothing. -/
theorem drain_endless : ¬∃ n, (((start 0 16).run
    [.extend (asciiBytes "<aaaaaaaaaaaaaaaaaaa".toList)]).drained n).nextMessage.1 = .ok none := by
  rintro ⟨n, hn⟩
  have hnone : Tag.next? (asciiBytes "<aaaaaaaaaaaaaaaaaaa".toList) = none := by decide
  have hle := unfinished_le_of_drained
    (settled_run (settled_start 0 16) [.extend (asciiBytes "<aaaaaaaaaaaaaaaaaaa".toList)]).1 hn
  change (Tag.unfinished (asciiBytes "<aaaaaaaaaaaaaaaaaaa".toList)).length ≤ 16 at hle
  rw [Tag.unfinished_of_none hnone] at hle
  exact absurd hle (by decide)

end Framer

end Observatory
