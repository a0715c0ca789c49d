import Observatory.Proofs.Indi.Nesting

/-!
# After an oversized message

A framer that waits for too long a message gives up.  If no message is under way, it drops nothing
that matters: the markup that it waits for is still ahead.  But if one is, it takes the
elements of that message that are open for closed, although their closing tags are still to
come.  From then on it is less deep than the stream is, for good: where a message of the stream
begins, it is above the message level, and what it hands out are pieces of messages.

* `Framer.GivesUp`: a call gives up while a message is under way;
* `Framer.next_withLimit`: what the limit does to a call;
* `Framer.InStep`, `Framer.Adrift`: the framer is as deep as the stream, or less deep, with
  `Framer.InStep.next` and `Framer.Adrift.next` for what a call makes of it;
* `Framer.held_run`: what is handed out is taken from what was brought;
* `Framer.run_of_not_givesUp`: as long as no message is given up, the limit does not matter;
* `Framer.messages_of_drains`: nor does it matter when the messages are asked for;
* `Framer.siblings_run`: all messages are handed out until one is given up, and none after
  that.
-/

namespace Observatory

namespace Framer

open Tag (Nests)

variable {f g : Framer} {t : Tag} {more : List UInt8}

/-! ### The limit -/

/-- The same framer with another limit. -/
def withLimit (f : Framer) (n : Nat) : Framer := { f with limit := n }

/-- A call gives up while a message is under way: it answers `messageTooLarge`, and with room for
    all that waits it would have kept the beginning of a message. -/
def GivesUp (f : Framer) : Prop :=
  f.next.1 = .error (.messageTooLarge f.limit) ∧
    (f.withLimit f.pending).next.2.captured.isSome = true

/-- `meet` does not depend on the limit. -/
theorem meet_withLimit (f : Framer) (t : Tag) (n : Nat) :
    (f.withLimit n).meet t = ((f.meet t).1, (f.meet t).2.withLimit n) := by
  obtain ⟨level, limit, skipped, captured, ahead, depth⟩ := f
  cases hk : t.kind with
  | skip => cases captured <;> simp [meet, withLimit, beyond, pass, hk]
  | openTag => by_cases hd : depth = level <;> cases captured <;>
      simp [meet, withLimit, beyond, pass, hk, hd]
  | selfClosing => by_cases hd : depth = level <;> cases captured <;>
      simp [meet, withLimit, beyond, pass, hk, hd]
  | closeTag => by_cases h0 : depth = 0 <;> by_cases hd : depth - 1 = level <;> cases captured <;>
      simp [meet, withLimit, beyond, pass, recover, hk, h0, hd]

/-- The limit decides only whether a call that waits gives up: with another limit that is large
    enough, the call waits instead, and in all other cases it does the same. -/
theorem next_withLimit (f : Framer) {n : Nat} (hn : f.pending ≤ n) :
    ((f.withLimit n).next.1 = .ok none ∧ f.limit < (f.withLimit n).next.2.pending ∧ f.next =
        (.error (.messageTooLarge f.limit), (f.withLimit n).next.2.recover.withLimit f.limit)) ∨
      f.next.1 ≠ .error (.messageTooLarge f.limit) ∧
        f.next = ((f.withLimit n).next.1, (f.withLimit n).next.2.withLimit f.limit) := by
  -- The limit of `f` is what the framer had before.
  have hback : ∀ f' : Framer, f'.limit = f.limit → (f'.withLimit n).withLimit f.limit = f' := by
    intro f' hlimit
    rw [withLimit, withLimit, ← hlimit]
  induction f using nextInduction with
  | waits f hnone =>
    have hwaiting : (f.withLimit n).waiting = f.waiting.withLimit n := by
      obtain ⟨level, limit, skipped, captured, ahead, depth⟩ := f
      cases captured <;> rfl
    have hroom := (next_of_pending_le (f := f.withLimit n) hn).1 n
    rw [next_of_none (f := f.withLimit n) hnone, wait_eq, hwaiting] at hroom ⊢
    rw [next_of_none hnone, wait_eq]
    split at hroom
    · exact absurd rfl hroom
    · next hle =>
      rw [if_neg hle]
      split
      · next hlarge =>
        exact .inl ⟨rfl, hlarge, congrArg _ (hback f.waiting.recover (limit_waiting f)).symm⟩
      · exact .inr ⟨nofun, congrArg _ (hback f.waiting (limit_waiting f)).symm⟩
  | ends f t a f' ht hm =>
    have hlimit := (f.meet_bounds ht).1
    have hmeet := f.meet_withLimit t n
    rw [hm] at hlimit hmeet
    rw [next_ends ht hm, next_ends (f := f.withLimit n) ht hmeet]
    refine .inr ⟨?_, congrArg _ (hback f' hlimit).symm⟩
    intro hlarge
    cases a with
    | ok message => cases hlarge
    | error e =>
      exact ne_messageTooLarge_of_meet f t hm f.limit (congrArg _ (Except.error.inj hlarge))
  | goesOn f t f' ht hm ih =>
    obtain ⟨hlimit, hpending⟩ := f.meet_bounds ht
    have hmeet := f.meet_withLimit t n
    rw [hm] at hlimit hpending hmeet
    rw [next_goesOn ht hm, next_goesOn (f := f.withLimit n) ht hmeet, ← hlimit]
    exact ih (Nat.le_trans hpending hn) (hlimit ▸ hback)

/-- Two limits that are large enough for what waits make no difference. -/
theorem next_withLimit_of_le {n k : Nat} (hn : f.pending ≤ n) (hk : f.pending ≤ k) :
    (f.withLimit n).next = ((f.withLimit k).next.1, (f.withLimit k).next.2.withLimit n) := by
  rcases (f.withLimit n).next_withLimit hk with ⟨-, -, hnext⟩ | ⟨-, hnext⟩
  · exact absurd (congrArg Prod.fst hnext) ((next_of_pending_le (f := f.withLimit n) hn).1 n)
  · exact hnext

/-- With more room, a call that finds no message finds none either. -/
theorem quiet_withLimit {n : Nat} (hn : f.pending ≤ n) (h : f.next.1 = .ok none) :
    (f.withLimit n).next.1 = .ok none := by
  rcases f.next_withLimit hn with ⟨hquiet, -⟩ | ⟨-, hnext⟩
  · exact hquiet
  · rwa [hnext] at h

/-- With no message under way, `recover` changes nothing. -/
theorem recover_of_idle (hf : f.Settled) (hc : f.captured = none) : f.recover = f := by
  rw [recover, Nat.min_eq_left (hf.idle hc), ← hc, ← hf.dropped hc]

/-! ### In step -/

theorem level_meet (f : Framer) (t : Tag) : (f.meet t).2.level = f.level := by
  rw [Framer.meet]
  repeat' split
  all_goals simp [beyond_eq, recover]

theorem level_waiting (f : Framer) : f.waiting.level = f.level := by
  unfold waiting
  split <;> rfl

theorem level_next (f : Framer) : f.next.2.level = f.level := by
  induction f using nextInduction with
  | waits f hnone =>
    rw [next_of_none hnone, wait_eq]
    split <;> exact level_waiting f
  | ends f t a f' ht hm =>
    have hlevel := f.level_meet t
    rw [hm] at hlevel
    rw [next_ends ht hm]
    exact hlevel
  | goesOn f t f' ht hm ih =>
    have hlevel := f.level_meet t
    rw [hm] at hlevel
    rw [next_goesOn ht hm]
    exact ih.trans hlevel

/-- `f.InStep more`: with `more` bytes to come, the framer is at the depth from which the bytes
    nest. -/
def InStep (f : Framer) (more : List UInt8) : Prop := Nests f.level f.depth (f.ahead ++ more)

/-- `f.Adrift more`: the framer is less deep than the stream, and what it holds of a message began
    inside of another message. -/
structure Adrift (f : Framer) (more : List UInt8) : Prop where
  shallow : ∃ d, f.depth < d ∧ f.level ≤ d ∧ Nests f.level d (f.ahead ++ more)
  inside : ∀ c, f.captured = some c → ∃ d, f.level < d ∧ Nests f.level d (c ++ (f.ahead ++ more))

/-- `InStep` is kept when bytes that were to come arrive. -/
theorem InStep.extend {bytes : List UInt8} (h : f.InStep (bytes ++ more)) :
    (f.extend bytes).InStep more := by
  rw [InStep, ← List.append_assoc] at h
  exact h

/-- `Adrift` is kept when bytes that were to come arrive. -/
theorem Adrift.extend {bytes : List UInt8} (h : f.Adrift (bytes ++ more)) :
    (f.extend bytes).Adrift more := by
  obtain ⟨shallow, inside⟩ := h
  rw [← List.append_assoc] at shallow inside
  exact ⟨shallow, inside⟩

/-- `Adrift` is kept behind markup that is passed, at a depth less than that of the stream
    there. -/
theorem Adrift.beyond (h : f.Adrift more) (ht : Tag.next? f.ahead = some t) {depth : Nat}
    (shallow : ∃ d, depth < d ∧ f.level ≤ d ∧ Nests f.level d (t.rest ++ more)) :
    (f.beyond t depth).Adrift more := by
  rw [beyond_eq]
  refine ⟨shallow, fun c hc => ?_⟩
  obtain ⟨b, hb, rfl⟩ := Option.map_eq_some_iff.1 hc
  have hinside := h.inside b hb
  rw [← Tag.append_of_next? ht] at hinside
  simpa using hinside

theorem elim_none {α : Type} {a : α} {P : Prop} (h : none = some a) : P :=
  absurd h.symm (Option.some_ne_none a)

/-- `Adrift` is kept by `meet`, and a message that the markup ends began inside of another.  The
    framer never catches up, since the stream does not go above the message level. -/
theorem Adrift.meet (h : f.Adrift more) (hlevel : 0 < f.level) (ht : Tag.next? f.ahead = some t) :
    (f.meet t).2.Adrift more ∧
      ∀ m, (f.meet t).1 = some (.ok m) →
        ∃ d, f.level < d ∧ Nests f.level d (m ++ ((f.meet t).2.ahead ++ more)) := by
  obtain ⟨d, hd, hle, hnests⟩ := h.shallow
  have hmore := Tag.next?_append ht more
  have hbody : Nests f.level d (t.body ++ (t.rest ++ more)) := hnests.body hmore
  rw [Framer.meet]
  cases hk : t.kind with
  | skip =>
    have hbehind : Nests f.level d (t.rest ++ more) := hnests.passed hmore (.inl hk)
    exact ⟨h.beyond ht ⟨d, hd, hle, hbehind⟩, fun _ => elim_none⟩
  | openTag =>
    have hbehind : Nests f.level (d + 1) (t.rest ++ more) := hnests.opened hmore hk
    dsimp only
    split
    · next hl =>
      -- A piece of a message is taken for one.
      rw [pass_eq]
      refine ⟨⟨⟨d + 1, Nat.succ_lt_succ hd, Nat.le_succ_of_le hle, hbehind⟩, ?_⟩,
        fun _ => elim_none⟩
      intro c hc
      cases hc
      exact ⟨d, hl ▸ hd, hbody⟩
    · exact ⟨h.beyond ht ⟨d + 1, Nat.succ_lt_succ hd, Nat.le_succ_of_le hle, hbehind⟩,
        fun _ => elim_none⟩
  | selfClosing =>
    have hbehind : Nests f.level d (t.rest ++ more) := hnests.passed hmore (.inr hk)
    dsimp only
    split
    · next hl =>
      refine ⟨⟨⟨d, hd, hle, hbehind⟩, fun _ => elim_none⟩, ?_⟩
      intro m hm
      cases hm
      exact ⟨d, hl ▸ hd, hbody⟩
    · exact ⟨h.beyond ht ⟨d, hd, hle, hbehind⟩, fun _ => elim_none⟩
  | closeTag =>
    have hclosed : f.level < d ∧ Nests f.level (d - 1) (t.rest ++ more) := hnests.closed hmore hk
    obtain ⟨hinside, hbehind⟩ := hclosed
    dsimp only
    split
    · -- The framer finds nothing to close, but the stream is still at the message level.
      have hdepth : min 0 f.level < d - 1 := by omega
      have hstays : f.level ≤ d - 1 := by omega
      rw [beyond_eq]
      refine ⟨⟨⟨d - 1, hdepth, hstays, hbehind⟩, fun _ => elim_none⟩, ?_⟩
      intro m hm
      cases hm
    · have hshallow : ∃ d, f.depth - 1 < d ∧ f.level ≤ d ∧ Nests f.level d (t.rest ++ more) :=
        ⟨d - 1, by omega, by omega, hbehind⟩
      split
      · exact ⟨h.beyond ht hshallow, fun _ => elim_none⟩
      · next c hc =>
        split
        · refine ⟨⟨hshallow, fun _ => elim_none⟩, ?_⟩
          intro m hm
          cases hm
          have hstart := h.inside c hc
          rw [← Tag.append_of_next? ht] at hstart
          simpa using hstart
        · exact ⟨h.beyond ht hshallow, fun _ => elim_none⟩

/-- Text changes no depth, so what waits nests as before. -/
theorem nests_waiting {d : Nat} (h : Nests f.level d (f.ahead ++ more)) :
    Nests f.level d (f.waiting.ahead ++ more) := by
  rw [← List.takeWhile_append_dropWhile (p := (· ≠ Tag.opener)) (l := f.ahead),
    List.append_assoc] at h
  rw [ahead_waiting]
  exact (Tag.nests_text (Tag.opener_not_mem_takeWhile f.ahead)).1 h

/-- A framer that waits adds the text up to the first opener to the message under way. -/
theorem captured_waiting (f : Framer) : f.waiting.captured =
    f.captured.map (· ++ f.ahead.takeWhile (· ≠ Tag.opener)) := by
  obtain ⟨level, limit, skipped, captured, ahead, depth⟩ := f
  cases captured <;> rfl

theorem depth_waiting (f : Framer) : f.waiting.depth = f.depth := by
  unfold waiting
  split <;> rfl

/-- `Adrift` is kept by a framer that waits. -/
theorem Adrift.waiting (h : f.Adrift more) : f.waiting.Adrift more := by
  obtain ⟨d, hd, hle, hnests⟩ := h.shallow
  constructor
  · rw [level_waiting, depth_waiting]
    exact ⟨d, hd, hle, nests_waiting hnests⟩
  · intro c hc
    rw [captured_waiting] at hc
    obtain ⟨b, hb, rfl⟩ := Option.map_eq_some_iff.1 hc
    have hinside := h.inside b hb
    rw [← List.takeWhile_append_dropWhile (p := (· ≠ Tag.opener)) (l := f.ahead),
      List.append_assoc] at hinside
    rwa [level_waiting, ahead_waiting, List.append_assoc]

/-- `Adrift` is kept by a framer that gives up, as this makes it no deeper. -/
theorem Adrift.recover (h : f.Adrift more) : f.recover.Adrift more := by
  obtain ⟨d, hd, hle, hnests⟩ := h.shallow
  exact ⟨⟨d, Nat.lt_of_le_of_lt (Nat.min_le_left _ _) hd, hle, hnests⟩, nofun⟩

/-- **Once adrift, always adrift.** A call keeps `Adrift`, and what it hands out began inside of a
    message. -/
theorem Adrift.next (h : f.Adrift more) (hlevel : 0 < f.level) :
    f.next.2.Adrift more ∧ ∀ m, f.next.1 = .ok (some m) →
      ∃ d, f.level < d ∧ Nests f.level d (m ++ (f.next.2.ahead ++ more)) := by
  induction f using nextInduction with
  | waits f hnone =>
    rw [next_of_none hnone, wait_eq]
    split
    · -- Giving up does not bring the framer back.
      exact ⟨h.waiting.recover, nofun⟩
    · exact ⟨h.waiting, nofun⟩
  | ends f t a f' ht hm =>
    have hmeet := h.meet hlevel ht
    rw [hm] at hmeet
    rw [next_ends ht hm]
    refine ⟨hmeet.1, fun m ha => hmeet.2 m ?_⟩
    cases a with
    | ok message =>
      cases ha
      rfl
    | error e => cases ha
  | goesOn f t f' ht hm ih =>
    have hmeet := (h.meet hlevel ht).1
    have hsame := f.level_meet t
    rw [hm] at hmeet hsame
    dsimp only at hmeet hsame
    rw [next_goesOn ht hm]
    rw [← hsame] at hlevel ⊢
    exact ih hmeet hlevel

/-- `InStep` is kept by `meet`. -/
theorem InStep.meet (h : f.InStep more) (ht : Tag.next? f.ahead = some t) :
    (f.meet t).2.InStep more := by
  have hmore := Tag.next?_append ht more
  rw [Framer.meet]
  cases hk : t.kind with
  | skip =>
    dsimp only
    rw [beyond_eq]
    exact Nests.passed h hmore (.inl hk)
  | openTag =>
    have hbehind := Nests.opened h hmore hk
    dsimp only
    rw [beyond_eq, pass_eq]
    split <;> exact hbehind
  | selfClosing =>
    have hbehind := Nests.passed h hmore (.inr hk)
    dsimp only
    rw [beyond_eq]
    split <;> exact hbehind
  | closeTag =>
    obtain ⟨hinside, hbehind⟩ := Nests.closed h hmore hk
    dsimp only
    -- In step, there is always something to close.
    rw [if_neg (Nat.ne_of_gt (Nat.zero_lt_of_lt hinside)), beyond_eq]
    split
    · exact hbehind
    · split <;> exact hbehind

/-- `InStep` is kept by a call with room enough. -/
theorem InStep.next_of_room (h : f.InStep more) (hroom : f.pending ≤ f.limit) :
    f.next.2.InStep more := by
  induction f using nextInduction with
  | waits f hnone =>
    -- With room enough the call does not give up, so what waits is kept.
    have hanswer := (next_of_pending_le hroom).1 f.limit
    rw [next_of_none hnone, wait_eq] at hanswer ⊢
    split
    · next hlt => exact absurd (by rw [if_pos hlt]) hanswer
    · rw [InStep, level_waiting, depth_waiting]
      exact nests_waiting h
  | ends f t a f' ht hm =>
    have hmeet := h.meet ht
    rw [hm] at hmeet
    rw [next_ends ht hm]
    exact hmeet
  | goesOn f t f' ht hm ih =>
    obtain ⟨hlimit, hpending⟩ := f.meet_bounds ht
    have hmeet := h.meet ht
    rw [hm] at hlimit hpending hmeet
    dsimp only at hlimit hpending
    rw [next_goesOn ht hm]
    exact ih hmeet (by omega)

/-- A call keeps `InStep`, unless it gives up, and then the framer is `Adrift`. -/
theorem InStep.next (h : f.InStep more) (hf : f.Sound) :
    (f.GivesUp → f.next.2.Adrift more) ∧ (¬f.GivesUp → f.next.2.InStep more) := by
  -- With room for all that waits, it would stay in step.
  have hroom : (f.withLimit f.pending).next.2.InStep more :=
    InStep.next_of_room (f := f.withLimit f.pending) h (Nat.le_refl _)
  have hsettled := (answered_next (f := f.withLimit f.pending) ⟨hf.idle, hf.busy⟩).settled
  rcases f.next_withLimit (Nat.le_refl f.pending) with ⟨-, -, hnext⟩ | ⟨hsmall, hnext⟩
  · have hlarge : f.next.1 = .error (.messageTooLarge f.limit) := congrArg Prod.fst hnext
    rw [GivesUp, and_iff_right hlarge, hnext]
    cases hc : (f.withLimit f.pending).next.2.captured with
    | none =>
      -- The framer is no deeper than the message level, so that no depth is lost.
      rw [recover_of_idle hsettled hc]
      exact ⟨fun hsome => absurd hsome Bool.false_ne_true, fun _ => hroom⟩
    | some c =>
      obtain ⟨-, hlt⟩ := hsettled.busy c hc
      refine ⟨fun _ => ⟨⟨_, ?_, Nat.le_of_lt hlt, hroom⟩, fun _ => elim_none⟩,
        fun hnot => absurd rfl hnot⟩
      exact Nat.lt_of_le_of_lt (Nat.min_le_right _ _) hlt
  · refine ⟨fun hgives => absurd hgives.1 hsmall, fun _ => ?_⟩
    rw [hnext]
    exact hroom

/-! ### What is held -/

/-- The bytes that a framer has neither handed out nor dropped, but for text in front of a
    message. -/
def held (f : Framer) : List UInt8 := f.captured.getD [] ++ f.ahead

/-- The first piece of markup and what is behind it are the end of what is held. -/
theorem body_suffix (ht : Tag.next? f.ahead = some t) : t.body ++ t.rest <:+ f.held := by
  rw [held, ← Tag.append_of_next? ht, ← List.append_assoc]
  exact List.suffix_append _ _

/-- Markup that is passed is kept with a message under way, and dropped otherwise; what is held
    after it is the end of what was held. -/
theorem beyond_suffix (ht : Tag.next? f.ahead = some t) (depth : Nat) :
    (f.beyond t depth).held <:+ f.held := by
  rw [beyond_eq]
  cases hc : f.captured with
  | none => exact (List.suffix_append _ _).trans (body_suffix ht)
  | some c =>
    rw [held, held, hc, ← Tag.append_of_next? ht]
    simp

/-- `meet` drops bytes from the front of what is held, and a message that it ends stood there. -/
theorem meet_suffix (ht : Tag.next? f.ahead = some t) :
    (f.meet t).2.held <:+ f.held ∧
      ∀ m, (f.meet t).1 = some (.ok m) → m ++ (f.meet t).2.ahead <:+ f.held := by
  have hbody := body_suffix ht
  have hrest : t.rest <:+ f.held := (List.suffix_append _ _).trans hbody
  rw [Framer.meet]
  cases t.kind with
  | skip => exact ⟨beyond_suffix ht f.depth, fun _ => elim_none⟩
  | openTag =>
    dsimp only
    split
    · rw [pass_eq]
      exact ⟨hbody, fun _ => elim_none⟩
    · exact ⟨beyond_suffix ht _, fun _ => elim_none⟩
  | selfClosing =>
    dsimp only
    split
    · refine ⟨hrest, fun m hm => ?_⟩
      cases hm
      exact hbody
    · exact ⟨beyond_suffix ht _, fun _ => elim_none⟩
  | closeTag =>
    dsimp only
    split
    · rw [beyond_eq]
      refine ⟨hrest, fun m hm => ?_⟩
      cases hm
    · split
      · exact ⟨beyond_suffix ht _, fun _ => elim_none⟩
      · next c hc =>
        split
        · refine ⟨hrest, fun m hm => ?_⟩
          cases hm
          -- All that was captured is handed out.
          rw [held, hc, ← Tag.append_of_next? ht]
          simp
        · exact ⟨beyond_suffix ht _, fun _ => elim_none⟩

/-- A framer that waits drops bytes from the front of what is held. -/
theorem waiting_suffix (f : Framer) : f.waiting.held <:+ f.held := by
  rw [held, held, captured_waiting, ahead_waiting]
  cases f.captured with
  | none => exact List.dropWhile_suffix _
  | some c =>
    rw [Option.map_some, Option.getD_some, List.append_assoc, List.takeWhile_append_dropWhile]
    exact List.suffix_refl _

/-- A call drops bytes from the front of what is held, and a message that it hands out stood
    there. -/
theorem next_suffix (f : Framer) : f.next.2.held <:+ f.held ∧
    ∀ m, f.next.1 = .ok (some m) → m ++ f.next.2.ahead <:+ f.held := by
  induction f using nextInduction with
  | waits f hnone =>
    have hwaiting := f.waiting_suffix
    -- Giving up drops what waits and keeps what is ahead of it.
    have hrecover : f.waiting.recover.held <:+ f.waiting.held := List.suffix_append _ _
    rw [next_of_none hnone, wait_eq]
    split
    · exact ⟨hrecover.trans hwaiting, nofun⟩
    · exact ⟨hwaiting, nofun⟩
  | ends f t a f' ht hm =>
    have hmeet := meet_suffix ht
    rw [hm] at hmeet
    rw [next_ends ht hm]
    refine ⟨hmeet.1, fun m ha => hmeet.2 m ?_⟩
    cases a with
    | ok message =>
      cases ha
      rfl
    | error e => cases ha
  | goesOn f t f' ht hm ih =>
    have hmeet := (meet_suffix ht).1
    rw [hm] at hmeet
    rw [next_goesOn ht hm]
    exact ⟨ih.1.trans hmeet, fun m ha => (ih.2 m ha).trans hmeet⟩

/-! ### Runs -/

/-- The bytes that an event brings. -/
def Event.fed : Event → List UInt8
  | extend bytes => bytes
  | _ => []

/-- The bytes that several events bring. -/
def fed (events : List Event) : List UInt8 := events.flatMap Event.fed

theorem fed_cons (e : Event) (events : List Event) : fed (e :: events) = e.fed ++ fed events :=
  List.flatMap_cons

theorem fed_append (events events' : List Event) :
    fed (events ++ events') = fed events ++ fed events' := List.flatMap_append

/-- The text of the message that a call hands out. -/
def Event.message? (f : Framer) : Event → Option String
  | next => f.nextMessage.1.toOption.join
  | _ => none

/-- The texts of the messages that the calls among some events hand out. -/
def messages : Framer → List Event → List String
  | _, [] => []
  | f, e :: events => (e.message? f).toList ++ messages (e.step f) events

/-- `messages` of a run that begins with a call. -/
theorem messages_next {a : Except FramingError (Option (List UInt8))} (h : f.next = (a, g))
    (events : List Event) : f.messages (.next :: events) =
      (a.toOption.join.map Utf8.decodeText).toList ++ g.messages events := by
  rw [messages, Event.message?, Event.step, nextMessage_eq, h]
  cases a <;> rfl

/-- After an event, what is held is the end of what was held and what the event brought. -/
theorem held_step (f : Framer) (e : Event) : (e.step f).held <:+ f.held ++ e.fed := by
  cases e with
  | extend bytes => exact ⟨[], (List.append_assoc _ f.ahead bytes).symm⟩
  | next =>
    change f.next.2.held <:+ f.held ++ []
    rw [List.append_nil]
    exact f.next_suffix.1
  | reset => exact List.nil_suffix

/-- **What is handed out was brought.** After a run, what is held is the end of what was held at
    first and what the run brought. -/
theorem held_run (f : Framer) (events : List Event) :
    (f.run events).held <:+ f.held ++ fed events := by
  induction events generalizing f with
  | nil =>
    rw [fed, List.flatMap_nil, List.append_nil]
    exact List.suffix_refl _
  | cons e events ih =>
    obtain ⟨front, hfront⟩ := f.held_step e
    rw [fed_cons, ← List.append_assoc, ← hfront, List.append_assoc]
    exact (ih (e.step f)).trans (List.suffix_append _ _)

theorem length_held (f : Framer) : f.held.length = f.pending := List.length_append

/-- No more bytes wait after a run than before and than it brought. -/
theorem pending_run (f : Framer) (events : List Event) :
    (f.run events).pending ≤ f.pending + (fed events).length := by
  have hle := (f.held_run events).length_le
  rwa [List.length_append, length_held, length_held] at hle

theorem level_step (f : Framer) (e : Event) : (e.step f).level = f.level := by
  cases e with
  | extend bytes => rfl
  | next => exact f.level_next
  | reset => rfl

theorem level_run (f : Framer) (events : List Event) : (f.run events).level = f.level := by
  induction events generalizing f with
  | nil => rfl
  | cons e events ih => exact (ih (e.step f)).trans (f.level_step e)

theorem run_next (f : Framer) (before middle : List Event) :
    f.run (before ++ .next :: middle) = (f.run before).next.2.run middle := List.foldl_append

/-- The induction rule for runs without a reset: a relation between a framer and the bytes to come
    that is kept by arriving bytes and by calls holds after the run, for the bytes that are still
    to come. -/
theorem run_toCome {P : Framer → List UInt8 → Prop}
    (extend : ∀ f bytes more, P f (bytes ++ more) → P (f.extend bytes) more)
    (next : ∀ f more, f.Settled → 0 < f.level → P f more → P f.next.2 more)
    {events : List Event} (hf : f.Settled) (hlevel : 0 < f.level) (hreset : .reset ∉ events)
    (h : P f (fed events ++ more)) : P (f.run events) more := by
  induction events generalizing f with
  | nil => exact h
  | cons e events ih =>
    have hreset' : .reset ∉ events := fun hmem => hreset (List.mem_cons_of_mem _ hmem)
    rw [fed_cons, List.append_assoc] at h
    refine ih (settled_step hf e).1 ((f.level_step e).symm ▸ hlevel) hreset' ?_
    cases e with
    | extend bytes => exact extend f bytes _ h
    | next => exact next f _ hf hlevel h
    | reset => exact absurd List.mem_cons_self hreset

section Course

variable {events : List Event} (hf : f.Settled) (hlevel : 0 < f.level) (hreset : .reset ∉ events)
include hf hlevel hreset

/-- `Adrift` is kept by every run without a reset. -/
theorem Adrift.run (h : f.Adrift (fed events ++ more)) : (f.run events).Adrift more :=
  run_toCome (P := Adrift) (fun _ _ _ h => h.extend) (fun _ _ _ hlevel h => (h.next hlevel).1)
    hf hlevel hreset h

/-- A framer that is `InStep` is `InStep` or `Adrift` after every run without a reset. -/
theorem InStep.run (h : f.InStep (fed events ++ more)) :
    (f.run events).InStep more ∨ (f.run events).Adrift more := by
  refine run_toCome (P := fun f more => f.InStep more ∨ f.Adrift more) ?_ ?_ hf hlevel hreset
    (.inl h)
  · intro f bytes more h
    exact h.imp InStep.extend Adrift.extend
  · intro f more hf hlevel h
    rcases h with h | h
    · by_cases hgives : f.GivesUp
      · exact .inr ((h.next hf.toSound).1 hgives)
      · exact .inl ((h.next hf.toSound).2 hgives)
    · exact .inr (h.next hlevel).1

end Course

/-! ### With room enough -/

theorem withLimit_of_eq {n : Nat} (h : f.limit = n) : f.withLimit n = f := by
  rw [withLimit, ← h]

/-- A call that does not give up hands out what it would with room enough. -/
theorem next_of_not_givesUp (hf : f.Sound) {n : Nat} (hn : f.pending ≤ n) (h : ¬f.GivesUp) :
    (f.withLimit n).next.2 = f.next.2.withLimit n ∧
      Event.message? (f.withLimit n) .next = Event.message? f .next := by
  obtain ⟨-, hlimit, -⟩ := next_of_pending_le (f := f.withLimit n) hn
  rcases f.next_withLimit hn with ⟨hquiet, -, hnext⟩ | ⟨-, hnext⟩
  · -- It gives up unfinished markup, which is still ahead.
    have hidle : (f.withLimit n).next.2.captured = none := by
      refine Option.not_isSome_iff_eq_none.1 fun hsome => h ⟨congrArg Prod.fst hnext, ?_⟩
      rwa [next_withLimit_of_le hn (Nat.le_refl f.pending)] at hsome
    have hsettled := (answered_next (f := f.withLimit n) ⟨hf.idle, hf.busy⟩).settled
    rw [recover_of_idle hsettled hidle] at hnext
    rw [Event.message?, Event.message?, nextMessage_eq, nextMessage_eq, hquiet, hnext]
    exact ⟨(withLimit_of_eq hlimit).symm, rfl⟩
  · rw [Event.message?, Event.message?, nextMessage_eq, nextMessage_eq, hnext]
    exact ⟨(withLimit_of_eq hlimit).symm, rfl⟩

/-- A run in which no call gives up hands out what it would with room enough. -/
theorem run_of_not_givesUp (events : List Event) (hf : f.Settled) {n : Nat}
    (hn : f.pending + (fed events).length ≤ n)
    (h : ∀ before after, events = before ++ .next :: after → ¬(f.run before).GivesUp) :
    (f.withLimit n).run events = (f.run events).withLimit n ∧
      messages (f.withLimit n) events = messages f events := by
  induction events generalizing f with
  | nil => exact ⟨rfl, rfl⟩
  | cons e events ih =>
    have hsettled := (settled_step hf e).1
    rw [fed_cons, List.length_append] at hn
    have hrest : ∀ before after, events = before ++ .next :: after →
        ¬((e.step f).run before).GivesUp := by
      intro before after he
      exact h (e :: before) after (congrArg (e :: ·) he)
    have hstep : e.step (f.withLimit n) = (e.step f).withLimit n ∧
        Event.message? (f.withLimit n) e = Event.message? f e := by
      cases e with
      | extend bytes => exact ⟨rfl, rfl⟩
      | next => exact next_of_not_givesUp hf.toSound (by omega) (h [] events rfl)
      | reset => exact ⟨rfl, rfl⟩
    -- The event leaves room for the others.
    have hpending := (f.held_step e).length_le
    rw [List.length_append, length_held, length_held] at hpending
    obtain ⟨hrun, hmessages⟩ := ih hsettled (by omega) hrest
    rw [← hstep.1] at hrun hmessages
    refine ⟨hrun, ?_⟩
    rw [messages, messages, hmessages, hstep.2]

/-- With room enough, a call hands out the first of the messages that draining all bytes would
    answer, or none if it cannot tell yet. -/
theorem drains_next {texts : List String} {k : Framer} (hf : f.Settled)
    (hroom : f.pending + more.length ≤ f.limit)
    (h : (f.extend more).Drains (texts.map .ok) k) :
    ∃ rest k', (Event.message? f .next).toList ++ rest = texts ∧
      (f.next.2.extend more).Drains (rest.map .ok) k' := by
  obtain ⟨hsmall, hlimit, hpending⟩ := next_of_pending_le (f := f) (by omega)
  by_cases hquiet : f.next.1 = .ok none
  · -- The call waits, and draining is put off.
    have halike := alike_extend_of_quiet (Prod.ext hquiet rfl) more
    have hsettled := (settled_step (settled_step hf .next).1 (.extend more)).1
    have hbytes := f.next.2.pending_extend more
    have hle : (f.next.2.extend more).pending ≤ (f.next.2.extend more).limit := by
      change _ ≤ f.next.2.limit
      omega
    obtain ⟨out, k', hd⟩ := exists_drains hsettled hle
    obtain ⟨k'', hd', -⟩ := hd.alike halike
    obtain ⟨rfl, -⟩ := hd'.unique h
    refine ⟨texts, k', ?_, hd⟩
    rw [Event.message?, nextMessage_eq, hquiet]
    rfl
  · have hnext := next_extend_of_ends hquiet (hsmall f.limit) more
    cases texts with
    | nil =>
      cases h with
      | done hdone =>
        rw [nextMessage_eq_quiet, hnext] at hdone
        exact absurd (congrArg Prod.fst hdone) hquiet
    | cons text texts =>
      cases h with
      | answer hanswer rest =>
        rw [nextMessage_eq, hnext] at hanswer
        obtain ⟨htext, rfl⟩ := Prod.mk.inj hanswer
        refine ⟨texts, k, ?_, rest⟩
        rw [Event.message?, nextMessage_eq]
        dsimp only at htext ⊢
        rw [htext]
        rfl

/-- With room enough, it does not matter when messages are asked for: a run hands out the first of
    those that draining would answer, and the others can still be drained. -/
theorem messages_of_drains (events : List Event) {texts : List String} {k : Framer}
    (hf : f.Settled) (hroom : f.pending + (fed events ++ more).length ≤ f.limit)
    (hreset : .reset ∉ events) (h : (f.extend (fed events ++ more)).Drains (texts.map .ok) k) :
    ∃ rest k', messages f events ++ rest = texts ∧
      ((f.run events).extend more).Drains (rest.map .ok) k' := by
  induction events generalizing f texts k with
  | nil => exact ⟨texts, k, rfl, h⟩
  | cons e events ih =>
    -- What is not fed yet counts as if it waited, so there is room for it at every call.
    have hsettled := (settled_step hf e).1
    have hreset' : .reset ∉ events := fun hmem => hreset (List.mem_cons_of_mem _ hmem)
    rw [fed_cons, List.append_assoc] at h hroom
    cases e with
    | extend bytes =>
      have hbytes := f.pending_extend bytes
      rw [Event.fed, List.length_append] at hroom
      rw [Event.fed, Framer.extend, ← List.append_assoc] at h
      exact ih hsettled (by change (f.extend bytes).pending + _ ≤ f.limit; omega) hreset' h
    | next =>
      obtain ⟨rest, k', rfl, hd⟩ := drains_next hf hroom h
      obtain ⟨-, hlimit, hpending⟩ := next_of_pending_le (f := f) (by omega)
      have hle : (Event.next.step f).pending + (fed events ++ more).length ≤
          (Event.next.step f).limit := by
        change f.next.2.pending + _ ≤ f.next.2.limit
        change f.pending + (fed events ++ more).length ≤ f.limit at hroom
        omega
      obtain ⟨rest', k'', rfl, hd'⟩ := ih hsettled hle hreset' hd
      exact ⟨rest', k'', List.append_assoc .., hd'⟩
    | reset => exact absurd List.mem_cons_self hreset

/-! ### Siblings -/

section Siblings

variable (s : XmlStream) (limit : Nat) {events : List Event}

/-- As long as no call gives up, the messages of a stream are handed out in order, and all of them
    once the stream has ended and a call finds none. -/
theorem messages_stream (hfed : fed events ++ more = s.bytes) (hreset : .reset ∉ events)
    (h : ∀ before after, events = before ++ .next :: after →
      ¬((start s.roots.length limit).run before).GivesUp) :
    ∃ rest, (start s.roots.length limit).messages events ++ rest =
        s.messages.map (fun m => Utf8.decodeText m.2.bytes) ∧
      (more = [] → ((start s.roots.length limit).run events).nextMessage.1 = .ok none →
        rest = []) := by
  -- With room for the whole stream, the messages are those that draining it once answers.
  obtain ⟨n, hn⟩ : ∃ n, n = (fed events ++ more).length := ⟨_, rfl⟩
  have hroom : (start s.roots.length n).pending + (fed events ++ more).length ≤ n :=
    hn ▸ Nat.le_of_eq (Nat.zero_add _)
  have hevents : (start s.roots.length limit).pending + (fed events).length ≤ n := by
    rw [List.length_append] at hn
    exact hn ▸ Nat.le_trans (Nat.le_of_eq (Nat.zero_add _)) (Nat.le_add_right _ _)
  have htexts : s.messages.map (fun m => (.ok (Utf8.decodeText m.2.bytes) :
      Except FramingError String)) =
        (s.messages.map fun m => Utf8.decodeText m.2.bytes).map .ok := (List.map_map ..).symm
  have hdrains := drains_stream s n
  rw [htexts, ← hfed] at hdrains
  obtain ⟨hrun, hmessages⟩ := run_of_not_givesUp events (settled_start _ limit) hevents h
  obtain ⟨rest, k, hrest, hd⟩ :=
    messages_of_drains events (settled_start _ n) hroom hreset hdrains
  refine ⟨rest, hmessages ▸ hrest, ?_⟩
  rintro rfl hquiet
  -- Where a call finds no message, draining is at its end.
  have hquiet' : ((start s.roots.length n).run events).next.1 = .ok none := by
    change (((start s.roots.length limit).withLimit n).run events).next.1 = _
    rw [hrun]
    exact quiet_withLimit (Nat.le_trans ((start _ limit).pending_run events) hevents)
      (nextMessage_eq_none.1 hquiet)
  rw [Framer.extend, List.append_nil] at hd
  have hnil := (hd.unique (.done (nextMessage_eq_quiet.2 (Prod.ext hquiet' rfl)))).1
  exact List.map_eq_nil_iff.1 hnil

/-- After a call gave up, no message that is handed out begins where a message of the stream does:
    the framer is `Adrift` there, while the stream `Begins` at the message level only. -/
theorem not_begins_of_givesUp (hroots : s.roots ≠ []) {before middle after : List Event}
    (hbefore : .reset ∉ before) (hmiddle : .reset ∉ middle)
    (hfed : fed before ++ (fed middle ++ (fed after ++ more)) = s.bytes)
    (hgives : ((start s.roots.length limit).run before).GivesUp) {message : List UInt8}
    {f : Framer}
    (hmessage : ((start s.roots.length limit).run (before ++ .next :: middle)).next =
      (.ok (some message), f)) :
    ∃ front, front ++ (message ++ (f.ahead ++ (fed after ++ more))) = s.bytes ∧
      ¬s.Begins front := by
  have hlevel : 0 < (start s.roots.length limit).level := List.length_pos_iff.2 hroots
  have hsettled := settled_start s.roots.length limit
  have hbegin : (start s.roots.length limit).InStep
      (fed before ++ (fed middle ++ (fed after ++ more))) := hfed ▸ s.nests_bytes
  -- The call that gives up leaves the framer adrift, if it was not before.
  have hgiven : (((start s.roots.length limit).run before).next.2).Adrift
      (fed middle ++ (fed after ++ more)) := by
    rcases hbegin.run hsettled hlevel hbefore with h | h
    · exact (h.next (settled_run hsettled before).1.toSound).1 hgives
    · exact (h.next ((level_run _ before).symm ▸ hlevel)).1
  have hlevel' : 0 < ((start s.roots.length limit).run before).next.2.level := by
    rwa [level_next, level_run]
  have hsettled' := (answered_next (settled_run hsettled before).1.toSound).settled
  have hadrift := hgiven.run hsettled' hlevel' hmiddle
  rw [← level_run _ middle] at hlevel'
  rw [← run_next] at hadrift hlevel'
  have hinside := (hadrift.next hlevel').2 message (congrArg Prod.fst hmessage)
  rw [hmessage, level_run] at hinside
  obtain ⟨d, hlt, hnests⟩ := hinside
  -- What is handed out is taken from what was brought.
  have hsuffix := (next_suffix _).2 message (congrArg Prod.fst hmessage)
  rw [hmessage] at hsuffix
  obtain ⟨front, hfront⟩ := hsuffix.trans (held_run _ _)
  have hwhole : front ++ (message ++ (f.ahead ++ (fed after ++ more))) = s.bytes := by
    change _ = [] ++ fed (before ++ .next :: middle) at hfront
    rw [List.nil_append, fed_append, fed_cons] at hfront
    rw [← hfed, ← List.append_assoc (fed before)]
    change _ = fed before ++ fed middle at hfront
    rw [← hfront]
    simp only [List.append_assoc]
  refine ⟨front, hwhole, fun hbegins => ?_⟩
  exact Nat.ne_of_gt hlt (hnests.unique (hbegins.nests hwhole))

/-- **Siblings of an oversized message.** As long as no call gives up while a message is under way,
    the messages of a stream are handed out in order and nothing else is, and all of them once the
    stream has ended and a call finds none.  After a call gave up, no message that is handed out
    begins where a message of the stream begins. -/
theorem siblings_run (hroots : s.roots ≠ []) (hreset : .reset ∉ events)
    (hfed : fed events ++ more = s.bytes) :
    let f := start s.roots.length limit
    ((∀ before after, events = before ++ .next :: after → ¬(f.run before).GivesUp) →
      ∃ rest, f.messages events ++ rest =
          s.messages.map (fun m => Utf8.decodeText m.2.bytes) ∧
        (more = [] → (f.run events).nextMessage.1 = .ok none → rest = [])) ∧
    ∀ before middle after, events = before ++ .next :: (middle ++ .next :: after) →
      (f.run before).GivesUp → ∀ message g,
        (f.run (before ++ .next :: middle)).next = (.ok (some message), g) →
          ∃ front, front ++ (message ++ (g.ahead ++ (fed after ++ more))) = s.bytes ∧
            ¬s.Begins front := by
  intro f
  refine ⟨messages_stream s limit hfed hreset, ?_⟩
  rintro before middle after rfl hgives message g hmessage
  simp only [List.mem_append, List.mem_cons, not_or] at hreset
  obtain ⟨hbefore, -, hmiddle, -, -⟩ := hreset
  -- The bytes that were fed before, between and after are all of the stream.
  refine not_begins_of_givesUp s limit hroots hbefore hmiddle ?_ hgives hmessage
  rw [← hfed, fed_append, fed_cons, fed_append, fed_cons]
  simp [Event.fed]

end Siblings

end Framer

namespace XmlStream

/-- A stream with two messages in a root element, of 31 bytes, with an element at its end, and of
    four. -/
def oversized : XmlStream where
  roots := [([], ⟨letter 's' (by decide), [], noSpace⟩)]
  messages :=
    [([], .full ⟨letter 'm' (by decide), [], noSpace⟩
        (.filler (.text ⟨asciiBytes "0123456789abcdefghij".toList, by decide⟩)
          (.element (.empty ⟨letter 'e' (by decide), [], noSpace⟩) .nothing))
        noSpace),
      ([], .empty ⟨letter 'n' (by decide), [], noSpace⟩)]
  tail := []

end XmlStream

namespace Framer

/-- A framer that has been given the first message of `oversized` but for its last element and its
    closing tag. -/
def halfway (limit : Nat) : Framer :=
  (start 1 limit).extend (asciiBytes "<s><m>0123456789abcdefghij".toList)

/-- A call on `halfway` understands two tags, and waits. -/
theorem next_halfway (limit : Nat) : (halfway limit).next =
    Framer.wait ⟨1, limit, 3, some (asciiBytes "<m>".toList),
      asciiBytes "0123456789abcdefghij".toList, 2⟩ := by
  rw [next_goesOn (f := halfway limit) (t := ⟨[], .openTag, asciiBytes "<s>".toList,
      asciiBytes "<m>0123456789abcdefghij".toList⟩) rfl rfl,
    next_goesOn (t := ⟨[], .openTag, asciiBytes "<m>".toList,
      asciiBytes "0123456789abcdefghij".toList⟩) rfl rfl,
    next_of_none rfl]
  rfl

/-- With a limit of sixteen bytes, a call on `halfway` gives up, and leaves the framer at the
    message level. -/
theorem givesUp_halfway : (halfway 16).GivesUp ∧
    (halfway 16).next = (.error (.messageTooLarge 16), { start 1 16 with depth := 1 }) := by
  have hnext : (halfway 16).next =
      (.error (.messageTooLarge 16), { start 1 16 with depth := 1 }) := by
    rw [next_halfway, wait_eq]
    rfl
  refine ⟨⟨congrArg Prod.fst hnext, ?_⟩, hnext⟩
  change (halfway 26).next.2.captured.isSome = true
  rw [next_halfway, wait_eq]
  rfl

/-- Given the other bytes then, the framer takes the last element of the message for a message. -/
theorem next_rest : ({ start 1 16 with depth := 1 }.extend
      (asciiBytes "<e/></m><n/>".toList)).next =
    (.ok (some (asciiBytes "<e/>".toList)),
      { start 1 16 with ahead := asciiBytes "</m><n/>".toList, depth := 1 }) :=
  next_ends (f := { start 1 16 with depth := 1 }.extend (asciiBytes "<e/></m><n/>".toList))
    (t := ⟨[], .selfClosing, asciiBytes "<e/>".toList, asciiBytes "</m><n/>".toList⟩) rfl rfl

/-- The stream `oversized` in two chunks, with two calls after each. -/
def halves : List Event :=
  [.extend (asciiBytes "<s><m>0123456789abcdefghij".toList), .next, .next,
    .extend (asciiBytes "<e/></m><n/>".toList), .next, .next]

/-- Between the chunks there is nothing to hand out. -/
theorem next_between : ({ start 1 16 with depth := 1 } : Framer).next =
    (.ok none, { start 1 16 with depth := 1 }) := by
  rw [next_of_none rfl, wait_eq]
  rfl

/-- `siblings_run` on `halves`: the element that is handed out does not begin where a message of
    the stream does. -/
theorem siblings_run_halves :
    XmlStream.oversized.roots ≠ [] ∧ .reset ∉ halves ∧
      fed halves ++ [] = XmlStream.oversized.bytes ∧ (halfway 16).GivesUp ∧
      ∃ front, front ++ (asciiBytes "<e/>".toList ++ asciiBytes "</m><n/>".toList) =
        XmlStream.oversized.bytes ∧ ¬XmlStream.oversized.Begins front := by
  have hroots : XmlStream.oversized.roots ≠ [] := List.cons_ne_nil _ _
  have hreset : .reset ∉ halves := by simp [halves]
  have hfed : fed halves ++ [] = XmlStream.oversized.bytes := by decide
  -- The calls one by one: one gives up, one finds nothing, and the third hands out a piece.
  have hmessage : ((start 1 16).run
      ([.extend (asciiBytes "<s><m>0123456789abcdefghij".toList)] ++
        .next :: [.next, .extend (asciiBytes "<e/></m><n/>".toList)])).next =
      (.ok (some (asciiBytes "<e/>".toList)),
        { start 1 16 with ahead := asciiBytes "</m><n/>".toList, depth := 1 }) := by
    change ((halfway 16).next.2.next.2.extend (asciiBytes "<e/></m><n/>".toList)).next = _
    rw [givesUp_halfway.2, next_between]
    exact next_rest
  have hlost := (siblings_run XmlStream.oversized 16 hroots hreset hfed).2
    [.extend (asciiBytes "<s><m>0123456789abcdefghij".toList)]
    [.next, .extend (asciiBytes "<e/></m><n/>".toList)] [.next] rfl givesUp_halfway.1 _ _ hmessage
  exact ⟨hroots, hreset, hfed, givesUp_halfway.1, hlost⟩

/-- Giving up on one message loses others: of the stream `oversized` a piece of the first message
    is handed out, and the second, which is short enough, is not. -/
theorem lost_halves :
    XmlStream.oversized.roots ≠ [] ∧ .reset ∉ halves ∧ fed halves = XmlStream.oversized.bytes ∧
      XmlStream.oversized.messages.map (fun m => Utf8.decodeText m.2.bytes) =
        ["<m>0123456789abcdefghij<e/></m>", "<n/>"] ∧
      (start 1 16).messages halves = ["<e/>"] := by
  have hencode : ["<m>0123456789abcdefghij<e/></m>", "<n/>"].map Utf8.encodeText =
      XmlStream.oversized.messages.map fun m => m.2.bytes := by
    rw [List.map_cons, List.map_singleton, Utf8.encodeText_eq, Utf8.encodeText_eq]
    decide
  have htexts := congrArg (List.map Utf8.decodeText) hencode
  simp only [List.map_map, Function.comp_def, Utf8.decodeText_encodeText, List.map_id'] at htexts
  -- The closing tag of the message that was given up ends the root, so the sibling behind it is
  -- not in any root.
  have hlast : Framer.next { start 1 16 with
      ahead := asciiBytes "</m><n/>".toList, depth := 1 } = (.ok none, start 1 16) := by
    rw [next_goesOn (t := ⟨[], .closeTag, asciiBytes "</m>".toList,
        asciiBytes "<n/>".toList⟩) rfl rfl,
      next_goesOn (t := ⟨[], .selfClosing, asciiBytes "<n/>".toList, []⟩) rfl rfl,
      next_of_none rfl, wait_eq]
    rfl
  have hmessages : (start 1 16).messages halves = [Utf8.decodeText (asciiBytes "<e/>".toList)] := by
    change (halfway 16).messages [.next, .next, .extend (asciiBytes "<e/></m><n/>".toList),
      .next, .next] = _
    rw [messages_next givesUp_halfway.2, messages_next next_between]
    change ({ start 1 16 with depth := 1 }.extend
      (asciiBytes "<e/></m><n/>".toList)).messages [.next, .next] = _
    rw [messages_next next_rest, messages_next hlast]
    rfl
  have hfragment : Utf8.encodeText "<e/>" = asciiBytes "<e/>".toList := by
    rw [Utf8.encodeText_eq]
    decide
  refine ⟨List.cons_ne_nil _ _, by simp [halves], by decide, htexts.symm, ?_⟩
  rw [hmessages, ← hfragment, Utf8.decodeText_encodeText]

end Framer

end Observatory
