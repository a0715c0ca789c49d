import Observatory.Proofs.Indi.Drain

/-!
# Cutting a stream

Bytes arrive in chunks, and after every chunk the framer is drained.  Where the stream is cut does
not matter for what comes out: markup that is complete stays what it is when more bytes follow
(`Tag.next?_append`), and a call that waits understands of the text before unfinished markup
just what it would have understood later (`Framer.next_text`).  What may differ is the number
of bytes that the framer holds: text in front of a message is dropped by a call that waits in
between, and is kept otherwise until the message is handed out.

* `Tag.followedBy`, `Tag.next?_append`: more bytes behind markup;
* `Framer.meet`: what one piece of markup does to a framer, with `Framer.next_meet`;
* `Framer.Lighter`: the same framer with fewer bytes that belong to no message;
* `Framer.Drains`, `Framer.Reads`: what draining answers, after one chunk and after several;
* `Framer.reads_flatten`: chunks and the whole stream come to the same.
-/

namespace Observatory

/-! ### More bytes behind markup -/

namespace Tag

/-- The same piece of markup in a stream that goes on with `more`. -/
def followedBy (t : Tag) (more : List UInt8) : Tag := { t with rest := t.rest ++ more }

section Append

variable {bytes head rest : List UInt8}

/-- Bytes in which `splitAfter?` finds a terminator are at least as long as the terminator. -/
theorem length_le_of_splitAfter? {close : List UInt8} {p : List UInt8 × List UInt8}
    (h : splitAfter? close bytes = some p) : close.length ≤ bytes.length := by
  -- The terminator stands at some position, and the bytes from there on are a part of all of them.
  induction bytes generalizing p with
  | nil =>
    simp only [splitAfter?] at h
    split at h
    · simp_all
    · cases h
  | cons b bytes ih =>
    simp only [splitAfter?] at h
    split at h
    · next hpre => exact (List.isPrefixOf_iff_prefix.1 hpre).length_le
    · obtain ⟨q, hq, -⟩ := Option.map_eq_some_iff.1 h
      have hle := ih hq
      simp only [List.length_cons]
      omega

/-- If `splitAfter?` finds the terminator, it finds the same occurrence when more bytes follow. -/
theorem splitAfter?_append {close : List UInt8} (h : splitAfter? close bytes = some (head, rest))
    (more : List UInt8) : splitAfter? close (bytes ++ more) = some (head, rest ++ more) := by
  induction bytes generalizing head rest with
  | nil =>
    simp only [splitAfter?] at h
    split at h
    · next hclose =>
      have hnil : close = [] := by simpa using hclose
      cases h
      cases more <;> simp [splitAfter?, hnil]
    · cases h
  | cons b bytes ih =>
    have hlen := length_le_of_splitAfter? h
    -- The bytes are long enough for the terminator, so only they decide whether it begins here.
    have hpre : close.isPrefixOf (b :: bytes ++ more) = close.isPrefixOf (b :: bytes) := by
      rw [Bool.eq_iff_iff, List.isPrefixOf_iff_prefix, List.isPrefixOf_iff_prefix]
      constructor
      · intro hp
        exact List.prefix_of_prefix_length_le hp (List.prefix_append _ _) hlen
      · intro hp
        exact hp.trans (List.prefix_append _ _)
    rw [List.cons_append] at hpre
    simp only [List.cons_append, splitAfter?, hpre] at h ⊢
    split at h
    · next hc =>
      cases h
      rw [if_pos hc, ← List.cons_append, List.drop_append_of_le_length hlen]
    · next hc =>
      obtain ⟨p, hp, he⟩ := Option.map_eq_some_iff.1 h
      cases he
      rw [if_neg hc, ih hp]
      rfl

/-- If `splitTag?` finds the closing bracket of a tag, it finds the same one when more bytes
    follow, from any state of quoting. -/
theorem splitTag?_append {q : Option UInt8} (h : splitTag? q bytes = some (head, rest))
    (more : List UInt8) : splitTag? q (bytes ++ more) = some (head, rest ++ more) := by
  induction bytes generalizing q head rest with
  | nil => cases q <;> cases h
  | cons b bytes ih =>
    rw [List.cons_append]
    cases q with
    | some q =>
      simp only [splitTag?] at h ⊢
      obtain ⟨p, hp, he⟩ := Option.map_eq_some_iff.1 h
      cases he
      rw [ih hp]
      rfl
    -- Outside of quotes the bracket may end the tag; inside there is nothing to decide.
    | none =>
      simp only [splitTag?] at h ⊢
      split at h
      · next hb =>
        cases h
        rw [if_pos hb]
      · next hb =>
        obtain ⟨p, hp, he⟩ := Option.map_eq_some_iff.1 h
        cases he
        rw [if_neg hb, ih hp]
        rfl

/-- If `scan?` finds complete markup, it finds the same markup when more bytes follow, by induction
    on the openers that it tries. -/
theorem scan?_append {marks : List (List UInt8 × List UInt8)} {kind : Markup}
    (h : scan? marks bytes = some (kind, head, rest)) (more : List UInt8) :
    scan? marks (bytes ++ more) = some (kind, head, rest ++ more) := by
  induction marks with
  | nil =>
    cases bytes with
    | nil => cases h
    | cons b bytes =>
      simp only [List.cons_append, scan?] at h ⊢
      obtain ⟨p, hp, he⟩ := Option.map_eq_some_iff.1 h
      cases he
      rw [splitTag?_append hp]
      rfl
  | cons m others ih =>
    obtain ⟨opening, closing⟩ := m
    simp only [scan?] at h ⊢
    split at h
    · cases h
    · next hshort =>
      simp only [Bool.and_eq_true, decide_eq_true_eq, List.isPrefixOf_iff_prefix] at hshort h ⊢
      have hshort' :
          ¬((bytes ++ more).length < opening.length ∧ bytes ++ more <+: opening) := by
        rintro ⟨hlt, hp⟩
        have hle : bytes.length ≤ (bytes ++ more).length := by simp
        exact hshort ⟨Nat.lt_of_le_of_lt hle hlt, (List.prefix_append _ _).trans hp⟩
      -- The bytes already decided against waiting for more of this opener, so with more bytes it
      -- is decided alike.
      rw [if_neg hshort']
      split at h
      · next hopen =>
        obtain ⟨p, hp, he⟩ := Option.map_eq_some_iff.1 h
        cases he
        rw [if_pos (hopen.trans (List.prefix_append _ _)),
          List.drop_append_of_le_length hopen.length_le, splitAfter?_append hp]
        rfl
      · next hopen =>
        -- More bytes cannot complete an opener that the bytes could not be the beginning of.
        have hopen' : ¬ opening <+: bytes ++ more := by
          intro hp
          by_cases hlen : opening.length ≤ bytes.length
          · exact hopen (List.prefix_of_prefix_length_le hp (List.prefix_append _ _) hlen)
          · have hlt : bytes.length < opening.length := by omega
            exact hshort ⟨hlt, List.prefix_of_prefix_length_le (List.prefix_append _ _) hp
              (Nat.le_of_lt hlt)⟩
        rw [if_neg hopen']
        exact ih h

/-- **Complete markup is final.** If `next?` finds a piece of markup, it finds the same piece when
    more bytes follow, and these are behind it. -/
theorem next?_append {t : Tag} (h : next? bytes = some t) (more : List UInt8) :
    next? (bytes ++ more) = some (t.followedBy more) := by
  obtain ⟨⟨kind, body, rest⟩, hp, rfl⟩ := Option.map_eq_some_iff.1 h
  have hne : bytes.dropWhile (· ≠ opener) ≠ [] := by
    intro hnil
    rw [hnil] at hp
    cases hp
  have hdrop : (bytes ++ more).dropWhile (· ≠ opener) = bytes.dropWhile (· ≠ opener) ++ more := by
    rw [List.dropWhile_append, if_neg (by simpa using hne)]
  -- The text ahead of the markup is the same, as it ends before the bytes that are new.
  have htake : (bytes ++ more).takeWhile (· ≠ opener) = bytes.takeWhile (· ≠ opener) := by
    have hlen := congrArg List.length (List.takeWhile_append_dropWhile (p := (· ≠ opener))
      (l := bytes))
    have hpos := List.length_pos_iff.2 hne
    rw [List.length_append] at hlen
    rw [List.takeWhile_append, if_neg (by omega)]
  rw [next?, hdrop, htake, scan?_append hp]
  rfl

theorem opener_not_mem_takeWhile (bytes : List UInt8) :
    opener ∉ bytes.takeWhile (· ≠ opener) := by
  intro hmem
  have hall := List.all_eq_true.1 (List.all_takeWhile (p := (· ≠ opener))) _ hmem
  simp at hall

/-- Text in front of the next piece of markup is a part of its gap. -/
theorem next?_text {text : List UInt8} (ht : opener ∉ text) (bytes : List UInt8) :
    next? (text ++ bytes) = (next? bytes).map fun t => { t with gap := text ++ t.gap } := by
  have hpos : ∀ b ∈ text, decide (b ≠ opener) = true := by
    intro b hb
    have hne : b ≠ opener := fun he => ht (he ▸ hb)
    simpa using hne
  rw [next?, next?, List.dropWhile_append_of_pos hpos, List.takeWhile_append_of_pos hpos,
    Option.map_map]
  rfl

end Append

section Parts

variable {bytes head rest : List UInt8}

/-- The two parts that `splitAfter?` finds are all of the bytes. -/
theorem append_of_splitAfter? {close : List UInt8}
    (h : splitAfter? close bytes = some (head, rest)) : head ++ rest = bytes := by
  -- Along the bytes, with the cut either here or in the rest.
  induction bytes generalizing head rest with
  | nil =>
    simp only [splitAfter?] at h
    split at h <;> cases h
    rfl
  | cons b bytes ih =>
    simp only [splitAfter?] at h
    split at h
    · next hpre =>
      cases h
      exact (List.prefix_iff_eq_append.1 (List.isPrefixOf_iff_prefix.1 hpre))
    · obtain ⟨p, hp, he⟩ := Option.map_eq_some_iff.1 h
      cases he
      rw [List.cons_append, ih hp]

/-- The two parts that `splitTag?` finds are all of the bytes. -/
theorem append_of_splitTag? {q : Option UInt8} (h : splitTag? q bytes = some (head, rest)) :
    head ++ rest = bytes := by
  induction bytes generalizing q head rest with
  | nil => cases q <;> cases h
  | cons b bytes ih =>
    cases q with
    | some q =>
      simp only [splitTag?] at h
      obtain ⟨p, hp, he⟩ := Option.map_eq_some_iff.1 h
      cases he
      rw [List.cons_append, ih hp]
    | none =>
      simp only [splitTag?] at h
      split at h
      · cases h
        rfl
      · obtain ⟨p, hp, he⟩ := Option.map_eq_some_iff.1 h
        cases he
        rw [List.cons_append, ih hp]

/-- The markup that `scan?` finds and what is behind it are all of the bytes. -/
theorem append_of_scan? {marks : List (List UInt8 × List UInt8)} {kind : Markup}
    (h : scan? marks bytes = some (kind, head, rest)) : head ++ rest = bytes := by
  -- Along the marks that `scan?` tries; a tag is what is left when none of them begins here.
  induction marks with
  | nil =>
    cases bytes with
    | nil => cases h
    | cons b bytes =>
      simp only [scan?] at h
      obtain ⟨p, hp, he⟩ := Option.map_eq_some_iff.1 h
      cases he
      rw [List.cons_append, append_of_splitTag? hp]
  | cons m others ih =>
    obtain ⟨opening, closing⟩ := m
    simp only [scan?] at h
    split at h
    · cases h
    · split at h
      · next hopen =>
        obtain ⟨p, hp, he⟩ := Option.map_eq_some_iff.1 h
        cases he
        rw [List.append_assoc, append_of_splitAfter? hp]
        exact List.prefix_iff_eq_append.1 (List.isPrefixOf_iff_prefix.1 hopen)
      · exact ih h

/-- The gap, the markup and the rest that `next?` finds are all of the bytes. -/
theorem append_of_next? {t : Tag} (h : next? bytes = some t) :
    t.gap ++ (t.body ++ t.rest) = bytes := by
  obtain ⟨⟨kind, body, rest⟩, hp, rfl⟩ := Option.map_eq_some_iff.1 h
  rw [append_of_scan? hp]
  exact List.takeWhile_append_dropWhile

end Parts

end Tag

namespace Framer

/-! ### One piece of markup -/

/-- What the next piece of markup does to a framer: the answer with which the call ends, or
    `none` if the call goes on, and the framer behind the markup.  It is one round of the
    loop of `next`. -/
def meet (f : Framer) (t : Tag) : Option (Except FramingError (List UInt8)) × Framer :=
  match t.kind with
  | .skip => (none, f.beyond t f.depth)
  | .openTag =>
    if f.depth = f.level then
      (none, { f.pass t.gap with ahead := t.rest, captured := some t.body, depth := f.depth + 1 })
    else (none, f.beyond t (f.depth + 1))
  | .selfClosing =>
    if f.depth = f.level then
      (some (.ok t.body), { f with skipped := 0, captured := none, ahead := t.rest })
    else (none, f.beyond t f.depth)
  | .closeTag =>
    if f.depth = 0 then (some (.error .unbalancedClosingTag), (f.beyond t 0).recover)
    else
      match f.captured with
      | none => (none, f.beyond t (f.depth - 1))
      | some c =>
        if f.depth - 1 = f.level then
          (some (.ok (c ++ (t.gap ++ t.body))),
            { f with skipped := 0, captured := none, ahead := t.rest, depth := f.depth - 1 })
        else (none, f.beyond t (f.depth - 1))

/-- `next` is `meet` with the first piece of markup, and goes on from there if that gives no
    answer.  Everything about `next` is proved from this equation, with no unfolding of the
    loop. -/
theorem next_meet {f : Framer} {t : Tag} (h : Tag.next? f.ahead = some t) :
    f.next = match f.meet t with
      | (none, g) => g.next
      | (some a, g) => (a.map some, g) := by
  obtain ⟨level, limit, skipped, captured, ahead, depth⟩ := f
  rw [next_eq h, meet]
  -- The branches of the loop and of `meet` are the same four.
  cases t.kind with
  | skip => rfl
  | openTag =>
    dsimp only
    split <;> rfl
  | selfClosing =>
    dsimp only
    split
    · cases captured <;> rfl
    · rfl
  | closeTag =>
    dsimp only
    split
    · next hd =>
      obtain rfl : depth = 0 := hd
      rfl
    · cases captured with
      | none => rfl
      | some c =>
        dsimp only [beyond, pass]
        split <;> rfl

section Meet

variable (f : Framer) (t : Tag)

/-- `meet` does the same when more bytes follow; they stay behind the markup. -/
theorem meet_extend (more : List UInt8) :
    (f.extend more).meet (t.followedBy more) = ((f.meet t).1, (f.meet t).2.extend more) := by
  obtain ⟨level, limit, skipped, captured, ahead, depth⟩ := f
  obtain ⟨gap, kind, body, rest⟩ := t
  cases kind with
  | skip => cases captured <;> rfl
  | openTag => by_cases hd : depth = level <;> cases captured <;>
      simp [meet, extend, Tag.followedBy, beyond, pass, hd]
  | selfClosing => by_cases hd : depth = level <;> cases captured <;>
      simp [meet, extend, Tag.followedBy, beyond, pass, hd]
  | closeTag => by_cases h0 : depth = 0 <;> by_cases hd : depth - 1 = level <;> cases captured <;>
      simp [meet, extend, Tag.followedBy, beyond, pass, recover, h0, hd]

/-- It does not matter for `meet` whether text in front of the markup is in its gap or was passed
    before. -/
theorem meet_text (text ahead ahead' : List UInt8) :
    { f.pass text with ahead }.meet t =
      { f with ahead := ahead' }.meet { t with gap := text ++ t.gap } := by
  obtain ⟨level, limit, skipped, captured, ahead'', depth⟩ := f
  obtain ⟨gap, kind, body, rest⟩ := t
  cases kind with
  | skip => cases captured <;> simp [meet, beyond, pass, Nat.add_assoc]
  | openTag => by_cases hd : depth = level <;> cases captured <;>
      simp [meet, beyond, pass, hd, Nat.add_assoc]
  | selfClosing => by_cases hd : depth = level <;> cases captured <;>
      simp [meet, beyond, pass, hd, Nat.add_assoc]
  | closeTag => by_cases h0 : depth = 0 <;> by_cases hd : depth - 1 = level <;> cases captured <;>
      simp [meet, beyond, pass, recover, h0, hd, Nat.add_assoc]

/-- `meet` never answers that a message is too large; only a call that waits does. -/
theorem ne_messageTooLarge_of_meet {a : Except FramingError (List UInt8)} {g : Framer}
    (h : f.meet t = (some a, g)) (n : Nat) : a ≠ .error (.messageTooLarge n) := by
  rintro rfl
  rw [meet] at h
  repeat' split at h
  all_goals simp at h

/-- After `meet` the bytes ahead are those behind the markup. -/
theorem ahead_meet : (f.meet t).2.ahead = t.rest := by
  rw [meet]
  repeat' split
  all_goals rfl

/-- `meet` keeps the limit, and the bytes of a message and those ahead are together no more than
    before. -/
theorem meet_bounds {t : Tag} (h : Tag.next? f.ahead = some t) :
    (f.meet t).2.limit = f.limit ∧ (f.meet t).2.pending ≤ f.pending := by
  have hlen := congrArg List.length (Tag.append_of_next? h)
  simp only [List.length_append] at hlen
  obtain ⟨level, limit, skipped, captured, ahead, depth⟩ := f
  obtain ⟨gap, kind, body, rest⟩ := t
  dsimp only at hlen
  cases kind with
  | skip => cases captured <;> simp [meet, beyond, pass, pending] <;> omega
  | openTag => by_cases hd : depth = level <;> cases captured <;>
      simp [meet, beyond, pass, pending, hd] <;> omega
  | selfClosing => by_cases hd : depth = level <;> cases captured <;>
      simp [meet, beyond, pass, pending, hd] <;> omega
  | closeTag => by_cases h0 : depth = 0 <;> by_cases hd : depth - 1 = level <;> cases captured <;>
      simp [meet, beyond, pass, pending, recover, h0, hd] <;> omega

end Meet

section Next

variable {f : Framer} {t : Tag} {g : Framer}

/-- `next` where the first piece of markup gives no answer. -/
theorem next_goesOn (h : Tag.next? f.ahead = some t) (hm : f.meet t = (none, g)) :
    f.next = g.next := by
  rw [next_meet h, hm]

/-- `next` where the first piece of markup gives an answer. -/
theorem next_ends {a : Except FramingError (List UInt8)} (h : Tag.next? f.ahead = some t)
    (hm : f.meet t = (some a, g)) : f.next = (a.map some, g) := by
  rw [next_meet h, hm]

end Next

/-- Induction along a call of `next`: it waits as no markup is complete, it ends with a piece of
    markup, or it goes on behind one, where the induction hypothesis holds. -/
@[elab_as_elim]
theorem nextInduction {motive : Framer → Prop}
    (waits : ∀ f, Tag.next? f.ahead = none → motive f)
    (ends : ∀ f t a g, Tag.next? f.ahead = some t → f.meet t = (some a, g) → motive f)
    (goesOn : ∀ f t g, Tag.next? f.ahead = some t → f.meet t = (none, g) → motive g → motive f)
    (f : Framer) : motive f := by
  cases h : Tag.next? f.ahead with
  | none => exact waits f h
  | some t =>
    rcases hm : f.meet t with ⟨_ | a, g⟩
    · -- Every piece of markup takes bytes away from those ahead, so the loop ends.
      have hlt : g.ahead.length < f.ahead.length := by
        have hahead := ahead_meet f t
        rw [hm] at hahead
        rw [hahead]
        exact Tag.length_next? h
      exact goesOn f t g h hm (nextInduction waits ends goesOn g)
    · exact ends f t a g h hm
  termination_by f.ahead.length

/-! ### Waiting -/

/-- Text ahead of any markup may be passed at once: `next` gives the same answer and the same
    framer. -/
theorem next_text {text : List UInt8} (ht : Tag.opener ∉ text) (f : Framer) (rest : List UInt8) :
    { f with ahead := text ++ rest }.next = { f.pass text with ahead := rest }.next := by
  have htag := Tag.next?_text ht rest
  -- Whether the framer meets markup behind the text, or waits with the text as a part of what is
  -- buffered.
  cases h : Tag.next? rest with
  | some t =>
    rw [h, Option.map_some] at htag
    rw [next_meet (f := { f with ahead := text ++ rest }) htag,
      next_meet (f := { f.pass text with ahead := rest }) h, meet_text]
  | none =>
    rw [h, Option.map_none] at htag
    have hpos : ∀ b ∈ text, decide (b ≠ Tag.opener) = true := by
      intro b hb
      have hne : b ≠ Tag.opener := fun he => ht (he ▸ hb)
      simpa using hne
    rw [next_of_none (f := { f with ahead := text ++ rest }) htag,
      next_of_none (f := { f.pass text with ahead := rest }) h]
    obtain ⟨level, limit, skipped, captured, ahead, depth⟩ := f
    cases captured with
    | none =>
      simp only [wait, pass, dropIdle, List.takeWhile_append_of_pos hpos,
        List.dropWhile_append_of_pos hpos]
      rfl
    | some c =>
      simp only [wait, pass, dropIdle, List.takeWhile_append_of_pos hpos,
        List.dropWhile_append_of_pos hpos, List.append_assoc]

/-- Waiting twice is waiting once, as the first time leaves only unfinished markup ahead. -/
theorem waiting_waiting (f : Framer) : f.waiting.waiting = f.waiting := by
  have hdrop := Tag.dropWhile_dropWhile f.ahead
  have htake : (f.ahead.dropWhile (· ≠ Tag.opener)).takeWhile (· ≠ Tag.opener) = [] := by
    have hsum := List.takeWhile_append_dropWhile (p := (· ≠ Tag.opener))
      (l := f.ahead.dropWhile (· ≠ Tag.opener))
    rw [hdrop] at hsum
    exact List.append_left_eq_self.1 hsum
  obtain ⟨level, limit, skipped, captured, ahead, depth⟩ := f
  cases captured with
  | none => simp only [waiting, hdrop]
  | some c => simp only [waiting, hdrop, htake, List.append_nil]

/-- If a call finds no message, the next call finds none either and leaves the framer as it is. -/
theorem next_of_quiet {f g : Framer} (h : f.next = (.ok none, g)) : g.next = (.ok none, g) := by
  induction f using nextInduction with
  | waits f hnone =>
    rw [next_of_none hnone, wait_eq] at h
    split at h
    · cases h
    · next hle =>
      cases h
      -- What is dropped while it waits was text, so there is no markup in the rest.
      have hwaiting : Tag.next? f.waiting.ahead = none := by
        rw [ahead_waiting]
        exact Tag.next?_dropWhile hnone
      rw [next_of_none hwaiting, wait_eq, waiting_waiting, limit_waiting, if_neg hle]
  | ends f t a f' ht hm =>
    rw [next_ends ht hm] at h
    cases a <;> cases h
  | goesOn f t f' ht hm ih => exact ih (next_goesOn ht hm ▸ h)

/-! ### Bytes that belong to no message -/

/-- `f.Lighter g`: the framer `g` is `f`, but may hold more bytes that belong to no message. -/
def Lighter (f g : Framer) : Prop := ∃ n, f.skipped ≤ n ∧ g = { f with skipped := n }

theorem Lighter.refl (f : Framer) : f.Lighter f := ⟨f.skipped, Nat.le_refl _, rfl⟩

theorem Lighter.trans {f g k : Framer} (h : f.Lighter g) (h' : g.Lighter k) : f.Lighter k := by
  obtain ⟨n, hn, rfl⟩ := h
  obtain ⟨m, hm, rfl⟩ := h'
  exact ⟨m, Nat.le_trans hn hm, rfl⟩

/-- `Lighter` framers have the same number of bytes of a message and of bytes ahead. -/
theorem Lighter.pending_eq {f g : Framer} (h : f.Lighter g) : f.pending = g.pending := by
  obtain ⟨n, -, rfl⟩ := h
  rfl

/-- `Lighter` is kept when both framers are given the same bytes. -/
theorem Lighter.extend {f g : Framer} (h : f.Lighter g) (more : List UInt8) :
    (f.extend more).Lighter (g.extend more) := by
  obtain ⟨n, hn, rfl⟩ := h
  exact ⟨n, hn, rfl⟩

/-- `Lighter` is kept by `meet`, with the same answer. -/
theorem Lighter.meet {f g : Framer} (h : f.Lighter g) (t : Tag) :
    ∃ g', g.meet t = ((f.meet t).1, g') ∧ (f.meet t).2.Lighter g' := by
  obtain ⟨n, hn, rfl⟩ := h
  -- `meet` looks at the kind, the depth and whether a message is open, and at none of the bytes
  -- that count as `skipped`.
  have hmeet : (f.meet t).1 = ({ f with skipped := n }.meet t).1 ∧
      (f.meet t).2.Lighter ({ f with skipped := n }.meet t).2 := by
    obtain ⟨level, limit, skipped, captured, ahead, depth⟩ := f
    dsimp only at hn
    cases hk : t.kind with
    | skip => cases captured <;> simp [Framer.meet, Lighter, beyond, pass, hk, hn]
    | openTag => by_cases hd : depth = level <;> cases captured <;>
        simp [Framer.meet, Lighter, beyond, pass, hk, hd, hn]
    | selfClosing => by_cases hd : depth = level <;> cases captured <;>
        simp [Framer.meet, Lighter, beyond, pass, hk, hd, hn]
    | closeTag =>
      by_cases h0 : depth = 0 <;> by_cases hd : depth - 1 = level <;> cases captured <;>
        simp [Framer.meet, Lighter, beyond, pass, recover, hk, h0, hd, hn]
  refine ⟨({ f with skipped := n }.meet t).2, ?_, hmeet.2⟩
  rw [hmeet.1]

/-- `Lighter` is kept by `wait`, with the same answer. -/
theorem Lighter.wait {f g : Framer} (h : f.Lighter g) :
    f.wait.1 = g.wait.1 ∧ f.wait.2.Lighter g.wait.2 := by
  obtain ⟨n, hn, rfl⟩ := h
  have hwaiting : f.waiting.Lighter { f with skipped := n }.waiting := by
    obtain ⟨level, limit, skipped, captured, ahead, depth⟩ := f
    cases captured with
    | none => exact .refl _
    | some c => exact ⟨n, hn, rfl⟩
  -- The bytes that are compared with the limit are those that wait, not those that were skipped.
  have hpending := hwaiting.pending_eq
  have hrecover : f.waiting.recover = { f with skipped := n }.waiting.recover := by
    obtain ⟨m, -, hm⟩ := hwaiting
    rw [hm]
    rfl
  rw [wait_eq, wait_eq, ← hpending, ← hrecover]
  split
  · exact ⟨rfl, .refl _⟩
  · exact ⟨rfl, hwaiting⟩

/-- A call on either framer gives the same answer, and leaves them `Lighter`. -/
def Alike (f g : Framer) : Prop := f.next.1 = g.next.1 ∧ f.next.2.Lighter g.next.2

/-- Bytes that belong to no message have no influence on a call, by `nextInduction`. -/
theorem Lighter.alike {f g : Framer} (h : f.Lighter g) : f.Alike g := by
  induction f using nextInduction generalizing g with
  -- Each case is the lemma about `wait` or about `meet`; only behind a piece of markup is there an
  -- induction hypothesis.
  | waits f hnone =>
    have hwait := h.wait
    obtain ⟨n, -, rfl⟩ := h
    rw [Alike, next_of_none hnone, next_of_none (f := { f with skipped := n }) hnone]
    exact hwait
  | ends f t a f' ht hm =>
    obtain ⟨g', hg, hl⟩ := h.meet t
    obtain ⟨n, -, rfl⟩ := h
    rw [hm] at hg hl
    rw [Alike, next_ends ht hm, next_ends (f := { f with skipped := n }) ht hg]
    exact ⟨rfl, hl⟩
  | goesOn f t f' ht hm ih =>
    obtain ⟨g', hg, hl⟩ := h.meet t
    obtain ⟨n, -, rfl⟩ := h
    rw [hm] at hg hl
    rw [Alike, next_goesOn ht hm, next_goesOn (f := { f with skipped := n }) ht hg]
    exact ih hl

/-! ### More bytes -/

/-- A call that answers a message, or an error other than `messageTooLarge`, gives the same answer
    when more bytes follow. -/
theorem next_extend_of_ends {f : Framer} (h : f.next.1 ≠ .ok none)
    (hs : f.next.1 ≠ .error (.messageTooLarge f.limit)) (more : List UInt8) :
    (f.extend more).next = (f.next.1, f.next.2.extend more) := by
  -- A call that waits is excluded by the hypotheses, and complete markup is final.
  induction f using nextInduction with
  | waits f hnone =>
    rw [next_of_none hnone, wait_eq] at h hs
    split at h
    · next hlt => exact absurd (by rw [if_pos hlt]) hs
    · exact absurd rfl h
  | ends f t a f' ht hm =>
    have hmeet := f.meet_extend t more
    rw [hm] at hmeet
    rw [next_ends ht hm, next_ends (f := f.extend more) (Tag.next?_append ht more) hmeet]
  | goesOn f t f' ht hm ih =>
    have hmeet := f.meet_extend t more
    have hlimit : f'.limit = f.limit := by
      have hbounds := (f.meet_bounds ht).1
      rwa [hm] at hbounds
    rw [hm] at hmeet
    rw [next_goesOn ht hm] at h hs ⊢
    rw [next_goesOn (f := f.extend more) (Tag.next?_append ht more) hmeet]
    exact ih h (hlimit ▸ hs)

/-- If a call finds no message, giving more bytes to the framer that it leaves is `Alike` to giving
    them to the framer before the call. -/
theorem alike_extend_of_quiet {f g : Framer} (h : f.next = (.ok none, g)) (more : List UInt8) :
    (g.extend more).Alike (f.extend more) := by
  induction f using nextInduction with
  | waits f hnone =>
    rw [next_of_none hnone, wait_eq] at h
    split at h
    · cases h
    · cases h
      have hopener := Tag.opener_not_mem_takeWhile f.ahead
      -- The text before the unfinished markup is understood now instead of later.
      have htext := next_text hopener f (f.ahead.dropWhile (· ≠ Tag.opener) ++ more)
      rw [← List.append_assoc, List.takeWhile_append_dropWhile] at htext
      have hlighter : (f.waiting.extend more).Lighter
          { f.pass (f.ahead.takeWhile (· ≠ Tag.opener)) with
            ahead := f.ahead.dropWhile (· ≠ Tag.opener) ++ more } := by
        obtain ⟨level, limit, skipped, captured, ahead, depth⟩ := f
        cases captured with
        | none => exact ⟨_, Nat.zero_le _, rfl⟩
        | some c => exact .refl _
      have halike := hlighter.alike
      rw [Alike, ← htext] at halike
      exact halike
  | ends f t a f' ht hm =>
    rw [next_ends ht hm] at h
    cases a <;> cases h
  | goesOn f t f' ht hm ih =>
    have hmeet := f.meet_extend t more
    rw [hm] at hmeet
    rw [next_goesOn ht hm] at h
    rw [Alike, next_goesOn (f := f.extend more) (Tag.next?_append ht more) hmeet]
    exact ih h

/-! ### Bounds -/

/-- As long as no more bytes wait than the limit, a call does not answer `messageTooLarge`, and
    leaves no more bytes waiting. -/
theorem next_of_pending_le {f : Framer} (h : f.pending ≤ f.limit) :
    (∀ n, f.next.1 ≠ .error (.messageTooLarge n)) ∧ f.next.2.limit = f.limit ∧
      f.next.2.pending ≤ f.pending := by
  induction f using nextInduction with
  | waits f hnone =>
    have hlen := congrArg List.length
      (List.takeWhile_append_dropWhile (p := (· ≠ Tag.opener)) (l := f.ahead))
    rw [List.length_append] at hlen
    have hpending : f.waiting.pending ≤ f.pending := by
      obtain ⟨level, limit, skipped, captured, ahead, depth⟩ := f
      dsimp only at hlen
      cases captured with
      | none => simp only [waiting, pending, Option.getD_none, List.length_nil]; omega
      | some c => simp only [waiting, pending, Option.getD_some, List.length_append]; omega
    -- What waits after the call is a part of what waited before it, hence within the limit.
    have hle : ¬f.limit < f.waiting.pending := by omega
    rw [next_of_none hnone, wait_eq, if_neg hle]
    exact ⟨fun _ hanswer => (by cases hanswer), limit_waiting f, hpending⟩
  | ends f t a f' ht hm =>
    obtain ⟨hlimit, hpending⟩ := f.meet_bounds ht
    rw [hm] at hlimit hpending
    rw [next_ends ht hm]
    refine ⟨?_, hlimit, hpending⟩
    intro n hn
    cases a with
    | ok m => cases hn
    | error e =>
      cases hn
      exact ne_messageTooLarge_of_meet f t hm n rfl
  | goesOn f t f' ht hm ih =>
    obtain ⟨hlimit, hpending⟩ := f.meet_bounds ht
    rw [hm] at hlimit hpending
    dsimp only at hlimit hpending
    obtain ⟨hanswer, hlimit', hpending'⟩ := ih (by omega)
    rw [next_goesOn ht hm]
    exact ⟨hanswer, hlimit'.trans hlimit, Nat.le_trans hpending' hpending⟩

/-! ### Draining -/

/-- `f.Drains out g`: calling `nextMessage` until it finds no message answers `out`, and leaves the
    framer `g`. -/
inductive Drains : Framer → List (Except FramingError String) → Framer → Prop
  | done {f g : Framer} (h : f.nextMessage = (.ok none, g)) : Drains f [] g
  | answer {f g k : Framer} {a : Except FramingError String}
    {out : List (Except FramingError String)} (h : f.nextMessage = (a.map some, g))
    (rest : Drains g out k) : Drains f (a :: out) k

/-- `f.Reads chunks out g`: giving the chunks to the framer one by one, and draining it after each,
    answers `out` and leaves `g`. -/
inductive Reads : Framer → List (List UInt8) → List (Except FramingError String) → Framer → Prop
  | nothing (f : Framer) : Reads f [] [] f
  | chunk {f g k : Framer} {bytes : List UInt8} {chunks : List (List UInt8)}
    {out more : List (Except FramingError String)} (drained : (f.extend bytes).Drains out g)
    (rest : Reads g chunks more k) : Reads f (bytes :: chunks) (out ++ more) k

/-- `nextMessage` is `next` with the bytes of a message decoded as text. -/
theorem nextMessage_eq (f : Framer) :
    f.nextMessage = (f.next.1.map fun message => message.map Utf8.decodeText, f.next.2) := rfl

/-- `nextMessage` finds no message if and only if `next` finds none. -/
theorem nextMessage_eq_quiet {f g : Framer} :
    f.nextMessage = (.ok none, g) ↔ f.next = (.ok none, g) := by
  rw [Prod.ext_iff, Prod.ext_iff, nextMessage_eq_none]
  rfl

theorem map_some_ne_none (a : Except FramingError String) : a.map some ≠ .ok none := by
  cases a <;> nofun

section Drains

variable {f g k k' : Framer} {out out' : List (Except FramingError String)}
  {chunks : List (List UInt8)}

/-- `Alike` framers are drained of the same answers, and are `Lighter` after that. -/
theorem Drains.alike (hd : f.Drains out k) (h : f.Alike g) :
    ∃ k', g.Drains out k' ∧ k.Lighter k' := by
  induction hd generalizing g with
  | done hf =>
    obtain ⟨hanswer, hlighter⟩ := h
    rw [nextMessage_eq, hanswer] at hf
    obtain ⟨ha, rfl⟩ := Prod.mk.inj hf
    exact ⟨g.next.2, .done (Prod.ext ha rfl), hlighter⟩
  | answer hf _ ih =>
    obtain ⟨hanswer, hlighter⟩ := h
    rw [nextMessage_eq, hanswer] at hf
    obtain ⟨ha, rfl⟩ := Prod.mk.inj hf
    obtain ⟨k', hk', hl⟩ := ih hlighter.alike
    exact ⟨k', .answer (Prod.ext ha rfl) hk', hl⟩

/-- Draining is deterministic: the answers and the framer after them are determined by the framer
    before. -/
theorem Drains.unique (h : f.Drains out k) (h' : f.Drains out' k') : out = out' ∧ k = k' := by
  induction h generalizing out' k' with
  | done hf =>
    cases h' with
    | done hf' =>
      rw [hf] at hf'
      exact ⟨rfl, (Prod.mk.inj hf').2⟩
    | answer hf' rest =>
      rw [hf] at hf'
      exact absurd (Prod.mk.inj hf').1.symm (map_some_ne_none _)
  | @answer f g k a out hf _ ih =>
    cases h' with
    | done hf' =>
      rw [hf] at hf'
      exact absurd (Prod.mk.inj hf').1 (map_some_ne_none _)
    | @answer _ _ _ a' _ hf' rest =>
      rw [hf] at hf'
      obtain ⟨ha, rfl⟩ := Prod.mk.inj hf'
      -- Answers differ from none, so both ended their call with the same one.
      obtain rfl : a = a' := by cases a <;> cases a' <;> cases ha <;> rfl
      obtain ⟨rfl, rfl⟩ := ih rest
      exact ⟨rfl, rfl⟩

/-- Reading is deterministic, as draining is. -/
theorem Reads.unique (h : f.Reads chunks out k) (h' : f.Reads chunks out' k') :
    out = out' ∧ k = k' := by
  induction h generalizing out' k' with
  | nothing f =>
    cases h'
    exact ⟨rfl, rfl⟩
  | chunk drained _ ih =>
    cases h' with
    | chunk drained' rest' =>
      obtain ⟨rfl, rfl⟩ := drained.unique drained'
      obtain ⟨rfl, rfl⟩ := ih rest'
      exact ⟨rfl, rfl⟩

/-- A framer that was drained can be drained again, of nothing. -/
theorem Drains.drained (h : f.Drains out k) : k.Drains [] k := by
  induction h with
  | done hf => exact .done (nextMessage_eq_quiet.2 (next_of_quiet (nextMessage_eq_quiet.1 hf)))
  | answer _ _ ih => exact ih

/-- Draining keeps the limit, and leaves no more bytes waiting, if no more than the limit wait. -/
theorem Drains.pending_le (h : f.Drains out k) (hf : f.pending ≤ f.limit) :
    k.limit = f.limit ∧ k.pending ≤ f.pending := by
  induction h with
  | @done f g hf' =>
    obtain ⟨-, hlimit, hpending⟩ := next_of_pending_le hf
    obtain rfl : f.next.2 = g := (Prod.mk.inj hf').2
    exact ⟨hlimit, hpending⟩
  | @answer f g k a out hf' _ ih =>
    obtain ⟨-, hlimit, hpending⟩ := next_of_pending_le hf
    obtain rfl : f.next.2 = g := (Prod.mk.inj hf').2
    obtain ⟨hlimit', hpending'⟩ := ih (by omega)
    exact ⟨hlimit'.trans hlimit, Nat.le_trans hpending' hpending⟩

/-- Draining keeps `Settled`. -/
theorem Drains.settled (h : f.Drains out k) (hf : f.Settled) : k.Settled := by
  induction h with
  | @done f g hf' =>
    obtain rfl : f.next.2 = g := (Prod.mk.inj hf').2
    exact (answered_next hf.toSound).settled
  | @answer f g k a out hf' _ ih =>
    obtain rfl : f.next.2 = g := (Prod.mk.inj hf').2
    exact ih (answered_next hf.toSound).settled

/-- Draining terminates if no more bytes wait than the limit: each answer makes the buffer shorter,
    as the framer is not `Stuck`. -/
theorem exists_drains {f : Framer} (hf : f.Settled) (h : f.pending ≤ f.limit) :
    ∃ out k, f.Drains out k := by
  by_cases ha : f.next.1 = .ok none
  · exact ⟨[], f.next.2, .done (nextMessage_eq_quiet.2 (Prod.ext ha rfl))⟩
  · have hstuck : ¬f.Stuck := by
      intro hs
      have hlarge := hs.large
      have hle : f.ahead.length ≤ f.pending := Nat.le_add_left _ _
      omega
    -- The call makes the buffer shorter, which the recursion is on.
    have hlt := buffered_next_lt hf ha hstuck
    obtain ⟨-, hlimit, hpending⟩ := next_of_pending_le h
    obtain ⟨out, k, hd⟩ := exists_drains (answered_next hf.toSound).settled (by omega)
    have hanswer : ∃ a : Except FramingError String, f.nextMessage = (a.map some, f.next.2) := by
      rw [nextMessage_eq]
      match hn : f.next.1 with
      | .error e => exact ⟨.error e, rfl⟩
      | .ok none => exact absurd hn ha
      | .ok (some message) => exact ⟨.ok (Utf8.decodeText message), rfl⟩
    obtain ⟨a, hanswer⟩ := hanswer
    exact ⟨a :: out, k, .answer hanswer hd⟩
  termination_by f.buffered

/-- Draining, giving more bytes and draining again answers what draining once with all bytes
    answers, and the framers after it are `Lighter`. -/
theorem Drains.extend (h : f.Drains out g) {more : List UInt8}
    (hf : f.pending ≤ f.limit) (h' : (g.extend more).Drains out' k) :
    ∃ k', (f.extend more).Drains (out ++ out') k' ∧ k.Lighter k' := by
  induction h with
  | done hf' => exact h'.alike (alike_extend_of_quiet (nextMessage_eq_quiet.1 hf') more)
  | @answer f g _ a out hf' _ ih =>
    obtain ⟨hanswer, hlimit, hpending⟩ := next_of_pending_le hf
    obtain rfl : f.next.2 = g := (Prod.mk.inj hf').2
    -- This call found something, so it was not one that waits.
    have hne : f.next.1 ≠ .ok none := by
      intro hnone
      rw [nextMessage_eq, hnone] at hf'
      exact map_some_ne_none a (Prod.mk.inj hf').1.symm
    have hnext := next_extend_of_ends hne (hanswer _) more
    obtain ⟨k', hk', hl⟩ := ih (by omega) h'
    refine ⟨k', .answer ?_ hk', hl⟩
    rw [nextMessage_eq, hnext]
    exact Prod.ext (Prod.mk.inj hf').1 rfl

/-- With a chunk, just its bytes wait in addition. -/
theorem pending_extend (f : Framer) (bytes : List UInt8) :
    (f.extend bytes).pending = f.pending + bytes.length := by
  simp only [pending, Framer.extend, List.length_append]
  omega

/-- Reading terminates if the limit leaves room for all bytes of the chunks. -/
theorem exists_reads (hf : f.Settled) (h : f.pending + chunks.flatten.length ≤ f.limit) :
    ∃ out k, f.Reads chunks out k := by
  induction chunks generalizing f with
  | nil => exact ⟨[], f, .nothing f⟩
  | cons bytes chunks ih =>
    rw [List.flatten_cons, List.length_append] at h
    have hsettled : (f.extend bytes).Settled := (settled_step hf (.extend bytes)).1
    have hlimit : (f.extend bytes).limit = f.limit := rfl
    have hpending := f.pending_extend bytes
    have hle : (f.extend bytes).pending ≤ (f.extend bytes).limit := by omega
    obtain ⟨out, g, hd⟩ := exists_drains hsettled hle
    obtain ⟨hlimit', hpending'⟩ := hd.pending_le hle
    obtain ⟨more, k, hk⟩ := ih (hd.settled hsettled) (by omega)
    exact ⟨out ++ more, k, .chunk hd hk⟩

/-- **Chunks may be joined.** If the limit leaves room for all bytes, reading chunks answers what
    draining answers after all of them at once. -/
theorem Reads.flatten (h : f.Reads chunks out k) (hd : f.Drains [] f)
    (hle : f.pending + chunks.flatten.length ≤ f.limit) :
    ∃ k', (f.extend chunks.flatten).Drains out k' ∧ k.Lighter k' := by
  induction h with
  | nothing f =>
    have hsame : f.extend [] = f := by rw [Framer.extend, List.append_nil]
    exact ⟨f, hsame.symm ▸ hd, .refl f⟩
  | @chunk f g k bytes chunks out more drained _ ih =>
    rw [List.flatten_cons, List.length_append] at hle
    have hpending := f.pending_extend bytes
    -- There is room for the first chunk alone, and after it for the others.
    have hroom : (f.extend bytes).pending ≤ (f.extend bytes).limit := by
      show _ ≤ f.limit
      omega
    obtain ⟨hlimit, hpending'⟩ := drained.pending_le hroom
    change g.limit = f.limit at hlimit
    obtain ⟨k₁, hk₁, hl₁⟩ := ih drained.drained (by omega)
    obtain ⟨k₂, hk₂, hl₂⟩ := drained.extend hroom hk₁
    have hsame : (f.extend bytes).extend chunks.flatten = f.extend (bytes :: chunks).flatten := by
      rw [Framer.extend, Framer.extend, Framer.extend, List.flatten_cons, List.append_assoc]
    exact ⟨k₂, hsame ▸ hk₂, hl₁.trans hl₂⟩

/-- Reading a single chunk is draining the framer with it. -/
theorem reads_singleton {bytes : List UInt8} :
    f.Reads [bytes] out k ↔ (f.extend bytes).Drains out k := by
  constructor
  · intro h
    cases h with
    | chunk drained rest =>
      cases rest
      rwa [List.append_nil]
  · intro h
    have hreads := Reads.chunk h (.nothing k)
    rwa [List.append_nil] at hreads

end Drains

theorem drains_start (level limit : Nat) : (start level limit).Drains [] (start level limit) := by
  refine .done (nextMessage_eq_quiet.2 ?_)
  rw [next_of_none rfl, wait_eq]
  exact if_neg (Nat.not_lt_zero limit)

/-- **Where a stream is cut does not matter.** If a message may be as long as the whole stream,
    draining after every chunk ends and answers the same messages and errors in the same order as
    draining once.  In the end the framer has understood the same: `captured`, `ahead` and `depth`
    are equal.  The number of bytes in the buffer is equal as well if no message is under way; if
    one is, the buffer may hold less of the text in front of it the more often the framer was
    drained. -/
theorem reads_flatten (level limit : Nat) (chunks : List (List UInt8))
    (h : chunks.flatten.length ≤ limit) :
    (∃ out f, (start level limit).Reads chunks out f) ∧
      ∀ out out' f g, (start level limit).Reads chunks out f →
        (start level limit).Reads [chunks.flatten] out' g →
        out = out' ∧ f.captured = g.captured ∧ f.ahead = g.ahead ∧ f.depth = g.depth ∧
          f.buffered ≤ g.buffered ∧ (f.captured = none → f.buffered = g.buffered) := by
  have hpending : (start level limit).pending = 0 := rfl
  have hle : (start level limit).pending + chunks.flatten.length ≤ (start level limit).limit := by
    rwa [hpending, Nat.zero_add]
  refine ⟨exists_reads (settled_start level limit) hle, ?_⟩
  intro out out' f g hf hg
  obtain ⟨k, hk, hlight⟩ := hf.flatten (drains_start level limit) hle
  have hg := reads_singleton.1 hg
  obtain ⟨rfl, rfl⟩ := hk.unique hg
  have hsettled := hg.settled (settled_step (settled_start level limit) (.extend chunks.flatten)).1
  obtain ⟨n, hn, rfl⟩ := hlight
  refine ⟨rfl, rfl, rfl, rfl, ?_, ?_⟩
  · exact Nat.add_le_add_right (Nat.add_le_add_right hn _) _
  · -- Without a message under way, neither holds anything that belongs to none.
    intro hc
    have hnone : n = 0 := hsettled.dropped hc
    have hzero : f.skipped = 0 := by omega
    simp only [buffered, hzero, hnone]

/-- `reads_flatten` where the cut is inside of a tag that closes itself. -/
theorem reads_flatten_inside_tag :
    let chunks := [asciiBytes "<a".toList, asciiBytes "/>b".toList]
    chunks.flatten.length ≤ 5 ∧ (∃ out f, (start 0 5).Reads chunks out f) ∧
      ∀ out out' f g, (start 0 5).Reads chunks out f → (start 0 5).Reads [chunks.flatten] out' g →
        out = out' ∧ f.captured = g.captured ∧ f.ahead = g.ahead ∧ f.depth = g.depth ∧
          f.buffered ≤ g.buffered ∧ (f.captured = none → f.buffered = g.buffered) :=
  ⟨by decide, reads_flatten 0 5 [asciiBytes "<a".toList, asciiBytes "/>b".toList] (by decide)⟩

/-- The number of bytes in the buffer does depend on the cut while a message is under way: a blank
    in front of the message stays in the buffer, unless the framer was drained before the message
    began. -/
theorem buffered_of_cut : ∃ f g,
    (start 0 4).Reads [asciiBytes " ".toList, asciiBytes "<a>".toList] [] f ∧
      (start 0 4).Reads [asciiBytes " <a>".toList] [] g ∧ f.buffered ≠ g.buffered := by
  -- Cut behind the blank, the framer drops it when it waits; in one piece, the message is open
  -- before it waits.
  have hblank : ((start 0 4).extend (asciiBytes " ".toList)).next = (.ok none, start 0 4) := by
    rw [next_of_none (by decide), wait_eq]
    rfl
  have hcut : ((start 0 4).extend (asciiBytes "<a>".toList)).next =
      (.ok none, { start 0 4 with captured := some (asciiBytes "<a>".toList), depth := 1 }) := by
    rw [next_goesOn (t := ⟨[], .openTag, asciiBytes "<a>".toList, []⟩) rfl rfl,
      next_of_none (by decide), wait_eq]
    rfl
  have hwhole : ((start 0 4).extend (asciiBytes " <a>".toList)).next = (.ok none, { start 0 4 with
      skipped := 1, captured := some (asciiBytes "<a>".toList), depth := 1 }) := by
    rw [next_goesOn (t := ⟨asciiBytes " ".toList, .openTag, asciiBytes "<a>".toList, []⟩)
      rfl rfl, next_of_none (by decide), wait_eq]
    rfl
  exact ⟨_, _, .chunk (.done (nextMessage_eq_quiet.2 hblank))
    (.chunk (.done (nextMessage_eq_quiet.2 hcut)) (.nothing _)),
    reads_singleton.2 (.done (nextMessage_eq_quiet.2 hwhole)), by decide⟩

end Framer

end Observatory
