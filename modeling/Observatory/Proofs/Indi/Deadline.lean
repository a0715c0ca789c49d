import Observatory.Proofs.Indi.Ledger

/-!
# Deadlines of a queue

A throttled message may wait for the time of the entry that holds it.  Entries get their time
when the first message of a stream is pushed, or when an entry is delivered, and keep it
until a message that is not throttled ends all waiting.  So no entry waits for longer than one
expiration; and since a placeholder leaves nothing behind, a queue that gets no more messages is
empty after two of them.

* `MessageQueue.isSome_popReady?_iff`, `MessageQueue.popReady?_of_lt`: when something is ready;
* `MessageQueue.attend`: take the next entry when it is ready, with
  `MessageQueue.attend_eq` and the measure `MessageQueue.owed`;
* `MessageQueue.Dated`: how late an entry may be due, with `MessageQueue.dated_run`;
* `MessageQueue.Draining`: what holds of a queue while it is attended and nothing is pushed;
* `Ledger.Answered`: a message is delivered, or waits in time, or a later one of its stream does
  so instead;
* `MessageQueue.prompt_run`: what this comes to in a run.
-/

namespace Observatory

/-! ### Readiness -/

namespace QueueEntry

variable {e : QueueEntry} {now : Nat}

/-- An entry is ready at `now` if and only if `readyAt now` is `now`. -/
theorem isReady_iff : e.isReady now = true ↔ e.readyAt now = now := by
  rw [isReady, readyAt]
  cases e.due with
  | none => simp
  | some due =>
    simp only [decide_eq_true_eq]
    omega

/-- `readyAt now` is never earlier than `now`. -/
theorem le_readyAt (e : QueueEntry) (now : Nat) : now ≤ e.readyAt now := by
  rw [readyAt]
  split <;> omega

/-- An entry is ready at the time that `readyAt` gives. -/
theorem isReady_readyAt (e : QueueEntry) (now : Nat) : e.isReady (e.readyAt now) = true := by
  rw [isReady, readyAt]
  cases e.due with
  | none => rfl
  | some due => simp only [decide_eq_true_eq]; omega

/-- An entry that is not ready now is not ready at any time before `readyAt`. -/
theorem isReady_of_lt {x : Nat} (h : now < e.readyAt now) (hx : x < e.readyAt now) :
    e.isReady x = false := by
  unfold readyAt at h hx
  rw [isReady]
  split at h
  · omega
  · next due hd =>
    simp only [hd] at hx ⊢
    rw [decide_eq_false_iff_not]
    omega

/-- What an entry leaves in the queue when it is delivered: a placeholder, if it waited for a time
    and was none itself. -/
def leaves (e : QueueEntry) (due : Nat) : List QueueEntry :=
  if e.due.isSome && !e.placeholder then [{ e with due := some due, placeholder := true }] else []

/-- How many deliveries an entry stands for, counting that of the placeholder it leaves. -/
def weight (e : QueueEntry) : Nat := if e.due.isSome && !e.placeholder then 2 else 1

/-- A delivery uses up one of the deliveries that the `weight` of an entry counts: what the entry
    `leaves` in the queue stands for one less than the entry did. -/
theorem weight_leaves (e : QueueEntry) (due : Nat) :
    ((e.leaves due).map weight).sum + 1 = e.weight := by
  rw [leaves, weight]
  split <;> rfl

end QueueEntry

namespace MessageQueue

open QueueEntry

variable {q q' : MessageQueue} {now d x : Nat} {m : Message} {entries rest : List QueueEntry}
  {e : QueueEntry}

/-- `takeReady?` takes the first entry that is ready, and leaves the others in their order. -/
theorem takeReady?_eq_some_iff : takeReady? now entries = some (e, rest) ↔
    ∃ before after, entries = before ++ e :: after ∧ rest = before ++ after ∧
      e.isReady now = true ∧ ∀ b ∈ before, b.isReady now = false := by
  constructor
  · intro h
    induction entries generalizing rest with
    | nil => cases h
    | cons a entries ih =>
      rw [takeReady?] at h
      split at h
      · next ha =>
        cases h
        exact ⟨[], entries, rfl, rfl, ha, List.forall_mem_nil _⟩
      · next ha =>
        obtain ⟨p, hp, he⟩ := Option.map_eq_some_iff.1 h
        obtain ⟨rfl, rfl⟩ := Prod.mk.inj he
        obtain ⟨before, after, rfl, hrest, hready, hbefore⟩ := ih hp
        exact ⟨a :: before, after, rfl, congrArg (a :: ·) hrest, hready,
          List.forall_mem_cons.2 ⟨by simpa using ha, hbefore⟩⟩
  · -- Conversely all entries in front of it are passed over, one after the other.
    rintro ⟨before, after, rfl, rfl, hready, hbefore⟩
    induction before with
    | nil => rw [List.nil_append, takeReady?, if_pos hready]; rfl
    | cons b before ih =>
      obtain ⟨hb, hbefore⟩ := List.forall_mem_cons.1 hbefore
      rw [List.cons_append, takeReady?, if_neg (by simp [hb]), ih hbefore]
      rfl

/-- `takeReady?` takes nothing if and only if no entry is ready. -/
theorem takeReady?_eq_none_iff :
    takeReady? now entries = none ↔ ∀ e ∈ entries, e.isReady now = false := by
  induction entries with
  | nil => simp [takeReady?]
  | cons a entries ih =>
    rw [takeReady?]
    split
    · next ha => simp [ha]
    · next ha => simp [ha, ih]

/-- What a pop does: it delivers the first entry that is ready, and puts what that leaves at the
    end. -/
theorem popReady?_eq_some (h : q.popReady? now = some (m, q')) : ∃ before e after,
    q.entries = before ++ e :: after ∧ e.isReady now = true ∧
      (∀ b ∈ before, b.isReady now = false) ∧ m = e.message ∧
        q' = { q with entries := before ++ after ++ e.leaves (now + q.expiration) } := by
  obtain ⟨⟨e, rest⟩, htake, hpop⟩ := Option.map_eq_some_iff.1 h
  obtain ⟨before, after, hentries, rfl, hready, hbefore⟩ := takeReady?_eq_some_iff.1 htake
  refine ⟨before, e, after, hentries, hready, hbefore, ?_⟩
  dsimp only at hpop
  -- Whether the message leaves a placeholder is decided by the same test in both.
  rw [leaves]
  split at hpop
  · next hlive =>
    cases hpop
    rw [if_pos hlive]
    exact ⟨rfl, rfl⟩
  · next hlive =>
    cases hpop
    rw [if_neg hlive, List.append_nil]
    exact ⟨rfl, rfl⟩

theorem popReady?_eq_none_iff :
    q.popReady? now = none ↔ ∀ e ∈ q.entries, e.isReady now = false := by
  rw [popReady?, Option.map_eq_none_iff, takeReady?_eq_none_iff]

theorem isSome_popReady?_iff_exists :
    (q.popReady? now).isSome = true ↔ ∃ e ∈ q.entries, e.isReady now = true := by
  rw [Option.isSome_iff_ne_none, ne_eq, popReady?_eq_none_iff]
  simp

/-- `nextDue?` is the least time at which an entry is ready. -/
theorem nextDue?_eq_some_iff : q.nextDue? now = some d ↔
    (∃ e ∈ q.entries, e.readyAt now = d) ∧ ∀ e ∈ q.entries, d ≤ e.readyAt now := by
  rw [nextDue?, List.min?_eq_some_iff]
  simp

/-- With an entry in the queue there is a next time, no later than the time of that entry. -/
theorem exists_nextDue? (h : e ∈ q.entries) (now : Nat) : ∃ d, q.nextDue? now = some d ∧
    d ≤ e.readyAt now := by
  cases hd : q.nextDue? now with
  | none =>
    have hnil : q.entries = [] := by simpa [nextDue?] using hd
    rw [hnil] at h
    cases h
  | some d => exact ⟨d, rfl, (nextDue?_eq_some_iff.1 hd).2 e h⟩

/-- Something is ready now if and only if `nextDue?` says now. -/
theorem isSome_popReady?_iff :
    (q.popReady? now).isSome = true ↔ q.nextDue? now = some now := by
  rw [isSome_popReady?_iff_exists, nextDue?_eq_some_iff]
  simp only [isReady_iff]
  exact ⟨fun h => ⟨h, fun e _ => e.le_readyAt now⟩, fun h => h.1⟩

/-- At the time that `nextDue?` gives, something is ready. -/
theorem isSome_popReady?_of_nextDue? (h : q.nextDue? now = some d) :
    (q.popReady? d).isSome = true := by
  obtain ⟨⟨e, he, rfl⟩, -⟩ := nextDue?_eq_some_iff.1 h
  exact isSome_popReady?_iff_exists.2 ⟨e, he, e.isReady_readyAt now⟩

/-- Before the time that `nextDue?` gives, nothing is ready. -/
theorem popReady?_of_lt (h : q.nextDue? now = some d) (hd : now < d) (hx : x < d) :
    q.popReady? x = none := by
  refine popReady?_eq_none_iff.2 fun e he => ?_
  have hle := (nextDue?_eq_some_iff.1 h).2 e he
  exact isReady_of_lt (Nat.lt_of_lt_of_le hd hle) (Nat.lt_of_lt_of_le hx hle)

/-! ### Attending to a queue -/

/-- One round of a consumer: wait until the time that `nextDue?` gives, and pop.  The queue and the
    time afterwards. -/
def attend (s : MessageQueue × Nat) : MessageQueue × Nat :=
  match s.1.nextDue? s.2 with
  | none => s
  | some d =>
    match s.1.popReady? d with
    | none => (s.1, d)
    | some (_, q) => (q, d)

/-- The queue and the time after `n` rounds of `attend`. -/
def attended : Nat → MessageQueue × Nat → MessageQueue × Nat
  | 0, s => s
  | n + 1, s => attended n (attend s)

/-- How many deliveries a queue stands for, which is the measure for emptying it. -/
def owed (q : MessageQueue) : Nat := (q.entries.map weight).sum

/-- A pop is one of the deliveries that a queue owes. -/
theorem owed_popReady? (h : q.popReady? now = some (m, q')) : q'.owed + 1 = q.owed := by
  obtain ⟨before, e, after, hentries, -, -, -, rfl⟩ := popReady?_eq_some h
  have hweight := e.weight_leaves (now + q.expiration)
  simp only [owed, hentries, List.map_append, List.map_cons, List.sum_append, List.sum_cons]
  omega

/-- A queue that owes nothing is empty. -/
theorem entries_of_owed (h : q.owed = 0) : q.entries = [] := by
  cases hq : q.entries with
  | nil => rfl
  | cons e entries =>
    have hpos : 1 ≤ e.weight := by
      rw [weight]
      split <;> omega
    rw [owed, hq, List.map_cons, List.sum_cons] at h
    omega

/-- As long as there are entries, a round of `attend` waits for one and gets it. -/
theorem attend_eq (h : q.entries ≠ []) (now : Nat) : ∃ d m q', q.nextDue? now = some d ∧
    q.popReady? d = some (m, q') ∧ attend (q, now) = (q', d) := by
  obtain ⟨e, he⟩ := List.exists_mem_of_ne_nil _ h
  obtain ⟨d, hd, -⟩ := exists_nextDue? he now
  obtain ⟨⟨m, q'⟩, hpop⟩ := Option.isSome_iff_exists.1 (isSome_popReady?_of_nextDue? hd)
  refine ⟨d, m, q', hd, hpop, ?_⟩
  simp only [attend, hd, hpop]

/-- The last of `n + 1` rounds can be taken apart instead of the first. -/
theorem attended_succ (n : Nat) (s : MessageQueue × Nat) :
    attended (n + 1) s = attend (attended n s) := by
  induction n generalizing s with
  | zero => rfl
  | succ n ih => exact ih (attend s)

/-! ### How late an entry may be due -/

/-- The time at which an event happens. -/
def Event.time : Event → Nat
  | push _ now => now
  | pop now => now

/-- No entry is due later than one expiration from `now`, and no entry but a placeholder later than
    one expiration from `latest`, the time of the latest push. -/
structure Dated (q : MessageQueue) (latest now : Nat) : Prop where
  due : ∀ e ∈ q.entries, ∀ d, e.due = some d → d ≤ now + q.expiration
  live : ∀ e ∈ q.entries, e.placeholder = false → ∀ d, e.due = some d → d ≤ latest + q.expiration

section Dated

variable {latest later : Nat}

/-- `Dated` is kept as time passes. -/
theorem Dated.pass (h : q.Dated latest now) (hle : now ≤ later) : q.Dated latest later where
  due e he d hd := by
    have hdue := h.due e he d hd
    omega
  live := h.live

/-- A message that takes the place of another one keeps the time of the entry. -/
theorem due_of_replaceIn? {key : StreamKey} {new : List QueueEntry}
    (h : replaceIn? key m entries = some new) (he : e ∈ new) :
    ∃ a ∈ entries, a.due = e.due := by
  induction entries generalizing new with
  | nil => cases h
  | cons a entries ih =>
    rw [replaceIn?] at h
    split at h
    · cases h
      -- The entry that was replaced is the only one that is new, and it keeps its time.
      rcases List.mem_cons.1 he with rfl | he
      · exact ⟨a, List.mem_cons_self, rfl⟩
      · exact ⟨e, List.mem_cons_of_mem _ he, rfl⟩
    · obtain ⟨rest, hrest, rfl⟩ := Option.map_eq_some_iff.1 h
      rcases List.mem_cons.1 he with rfl | he
      · exact ⟨e, List.mem_cons_self, rfl⟩
      · obtain ⟨b, hb, hdue⟩ := ih hrest he
        exact ⟨b, List.mem_cons_of_mem _ hb, hdue⟩

/-- After a push, every time is one that was there before, or one expiration from now. -/
theorem due_push (he : e ∈ (q.push m now).entries) (hd : e.due = some d) :
    (∃ a ∈ q.entries, a.due = some d) ∨ d = now + q.expiration := by
  rw [push] at he
  split at he
  · -- All waiting has ended.
    rcases List.mem_append.1 he with he | he
    · obtain ⟨a, -, rfl⟩ := List.mem_map.1 he
      cases hd
    · rw [List.mem_singleton.1 he] at hd
      cases hd
  · split at he
    · next hreplace =>
      obtain ⟨a, ha, hdue⟩ := due_of_replaceIn? hreplace he
      exact .inl ⟨a, ha, hdue.trans hd⟩
    · rcases List.mem_append.1 he with he | he
      · exact .inl ⟨e, he, hd⟩
      · simp only [List.mem_cons, List.not_mem_nil, or_false] at he
        rcases he with rfl | rfl
        · cases hd
        · exact .inr (Option.some.inj hd).symm

theorem expiration_push (q : MessageQueue) (m : Message) (now : Nat) :
    (q.push m now).expiration = q.expiration := by
  rw [push]
  split
  · rfl
  · split <;> rfl

/-- `Dated` is kept by a push. -/
theorem Dated.push (h : q.Dated latest now) (hle : now ≤ latest) (m : Message) :
    (q.push m now).Dated latest now := by
  have hdue : ∀ e ∈ (q.push m now).entries, ∀ d, e.due = some d → d ≤ now + q.expiration := by
    intro e he d hd
    rcases due_push he hd with ⟨a, ha, had⟩ | rfl
    · exact h.due a ha d had
    · exact Nat.le_refl _
  rw [← expiration_push q m now] at hdue
  refine ⟨hdue, fun e he _ d hd => ?_⟩
  have hd' := hdue e he d hd
  omega

/-- After a pop, every entry was there before, or is a placeholder due one expiration from now. -/
theorem mem_of_popReady? (h : q.popReady? now = some (m, q')) (he : e ∈ q'.entries) :
    e ∈ q.entries ∨ e.placeholder = true ∧ e.due = some (now + q.expiration) := by
  obtain ⟨before, a, after, hentries, -, -, -, rfl⟩ := popReady?_eq_some h
  rw [hentries]
  simp only [List.mem_append, List.mem_cons] at he ⊢
  rcases he with (he | he) | he
  · exact .inl (.inl he)
  · exact .inl (.inr (.inr he))
  · rw [leaves] at he
    split at he
    · rw [List.mem_singleton.1 he]
      exact .inr ⟨rfl, rfl⟩
    · cases he

theorem expiration_of_popReady? (h : q.popReady? now = some (m, q')) :
    q'.expiration = q.expiration := by
  obtain ⟨-, -, -, -, -, -, -, rfl⟩ := popReady?_eq_some h
  rfl

/-- `Dated` is kept by a pop. -/
theorem Dated.popReady? (h : q.Dated latest now) (hpop : q.popReady? now = some (m, q')) :
    q'.Dated latest now := by
  have hsame := expiration_of_popReady? hpop
  constructor
  · intro e he d hd
    rw [hsame]
    -- An entry was there before, or it is the placeholder, which is due an expiration from now.
    rcases mem_of_popReady? hpop he with he | ⟨-, hnew⟩
    · exact h.due e he d hd
    · rw [hnew] at hd
      exact Nat.le_of_eq (Option.some.inj hd).symm
  · intro e he hlive d hd
    rw [hsame]
    rcases mem_of_popReady? hpop he with he | ⟨hplaceholder, -⟩
    · exact h.live e he hlive d hd
    · rw [hlive] at hplaceholder
      cases hplaceholder

/-- `Dated` is kept by every event that does not go back in time. -/
theorem Dated.step {s : MessageQueue × List Message} (h : s.1.Dated latest now) (e : Event)
    (htime : now ≤ e.time) (hpush : ∀ m t, e = .push m t → t ≤ latest) :
    (MessageQueue.step s e).1.Dated latest e.time ∧
      (MessageQueue.step s e).1.expiration = s.1.expiration := by
  cases e with
  | push m t => exact ⟨(h.pass htime).push (hpush m t rfl) m, expiration_push s.1 m t⟩
  | pop t =>
    rw [MessageQueue.step]
    split
    · next hpop => exact ⟨(h.pass htime).popReady? hpop, expiration_of_popReady? hpop⟩
    · exact ⟨h.pass htime, rfl⟩

/-- After every run at times that do not go back, the queue is `Dated`. -/
theorem dated_run (q : MessageQueue) {events : List Event}
    (ordered : (events.map Event.time ++ [now]).Pairwise (· ≤ ·))
    (pushes : ∀ m t, .push m t ∈ events → t ≤ latest) :
    (q.run events).1.Dated latest now ∧ (q.run events).1.expiration = q.expiration := by
  -- From any state that is `Dated` at some time before the first event.
  have hfold : ∀ (s : MessageQueue × List Message) (first : Nat), s.1.Dated latest first →
      (first :: (events.map Event.time ++ [now])).Pairwise (· ≤ ·) →
      (events.foldl MessageQueue.step s).1.Dated latest now ∧
        (events.foldl MessageQueue.step s).1.expiration = s.1.expiration := by
    clear ordered
    induction events with
    | nil =>
      intro s first hs hp
      exact ⟨hs.pass ((List.pairwise_cons.1 hp).1 now (by simp)), rfl⟩
    | cons e events ih =>
      intro s first hs hp
      obtain ⟨hfirst, hrest⟩ := List.pairwise_cons.1 hp
      obtain ⟨hstep, hsame⟩ := hs.step e (hfirst e.time (by simp)) fun m t he =>
        pushes m t (he ▸ List.mem_cons_self)
      obtain ⟨hdated, hsame'⟩ := ih (fun m t ht => pushes m t (List.mem_cons_of_mem _ ht)) _ _ hstep
        hrest
      exact ⟨hdated, hsame'.trans hsame⟩
  refine hfold (q.clear, []) 0 ⟨List.forall_mem_nil _, List.forall_mem_nil _⟩ ?_
  exact List.pairwise_cons.2 ⟨fun _ _ => Nat.zero_le _, ordered⟩

end Dated

/-! ### A queue that is attended -/

/-- The invariant while a queue is attended to and nothing is pushed: entries that are no
    placeholders are due at `bound` at the latest, all others one expiration after that, and once
    `bound` has passed only placeholders are left. -/
structure Draining (q : MessageQueue) (bound now : Nat) : Prop where
  due : ∀ e ∈ q.entries, ∀ d, e.due = some d → d ≤ bound + q.expiration
  live : ∀ e ∈ q.entries, e.placeholder = false → ∀ d, e.due = some d → d ≤ bound
  time : now ≤ bound + q.expiration
  late : bound < now → ∀ e ∈ q.entries, e.placeholder = true ∧ e.due.isSome = true

section Draining

variable {bound : Nat}

/-- While `Draining`, the next entry is due one expiration after `bound` at the latest. -/
theorem Draining.le_of_nextDue? (h : q.Draining bound now) (hd : q.nextDue? now = some d) :
    d ≤ bound + q.expiration := by
  obtain ⟨⟨e, he, rfl⟩, -⟩ := nextDue?_eq_some_iff.1 hd
  have htime := h.time
  rw [readyAt]
  split
  · exact htime
  · next due hdue =>
    have hle := h.due e he due hdue
    omega

/-- If the next entry is due later than `bound`, only placeholders are left. -/
theorem Draining.late_of_nextDue? (h : q.Draining bound now) (hd : q.nextDue? now = some d)
    (hlate : bound < d) : ∀ e ∈ q.entries, e.placeholder = true ∧ e.due.isSome = true := by
  intro e he
  -- Either the bound is past already, or the entry would be due before the next one.
  by_cases hnow : bound < now
  · exact h.late hnow e he
  · have hle := (nextDue?_eq_some_iff.1 hd).2 e he
    unfold readyAt at hle
    split at hle
    · omega
    · next due hdue =>
      refine ⟨?_, by rw [hdue]; rfl⟩
      cases hp : e.placeholder with
      | true => rfl
      | false =>
        have hlive := h.live e he hp due hdue
        omega

/-- `Draining` is kept by a round of `attend`. -/
theorem Draining.popReady? (h : q.Draining bound now) (hd : q.nextDue? now = some d)
    (hpop : q.popReady? d = some (m, q')) : q'.Draining bound d := by
  have hsame := expiration_of_popReady? hpop
  have hlate := h.late_of_nextDue? hd
  obtain ⟨before, a, after, hentries, -, -, -, hq'⟩ := popReady?_eq_some hpop
  -- A placeholder is left only where there was something else.
  have hnew : ∀ e ∈ q'.entries, e ∈ q.entries ∨
      d ≤ bound ∧ e.placeholder = true ∧ e.due = some (d + q.expiration) := by
    intro e he
    rcases mem_of_popReady? hpop he with hold | ⟨hplaceholder, hdue⟩
    · exact .inl hold
    · by_cases hle : d ≤ bound
      · exact .inr ⟨hle, hplaceholder, hdue⟩
      · have ha := (hlate (Nat.lt_of_not_le hle) a (by simp [hentries])).1
        rw [hq', leaves, ha, Bool.not_true, Bool.and_false, if_neg Bool.false_ne_true,
          List.append_nil] at he
        refine .inl ?_
        simp only [hentries, List.mem_append, List.mem_cons] at he ⊢
        exact he.imp_right .inr
  constructor
  case due =>
    intro e he due hdue
    rw [hsame]
    rcases hnew e he with hold | ⟨hle, -, hnew⟩
    · exact h.due e hold due hdue
    · rw [hnew] at hdue
      have hsum := Option.some.inj hdue
      omega
  case live =>
    intro e he hp due hdue
    rcases hnew e he with hold | ⟨-, hplaceholder, -⟩
    · exact h.live e hold hp due hdue
    · rw [hp] at hplaceholder
      cases hplaceholder
  case time =>
    rw [hsame]
    exact h.le_of_nextDue? hd
  case late =>
    intro hlt e he
    rcases hnew e he with hold | ⟨hle, -, -⟩
    · exact hlate hlt e hold
    · omega

/-- **Emptying a queue.** Attending to a queue takes everything from it, with as many pops as it
    owes deliveries, and is done one expiration after `bound`. -/
theorem Draining.attended (h : q.Draining bound now) :
    (MessageQueue.attended q.owed (q, now)).1.entries = [] ∧
      (MessageQueue.attended q.owed (q, now)).2 ≤ bound + q.expiration := by
  -- Each pop is one of the deliveries, which the induction is on.
  induction hn : q.owed generalizing q now with
  | zero => exact ⟨entries_of_owed hn, h.time⟩
  | succ n ih =>
    have hne : q.entries ≠ [] := by
      intro hnil
      rw [owed, hnil] at hn
      cases hn
    obtain ⟨d, m, q', hd, hpop, hattend⟩ := attend_eq hne now
    have howed := owed_popReady? hpop
    have hrest := ih (h.popReady? hd hpop) (by omega)
    rw [expiration_of_popReady? hpop] at hrest
    rw [MessageQueue.attended, hattend]
    exact hrest

end Draining

/-- Every round pays one of the deliveries owed. -/
theorem owed_attended {k : Nat} (hk : k ≤ q.owed) (now : Nat) :
    (attended k (q, now)).1.owed + k = q.owed := by
  induction k with
  | zero => rfl
  | succ k ih =>
    have howed := ih (Nat.le_of_succ_le hk)
    -- As long as anything is owed there are entries, and a round finds one of them.
    have hne : (attended k (q, now)).1.entries ≠ [] := by
      intro hnil
      rw [owed, hnil] at howed
      simp at howed
      omega
    obtain ⟨d, m, q', -, hpop, hattend⟩ := attend_eq hne (attended k (q, now)).2
    have hpopped := owed_popReady? hpop
    rw [attended_succ]
    change (attend ((attended k (q, now)).1, (attended k (q, now)).2)).1.owed + _ = _
    rw [hattend]
    dsimp only
    omega

/-- As long as something is owed, every round of `attend` gets a message, at the time that
    `nextDue?` gives. -/
theorem exists_pop_attended {k : Nat} (hk : k < q.owed) (now : Nat) : ∃ d m q',
    (attended k (q, now)).1.nextDue? (attended k (q, now)).2 = some d ∧
      (attended k (q, now)).1.popReady? d = some (m, q') ∧
        attended (k + 1) (q, now) = (q', d) := by
  have howed := owed_attended (Nat.le_of_lt hk) now
  have hne : (attended k (q, now)).1.entries ≠ [] := by
    intro hnil
    rw [owed, hnil] at howed
    simp at howed
    omega
  obtain ⟨d, m, q', hd, hpop, hattend⟩ := attend_eq hne (attended k (q, now)).2
  exact ⟨d, m, q', hd, hpop, (attended_succ k (q, now)).trans hattend⟩

/-- An entry stands for two deliveries at the most. -/
theorem owed_le (q : MessageQueue) : q.owed ≤ 2 * q.size := by
  rw [owed, size]
  induction q.entries with
  | nil => exact Nat.le_refl _
  | cons e entries ih =>
    have hle : e.weight ≤ 2 := by
      rw [weight]
      split <;> omega
    rw [List.map_cons, List.sum_cons, List.length_cons]
    omega

end MessageQueue

/-! ### Messages in time -/

namespace Ledger

variable {q : MessageQueue} {l l' : Ledger} {i limit : Nat}

/-- The message at position `i` was delivered, or a later one of its stream instead of it, or such
    a message is in an entry that is due at `limit` at the latest. -/
def Answered (q : MessageQueue) (l : Ledger) (i limit : Nat) : Prop :=
  ∃ j, StandsFor q l.pushed j i ∧ (j ∈ l.delivered ∨ ∃ t ∈ l.waiting, t.position = j ∧
    t.entry.placeholder = false ∧ ∀ d, t.entry.due = some d → d ≤ limit)

/-- `Answered` is kept by every move of the ledger, one case for each.  A replaced message is
    answered by the one that took its place, which waits until the same time. -/
theorem Answered.move (hs : l.Sound q) (h : l.Answered q i limit) (hm : Move q l l') :
    l'.Answered q i limit := by
  obtain ⟨j, hj, hdelivered⟩ := h
  cases hm with
  | @flush pushed waiting delivered m hard =>
    rcases hdelivered with hmem | ⟨t, ht, rfl, hlive, -⟩
    · exact ⟨j, hj.append (hs.known j hmem) m, .inl hmem⟩
    · -- Its entry does not wait for its time any more.
      exact ⟨t.position, hj.append (hs.position_lt ht) m, .inr ⟨_,
        List.mem_append_left _ (mem_flush.2 ⟨t, ht, hlive, rfl⟩), rfl, hlive, nofun⟩⟩
  | @replace pushed before after u delivered m key stream waits =>
    rcases hdelivered with hmem | ⟨t, ht, rfl, hlive, hdue⟩
    · exact ⟨j, hj.append (hs.known j hmem) m, .inl hmem⟩
    · have hkeep := hj.append (hs.position_lt ht) m
      rcases List.mem_append.1 ht with hb | ha
      · exact ⟨t.position, hkeep, .inr ⟨t, List.mem_append_left _ hb, rfl, hlive, hdue⟩⟩
      rcases List.mem_cons.1 ha with rfl | ha
      · -- The new message waits in the old one's place, until the same time.
        exact ⟨pushed.length, (hs.standsFor_renew stream waits).trans hkeep, .inr ⟨_,
          List.mem_append_right _ List.mem_cons_self, rfl, rfl, hdue⟩⟩
      · exact ⟨t.position, hkeep, .inr ⟨t,
          List.mem_append_right _ (List.mem_cons_of_mem _ ha), rfl, hlive, hdue⟩⟩
  | @arrive pushed waiting delivered m key due stream none_waits =>
    rcases hdelivered with hmem | ⟨t, ht, rfl, hlive, hdue⟩
    · exact ⟨j, hj.append (hs.known j hmem) m, .inl hmem⟩
    · exact ⟨t.position, hj.append (hs.position_lt ht) m, .inr ⟨t, List.mem_append_left _ ht, rfl,
        hlive, hdue⟩⟩
  | @deliver pushed before after more u delivered passed leaves =>
    refine ⟨j, hj, ?_⟩
    rcases hdelivered with hmem | ⟨t, ht, hpos, hlive, hdue⟩
    · exact .inl (List.mem_append_left _ hmem)
    · simp only [List.mem_append, List.mem_cons] at ht
      rcases ht with ht | rfl | ht
      · exact .inr ⟨t, by simp [ht], hpos, hlive, hdue⟩
      · exact .inl (by simp [hpos])
      · exact .inr ⟨t, by simp [ht], hpos, hlive, hdue⟩

/-- `Answered` is kept by every event. -/
theorem Answered.step (hs : l.Sound q) (h : l.Answered q i limit) (e : MessageQueue.Event) :
    (l.step q e).Answered q i limit := by
  cases e with
  | push m t => exact h.move hs (move_push q l m t)
  | pop t =>
    rcases move_pop q l t with hsame | hmove
    · rw [Ledger.step, hsame]
      exact h
    · exact h.move hs hmove

/-- `Answered` is kept by every run. -/
theorem Answered.foldl (hs : l.Sound q) (h : l.Answered q i limit)
    (events : List MessageQueue.Event) :
    (events.foldl (Ledger.step q) l).Answered q i limit := by
  induction events generalizing l with
  | nil => exact h
  | cons e events ih => exact ih (hs.step e) (h.step hs e)

/-- When a message of a stream is pushed, it is `Answered` one expiration from now: it is ready at
    once, or takes an entry that was there before. -/
theorem answered_push {m : Message} {key : StreamKey} {latest t : Nat}
    (hd : (l.queue q).Dated latest t) (hm : q.delayedStream? m = some key) :
    (l.push q m t).Answered q l.pushed.length (t + q.expiration) := by
  refine ⟨l.pushed.length, standsFor_self q _ _, .inr ?_⟩
  change ∃ u ∈ l.enter q m t, _
  rw [enter, hm]
  dsimp only
  split
  · -- It takes the place of a message that waits, and with it a time that is near enough.
    next waiting hreplace =>
    obtain ⟨before, u, after, hwaiting, -, rfl⟩ := Ticket.split_of_replaceIn? hreplace
    refine ⟨u.renew l.pushed.length m, by simp, rfl, rfl, ?_⟩
    have hmem : u.entry ∈ (l.queue q).entries :=
      List.mem_map_of_mem (by rw [hwaiting]; exact List.mem_append_right _ List.mem_cons_self)
    exact hd.due u.entry hmem
  · refine ⟨⟨l.pushed.length, m, none, false, some key⟩, by simp, rfl, rfl, fun _ hd => ?_⟩
    cases hd

/-- In every run at times that do not go back, a message of a stream is `Answered` one expiration
    after it was pushed. -/
theorem answered_run {q : MessageQueue} {before : List MessageQueue.Event} {m : Message}
    {t : Nat} {key : StreamKey} (hm : q.delayedStream? m = some key)
    (ordered : (before.map MessageQueue.Event.time ++ [t]).Pairwise (· ≤ ·))
    (after : List MessageQueue.Event) :
    (run q (before ++ .push m t :: after)).Answered q
      (before.filterMap MessageQueue.Event.message?).length (t + q.expiration) := by
  have hsound := sound_run q before
  -- The queue is `Dated` when the message is pushed, and what was `Answered` stays so.
  have hdated : ((run q before).queue q).Dated t t := by
    have hle : ∀ u v, MessageQueue.Event.push u v ∈ before → v ≤ t := by
      intro u v huv
      exact (List.pairwise_append.1 ordered).2.2 v (List.mem_map_of_mem huv) t
        List.mem_cons_self
    rw [(keeps_run q before).queue]
    exact (MessageQueue.dated_run q ordered hle).1
  have hpush := answered_push hdated hm
  rw [← pushed_run q before, run, List.foldl_append, List.foldl_cons]
  exact hpush.foldl (hsound.step (.push m t)) after

/-- A message of the stream `key` was delivered that was pushed at position `i` or later. -/
def Delivered (q : MessageQueue) (l : Ledger) (i : Nat) (key : StreamKey) : Prop :=
  ∃ j ∈ l.delivered, i ≤ j ∧ stream? q l.pushed j = some key

/-- An `Answered` message was delivered, or one of its stream is in an entry that is due in
    time. -/
theorem Answered.delivered_or {key : StreamKey} (h : l.Answered q i limit)
    (hi : stream? q l.pushed i = some key) : l.Delivered q i key ∨
      ∃ e ∈ (l.queue q).entries, ∀ now, e.readyAt now ≤ max now limit := by
  obtain ⟨j, ⟨hle, hsame, -⟩, hmem | ⟨t, ht, -, -, hdue⟩⟩ := h
  · exact .inl ⟨j, hmem, hle, hsame.trans hi⟩
  · refine .inr ⟨t.entry, List.mem_map_of_mem ht, fun now => ?_⟩
    rw [QueueEntry.readyAt]
    split
    · omega
    · next d hd =>
      have hle := hdue d hd
      omega

end Ledger

/-! ### Runs -/

namespace MessageQueue

/-- What a queue promises of its times, after the run `events` up to `now`, in which nothing was
    pushed after `latest`. -/
structure Prompt (q : MessageQueue) (events : List Event) (latest now : Nat) : Prop where
  /-- The ledger tells which messages were pushed and delivered. -/
  ledger : (Ledger.run q events).Keeps q (q.run events) ∧
    (Ledger.run q events).pushed = events.filterMap Event.message?
  /-- Who finds nothing ready, an expiration or more after a throttled message was pushed, has
      received it or a later one of its stream. -/
  by_deadline : ∀ before m t after key, events = before ++ .push m t :: after →
    q.delayedStream? m = some key → ∀ u, t + q.expiration ≤ u →
      (q.run events).1.popReady? u = none →
        (Ledger.run q events).Delivered q (before.filterMap Event.message?).length key
  /-- Until then, the next entry is due no later than that. -/
  meanwhile : ∀ before m t after key, events = before ++ .push m t :: after →
    q.delayedStream? m = some key →
      ¬(Ledger.run q events).Delivered q (before.filterMap Event.message?).length key →
        ∀ u, ∃ d, (q.run events).1.nextDue? u = some d ∧ d ≤ max u (t + q.expiration)
  /-- Something is ready exactly when the next entry is due now. -/
  ready : ∀ u, ((q.run events).1.popReady? u).isSome = true ↔ (q.run events).1.nextDue? u = some u
  /-- If it is due later, nothing is ready before that, and something is then. -/
  next : ∀ u d, (q.run events).1.nextDue? u = some d → u < d →
    (∀ x, x < d → (q.run events).1.popReady? x = none) ∧
      ((q.run events).1.popReady? d).isSome = true
  /-- Who attends to the queue from now on gets a message each time, at the time that the queue
      says, until it is empty.  This takes two pops for an entry at the most, and is done two
      expirations after the latest push, or after now. -/
  drained : ∃ n, n ≤ 2 * (q.run events).1.size ∧
    (∀ k, k < n → ∃ d m q',
      (attended k ((q.run events).1, now)).1.nextDue? (attended k ((q.run events).1, now)).2 =
          some d ∧
        (attended k ((q.run events).1, now)).1.popReady? d = some (m, q') ∧
          attended (k + 1) ((q.run events).1, now) = (q', d)) ∧
    (attended n ((q.run events).1, now)).1.entries = [] ∧
    (attended n ((q.run events).1, now)).2 ≤ max latest now + 2 * q.expiration

/-- **No update waits for longer than one expiration.** After every run at times that do not go
    back, who finds nothing ready an expiration after a push has received that message or a later
    one of its stream.  `nextDue?` says exactly when the next entry is ready, and attending to the
    queue empties it within two expirations. -/
theorem prompt_run (q : MessageQueue) (events : List Event) (latest now : Nat)
    (ordered : (events.map Event.time ++ [now]).Pairwise (· ≤ ·))
    (pushes : ∀ m t, .push m t ∈ events → t ≤ latest) : q.Prompt events latest now := by
  obtain ⟨hdated, hsame⟩ := dated_run q ordered pushes
  have hkeeps := Ledger.keeps_run q events
  have hpushed := Ledger.pushed_run q events
  -- What became of a throttled message.
  have hanswered : ∀ before m t after key, events = before ++ .push m t :: after →
      q.delayedStream? m = some key →
        (Ledger.run q events).Delivered q (before.filterMap Event.message?).length key ∨
          ∃ e ∈ (q.run events).1.entries, ∀ u, e.readyAt u ≤ max u (t + q.expiration) := by
    rintro before m t after key rfl hm
    have hbefore : (before.map Event.time ++ [t]).Pairwise (· ≤ ·) := by
      refine ordered.sublist ?_
      simp [Event.time]
    have hstream : Ledger.stream? q (Ledger.run q (before ++ .push m t :: after)).pushed
        (before.filterMap Event.message?).length = some key := by
      rw [hpushed]
      simp [Ledger.stream?, Event.message?, hm]
    have h := (Ledger.answered_run hm hbefore after).delivered_or hstream
    rwa [hkeeps.queue] at h
  -- From now on nothing is pushed.  All that nobody has seen yet is due an expiration after the
  -- latest push, or after now.
  have hdraining : (q.run events).1.Draining (max latest now + q.expiration) now := by
    constructor
    case due =>
      intro e he d hd
      have hdue := hdated.due e he d hd
      omega
    case live =>
      intro e he hp d hd
      have hdue := hdated.live e he hp d hd
      omega
    case time => omega
    case late => exact fun hlt => absurd hlt (by omega)
  obtain ⟨hempty, hlast⟩ := hdraining.attended
  constructor
  case ledger => exact ⟨hkeeps, hpushed⟩
  case by_deadline =>
    intro before m t after key he hm u hu hnone
    refine (hanswered before m t after key he hm).resolve_right ?_
    rintro ⟨e, hmem, hready⟩
    have hle := hready u
    have hge := e.le_readyAt u
    have hnow : e.isReady u = true := QueueEntry.isReady_iff.2 (by omega)
    rw [popReady?_eq_none_iff.1 hnone e hmem] at hnow
    cases hnow
  case meanwhile =>
    intro before m t after key he hm hnot u
    obtain ⟨e, hmem, hready⟩ := (hanswered before m t after key he hm).resolve_left hnot
    obtain ⟨d, hd, hle⟩ := exists_nextDue? hmem u
    exact ⟨d, hd, Nat.le_trans hle (hready u)⟩
  case ready => exact fun u => isSome_popReady?_iff
  case next =>
    intro u d hd hlt
    exact ⟨fun x hx => popReady?_of_lt hd hlt hx, isSome_popReady?_of_nextDue? hd⟩
  case drained =>
    refine ⟨(q.run events).1.owed, owed_le _, fun k hk => exists_pop_attended hk now, hempty, ?_⟩
    omega

/-- An update of an exposure that is under way. -/
def exposing : Message :=
  .update ⟨.number, "D", "CCD_EXPOSURE", some .busy, none, none, [], []⟩

/-- `prompt_run` with two updates of an exposure, of which the second has to wait. -/
theorem prompt_exposing :
    ([Event.push exposing 0, .pop 0, .push exposing 20].map Event.time ++ [20]).Pairwise (· ≤ ·) ∧
      (∀ m t, Event.push m t ∈ [.push exposing 0, .pop 0, .push exposing 20] → t ≤ 20) ∧
        Prompt {} [.push exposing 0, .pop 0, .push exposing 20] 20 20 := by
  have hordered : ([Event.push exposing 0, .pop 0, .push exposing 20].map Event.time ++
      [20]).Pairwise (· ≤ ·) := by
    simp [Event.time]
  have hpushes : ∀ m t, Event.push m t ∈ [.push exposing 0, .pop 0, .push exposing 20] →
      t ≤ 20 := by
    intro m t hmem
    simp only [List.mem_cons, Event.push.injEq, reduceCtorEq, List.not_mem_nil, or_false,
      false_or] at hmem
    omega
  exact ⟨hordered, hpushes, prompt_run {} _ 20 20 hordered hpushes⟩

end MessageQueue

end Observatory
