import Mathlib.Algebra.GroupWithZero.Nat
import Observatory.Indi.Queue

/-!
# The ledger of a queue

A message may leave a queue later than others that came after it, twice, or not at all.  The
ledger of a queue remembers for every entry which of the pushed messages it holds, and so tells
what became of each of them.

* `MessageQueue.Event`, `MessageQueue.run`: pushes and pops, and the messages that were delivered;
* `Ticket`, `Ledger`: entries with the positions of their messages;
* `Ledger.queue_run`: without the positions, a ledger is the queue;
* `Ledger.Move`: what one event can do to a ledger;
* `Ledger.Sound`: what always holds of a ledger;
* `Ledger.Faithful`: what this says about the messages that were delivered;
* `MessageQueue.faithful_run`: it holds of every run.
-/

namespace Observatory

/-! ### Runs of a queue -/

namespace MessageQueue

/-- What happens to a queue. -/
inductive Event where
  | push (m : Message) (now : Nat)
  | pop (now : Nat)

/-- The message of a push. -/
def Event.message? : Event → Option Message
  | push m _ => some m
  | pop _ => none

/-- A queue and what it delivered, after one event. -/
def step (s : MessageQueue × List Message) : Event → MessageQueue × List Message
  | .push m now => (s.1.push m now, s.2)
  | .pop now =>
    match s.1.popReady? now with
    | some (m, q) => (q, s.2 ++ [m])
    | none => s

/-- An empty queue and what it delivered, after some events. -/
def run (q : MessageQueue) (events : List Event) : MessageQueue × List Message :=
  events.foldl step (q.clear, [])

end MessageQueue

/-! ### Ledgers -/

/-- An entry of a queue together with the position of its message among all that were pushed. -/
structure Ticket where
  position : Nat
  entry : QueueEntry

/-- A queue with a memory: all messages that were pushed, the entries that wait, and the positions
    of the messages that were delivered. -/
structure Ledger where
  pushed : List Message := []
  waiting : List Ticket := []
  delivered : List Nat := []

namespace Ticket

/-- Whether the entry of a ticket waits for its time in the stream `key`. -/
def waitsIn (key : StreamKey) (t : Ticket) : Bool := MessageQueue.waitsIn key t.entry

/-- The ticket with a new message in the same entry, which is no placeholder any more. -/
def renew (n : Nat) (m : Message) (t : Ticket) : Ticket :=
  ⟨n, { t.entry with message := m, placeholder := false }⟩

/-- Put a message in the place of the first entry that waits in its stream. -/
def replaceIn? (key : StreamKey) (n : Nat) (m : Message) : List Ticket → Option (List Ticket)
  | [] => none
  | t :: rest =>
    if t.waitsIn key then some (t.renew n m :: rest)
    else (replaceIn? key n m rest).map (t :: ·)

/-- The first entry that is ready, and the others. -/
def takeReady? (now : Nat) : List Ticket → Option (Ticket × List Ticket)
  | [] => none
  | t :: rest =>
    if t.entry.isReady now then some (t, rest)
    else (takeReady? now rest).map fun p => (p.1, t :: p.2)

/-- The tickets that are left when nothing waits for its time any more: placeholders are dropped,
    all others are ready. -/
def flush (tickets : List Ticket) : List Ticket :=
  (tickets.filter fun t => !t.entry.placeholder).map fun t =>
    { t with entry := { t.entry with due := none } }

/-- The placeholder that a ticket leaves. -/
def again (due : Nat) (t : Ticket) : Ticket :=
  { t with entry := { t.entry with due := some due, placeholder := true } }

end Ticket

namespace Ledger

section Queue

variable (q : MessageQueue)

/-- The queue that a ledger is a ledger of, which forgets the positions. -/
def queue (l : Ledger) : MessageQueue := { q with entries := l.waiting.map Ticket.entry }

/-- The tickets that wait after the message `m` was pushed; compare `MessageQueue.push`. -/
def enter (l : Ledger) (m : Message) (now : Nat) : List Ticket :=
  match q.delayedStream? m with
  | none => Ticket.flush l.waiting ++ [⟨l.pushed.length, m, none, false, none⟩]
  | some key =>
    match Ticket.replaceIn? key l.pushed.length m l.waiting with
    | some waiting => waiting
    | none => l.waiting ++ [⟨l.pushed.length, m, none, false, some key⟩,
        ⟨l.pushed.length, m, some (now + q.expiration), true, some key⟩]

/-- A message is pushed. -/
def push (l : Ledger) (m : Message) (now : Nat) : Ledger :=
  { l with pushed := l.pushed ++ [m], waiting := l.enter q m now }

/-- The first message that is ready is delivered. -/
def pop (l : Ledger) (now : Nat) : Ledger :=
  match Ticket.takeReady? now l.waiting with
  | some (t, rest) =>
    { l with
      delivered := l.delivered ++ [t.position]
      waiting :=
        if t.entry.due.isSome && !t.entry.placeholder then rest ++ [t.again (now + q.expiration)]
        else rest }
  | none => l

/-- One event. -/
def step (l : Ledger) : MessageQueue.Event → Ledger
  | .push m now => l.push q m now
  | .pop now => l.pop q now

/-- Several events. -/
def run (events : List MessageQueue.Event) : Ledger := events.foldl (step q) {}

end Queue

end Ledger

/-! ### Without the positions -/

namespace Ticket

/-- Forgetting the positions, `replaceIn?` is that of the queue. -/
theorem replaceIn?_entry (key : StreamKey) (n : Nat) (m : Message) (tickets : List Ticket) :
    MessageQueue.replaceIn? key m (tickets.map entry) =
      (replaceIn? key n m tickets).map fun ts => ts.map entry := by
  induction tickets with
  | nil => rfl
  | cons t tickets ih =>
    rw [List.map_cons, MessageQueue.replaceIn?, replaceIn?, ih, waitsIn]
    split
    · rfl
    · rw [Option.map_map, Option.map_map]
      rfl

/-- Forgetting the positions, `takeReady?` is that of the queue. -/
theorem takeReady?_entry (now : Nat) (tickets : List Ticket) :
    MessageQueue.takeReady? now (tickets.map entry) =
      (takeReady? now tickets).map fun p => (p.1.entry, p.2.map entry) := by
  induction tickets with
  | nil => rfl
  | cons t tickets ih =>
    rw [List.map_cons, MessageQueue.takeReady?, takeReady?, ih]
    split
    · rfl
    · rw [Option.map_map, Option.map_map]
      rfl

/-- Forgetting the positions, `flush` is what a push without throttling does to a queue. -/
theorem flush_entry (tickets : List Ticket) : (flush tickets).map entry =
    ((tickets.map entry).filter fun e => !e.placeholder).map fun e => { e with due := none } := by
  rw [flush, List.filter_map, List.map_map, List.map_map]
  rfl

end Ticket

namespace Ledger

variable (q : MessageQueue)

/-- Forgetting the positions, a push to a ledger is a push to its queue. -/
theorem queue_push (l : Ledger) (m : Message) (now : Nat) :
    (l.push q m now).queue q = (l.queue q).push m now := by
  have hstream : (l.queue q).delayedStream? m = q.delayedStream? m := rfl
  rw [MessageQueue.push, hstream]
  cases h : q.delayedStream? m with
  | none =>
    simp only [push, queue, enter, h, List.map_append, Ticket.flush_entry]
    rfl
  | some key =>
    simp only [push, queue, enter, h, Ticket.replaceIn?_entry key l.pushed.length m l.waiting]
    cases Ticket.replaceIn? key l.pushed.length m l.waiting with
    | none => simp
    | some waiting => rfl

/-- Forgetting the positions, a pop of a ledger is a pop of its queue, and the message that it
    delivers is the one at the position. -/
theorem queue_pop (l : Ledger) (now : Nat) :
    (l.queue q).popReady? now = (Ticket.takeReady? now l.waiting).map fun p =>
      (p.1.entry.message, (l.pop q now).queue q) := by
  rw [MessageQueue.popReady?]
  change (MessageQueue.takeReady? now (l.waiting.map Ticket.entry)).map _ = _
  rw [Ticket.takeReady?_entry, Option.map_map]
  cases h : Ticket.takeReady? now l.waiting with
  | none => rfl
  | some p =>
    simp only [Option.map_some, Function.comp_apply, pop, h, queue]
    split <;> simp [Ticket.again]

end Ledger

/-! ### What one event can do -/

namespace Ticket

/-- `replaceIn?` renews one ticket that waits in the stream, and leaves the others. -/
theorem split_of_replaceIn? {key : StreamKey} {n : Nat} {m : Message}
    {tickets waiting : List Ticket} (h : replaceIn? key n m tickets = some waiting) :
    ∃ before t after, tickets = before ++ t :: after ∧ t.waitsIn key = true ∧
      waiting = before ++ t.renew n m :: after := by
  induction tickets generalizing waiting with
  | nil => cases h
  | cons t tickets ih =>
    rw [replaceIn?] at h
    split at h
    · next ht =>
      cases h
      exact ⟨[], t, tickets, rfl, ht, rfl⟩
    · obtain ⟨rest, hrest, rfl⟩ := Option.map_eq_some_iff.1 h
      obtain ⟨before, u, after, rfl, hu, rfl⟩ := ih hrest
      exact ⟨t :: before, u, after, rfl, hu, rfl⟩

/-- If `replaceIn?` finds no ticket, none waits in the stream. -/
theorem not_waitsIn_of_replaceIn? {key : StreamKey} {n : Nat} {m : Message} {tickets : List Ticket}
    (h : replaceIn? key n m tickets = none) : ∀ t ∈ tickets, t.waitsIn key = false := by
  induction tickets with
  | nil => exact List.forall_mem_nil _
  | cons t tickets ih =>
    rw [replaceIn?] at h
    split at h
    · cases h
    · next ht =>
      exact List.forall_mem_cons.2 ⟨by simpa using ht, ih (Option.map_eq_none_iff.1 h)⟩

/-- `takeReady?` takes one ticket, and all tickets in front of it wait for their time. -/
theorem split_of_takeReady? {now : Nat} {t : Ticket} {tickets rest : List Ticket}
    (h : takeReady? now tickets = some (t, rest)) : ∃ before after,
      tickets = before ++ t :: after ∧ rest = before ++ after ∧
        ∀ b ∈ before, b.entry.due.isSome = true := by
  induction tickets generalizing rest with
  | nil => cases h
  | cons u tickets ih =>
    rw [takeReady?] at h
    split at h
    · cases h
      exact ⟨[], tickets, rfl, rfl, List.forall_mem_nil _⟩
    · next hu =>
      obtain ⟨p, hp, he⟩ := Option.map_eq_some_iff.1 h
      obtain ⟨rfl, rfl⟩ := Prod.mk.inj he
      obtain ⟨before, after, rfl, hrest, hbefore⟩ := ih hp
      -- A ticket that is not ready has a time, since one without a time is ready at once.
      have hdue : u.entry.due.isSome = true := by
        cases hd : u.entry.due with
        | none => simp [QueueEntry.isReady, hd] at hu
        | some due => rfl
      exact ⟨u :: before, after, rfl, congrArg (u :: ·) hrest,
        List.forall_mem_cons.2 ⟨hdue, hbefore⟩⟩

end Ticket

namespace Ledger

/-- What one event may do to a ledger, one constructor for each kind of change.  All invariants are
    proved along these, and no proof unfolds `push` and `pop` again. -/
inductive Move (q : MessageQueue) : Ledger → Ledger → Prop
  /-- A message that is not throttled ends all waiting. -/
  | flush {pushed : List Message} {waiting : List Ticket} {delivered : List Nat} {m : Message}
    (hard : q.delayedStream? m = none) :
    Move q ⟨pushed, waiting, delivered⟩
      ⟨pushed ++ [m], Ticket.flush waiting ++ [⟨pushed.length, m, none, false, none⟩], delivered⟩
  /-- A message takes the place of one that waits in its stream. -/
  | replace {pushed : List Message} {before after : List Ticket} {t : Ticket} {delivered : List Nat}
    {m : Message} {key : StreamKey} (stream : q.delayedStream? m = some key)
    (waits : t.waitsIn key = true) :
    Move q ⟨pushed, before ++ t :: after, delivered⟩
      ⟨pushed ++ [m], before ++ t.renew pushed.length m :: after, delivered⟩
  /-- The first message of a stream is ready at once, and waits to be repeated. -/
  | arrive {pushed : List Message} {waiting : List Ticket} {delivered : List Nat} {m : Message}
    {key : StreamKey} {due : Nat} (stream : q.delayedStream? m = some key)
    (none_waits : ∀ t ∈ waiting, t.waitsIn key = false) :
    Move q ⟨pushed, waiting, delivered⟩
      ⟨pushed ++ [m], waiting ++ [⟨pushed.length, m, none, false, some key⟩,
        ⟨pushed.length, m, some due, true, some key⟩], delivered⟩
  /-- An entry is delivered.  If it waited for its time and was no placeholder, it leaves one. -/
  | deliver {pushed : List Message} {before after more : List Ticket} {t : Ticket}
    {delivered : List Nat} (passed : ∀ b ∈ before, b.entry.due.isSome = true)
    (leaves : more = [] ∨ t.entry.due.isSome = true ∧ t.entry.placeholder = false ∧
      ∃ due, more = [t.again due]) :
    Move q ⟨pushed, before ++ t :: after, delivered⟩
      ⟨pushed, before ++ after ++ more, delivered ++ [t.position]⟩

/-- Every push is a `Move`. -/
theorem move_push (q : MessageQueue) (l : Ledger) (m : Message) (now : Nat) :
    Move q l (l.push q m now) := by
  obtain ⟨pushed, waiting, delivered⟩ := l
  rw [push, enter]
  cases hm : q.delayedStream? m with
  | none => exact .flush hm
  | some key =>
    dsimp only
    split
    · next hreplace =>
      obtain ⟨before, t, after, rfl, ht, rfl⟩ := Ticket.split_of_replaceIn? hreplace
      exact .replace hm ht
    · next hnone => exact .arrive hm (Ticket.not_waitsIn_of_replaceIn? hnone)

/-- Every pop is a `Move`, or finds nothing ready and changes nothing. -/
theorem move_pop (q : MessageQueue) (l : Ledger) (now : Nat) :
    l.pop q now = l ∨ Move q l (l.pop q now) := by
  obtain ⟨pushed, waiting, delivered⟩ := l
  rw [pop]
  dsimp only
  split
  · next t rest htake =>
    obtain ⟨before, after, rfl, rfl, hbefore⟩ := Ticket.split_of_takeReady? htake
    refine .inr ?_
    split
    · -- The ticket leaves a placeholder behind, or it is gone.
      next ht =>
      simp only [Bool.and_eq_true, Bool.not_eq_true'] at ht
      exact .deliver hbefore (.inr ⟨ht.1, ht.2, _, rfl⟩)
    · have hmove : Move q ⟨pushed, before ++ t :: after, delivered⟩
          ⟨pushed, before ++ after ++ [], delivered ++ [t.position]⟩ :=
        .deliver hbefore (.inl rfl)
      rwa [List.append_nil] at hmove
  · exact .inl rfl

/-! ### Positions -/

section Positions

variable (q : MessageQueue) (pushed : List Message)

/-- The stream of the message at position `i`, if that is throttled. -/
def stream? (i : Nat) : Option StreamKey := pushed[i]?.bind q.delayedStream?

/-- The messages at two positions are throttled in two different streams, so that their order does
    not matter. -/
def Apart (i j : Nat) : Prop :=
  ∃ k k', stream? q pushed i = some k ∧ stream? q pushed j = some k' ∧ k ≠ k'

/-- The message at `i` may be delivered before that at `j`. -/
def InOrder (i j : Nat) : Prop := i ≤ j ∨ Apart q pushed i j

/-- The message at `j` may be delivered instead of that at `i`: it is that message, or a later one
    of its stream with nothing but throttled messages in between. -/
def StandsFor (j i : Nat) : Prop :=
  i ≤ j ∧ stream? q pushed j = stream? q pushed i ∧
    ∀ x, i ≤ x → x ≤ j → i = j ∨ (stream? q pushed x).isSome = true

end Positions

section Append

variable {q : MessageQueue} {pushed : List Message} {i j : Nat} {key : StreamKey}

theorem stream?_append (h : i < pushed.length) (m : Message) :
    stream? q (pushed ++ [m]) i = stream? q pushed i := by
  rw [stream?, List.getElem?_append_left h, stream?]

theorem stream?_length (m : Message) :
    stream? q (pushed ++ [m]) pushed.length = q.delayedStream? m := by
  rw [stream?, List.getElem?_concat_length, Option.bind_some]

theorem lt_of_stream? (h : stream? q pushed i = some key) : i < pushed.length := by
  obtain ⟨m, hm, -⟩ := Option.bind_eq_some_iff.1 h
  exact (List.getElem?_eq_some_iff.1 hm).1

/-- `Apart` is kept when more is pushed. -/
theorem Apart.append (h : Apart q pushed i j) (m : Message) : Apart q (pushed ++ [m]) i j := by
  obtain ⟨k, k', hi, hj, hne⟩ := h
  refine ⟨k, k', ?_, ?_, hne⟩
  · rw [stream?_append (lt_of_stream? hi), hi]
  · rw [stream?_append (lt_of_stream? hj), hj]

/-- `InOrder` is kept when more is pushed. -/
theorem InOrder.append (h : InOrder q pushed i j) (m : Message) :
    InOrder q (pushed ++ [m]) i j := h.imp_right (·.append m)

theorem Apart.symm (h : Apart q pushed i j) : Apart q pushed j i := by
  obtain ⟨k, k', hi, hj, hne⟩ := h
  exact ⟨k', k, hj, hi, hne.symm⟩

/-- `Apart` depends only on the streams of the positions. -/
theorem Apart.congr {i' : Nat} (h : Apart q pushed i j)
    (hi : stream? q pushed i = stream? q pushed i') : Apart q pushed i' j := by
  obtain ⟨k, k', hk, hk', hne⟩ := h
  exact ⟨k, k', hi ▸ hk, hk', hne⟩

/-- `StandsFor` is kept when more is pushed. -/
theorem StandsFor.append (h : StandsFor q pushed j i) (hj : j < pushed.length) (m : Message) :
    StandsFor q (pushed ++ [m]) j i := by
  obtain ⟨hle, hsame, hbetween⟩ := h
  refine ⟨hle, ?_, ?_⟩
  · rw [stream?_append hj, stream?_append (Nat.lt_of_le_of_lt hle hj), hsame]
  · intro x hx hxj
    rw [stream?_append (Nat.lt_of_le_of_lt hxj hj)]
    exact hbetween x hx hxj

/-- `StandsFor` is transitive. -/
theorem StandsFor.trans {k : Nat} (h : StandsFor q pushed k j) (h' : StandsFor q pushed j i) :
    StandsFor q pushed k i := by
  obtain ⟨hle, hsame, hbetween⟩ := h
  obtain ⟨hle', hsame', hbetween'⟩ := h'
  refine ⟨Nat.le_trans hle' hle, hsame.trans hsame', ?_⟩
  intro x hix hxk
  by_cases hxj : x ≤ j
  · rcases hbetween' x hix hxj with rfl | hx
    · obtain rfl : x = i := Nat.le_antisymm hxj hix
      exact hbetween x hix hxk
    · exact .inr hx
  · rcases hbetween x (by omega) hxk with rfl | hx
    · exact absurd hxk hxj
    · exact .inr hx

theorem standsFor_self (q : MessageQueue) (pushed : List Message) (i : Nat) :
    StandsFor q pushed i i := ⟨Nat.le_refl i, rfl, fun _ _ _ => .inl rfl⟩

end Append

/-! ### What always holds -/

/-- How often the message of a ticket may still be delivered.  One that waits for its time leaves a
    placeholder, and so counts twice. -/
def weight (t : Ticket) : Nat := if t.entry.due.isSome && !t.entry.placeholder then 2 else 1

/-- How often the message at position `i` may still be delivered, from all the tickets that
    wait. -/
def outstanding (i : Nat) (waiting : List Ticket) : Nat :=
  (waiting.map fun t => if t.position = i then weight t else 0).sum

/-- The invariant of a ledger.  Tickets hold the messages at their positions, with the right keys;
    since the message of a ticket that waits for its time only throttled ones were pushed; such a
    ticket is in another stream than those behind it; what was delivered and what waits are in
    order; no message is delivered too often; and every message was delivered or waits, or another
    stands for it. -/
structure Sound (q : MessageQueue) (l : Ledger) : Prop where
  holds : ∀ t ∈ l.waiting, l.pushed[t.position]? = some t.entry.message
  keyed : ∀ t ∈ l.waiting, t.entry.key = stream? q l.pushed t.position
  known : ∀ i ∈ l.delivered, i < l.pushed.length
  recent : ∀ t ∈ l.waiting, t.entry.due.isSome = true → ∀ x, t.position ≤ x →
    x < l.pushed.length → (stream? q l.pushed x).isSome = true
  apart : l.waiting.Pairwise fun t u =>
    t.entry.due.isSome = true → Apart q l.pushed t.position u.position
  order : (l.delivered ++ l.waiting.map Ticket.position).Pairwise (InOrder q l.pushed)
  counted : ∀ i, l.delivered.count i + outstanding i l.waiting ≤
    if (stream? q l.pushed i).isSome then 2 else 1
  accounted : ∀ i, i < l.pushed.length → ∃ j, StandsFor q l.pushed j i ∧
    (j ∈ l.delivered ∨ ∃ t ∈ l.waiting, t.position = j ∧ t.entry.placeholder = false)

section Lists

variable {α : Type} {R : α → α → Prop} {front before after : List α} {x : α}

/-- `Pairwise` is kept when an element is moved in front of others to which it is related. -/
theorem pairwise_take (h : (front ++ (before ++ x :: after)).Pairwise R)
    (hx : ∀ b ∈ before, R x b) : (front ++ [x] ++ (before ++ after)).Pairwise R := by
  simp only [List.pairwise_append, List.pairwise_cons, List.mem_append, List.mem_cons] at h ⊢
  obtain ⟨hfront, ⟨hbefore, ⟨hafter, hrest⟩, hba⟩, hfw⟩ := h
  refine ⟨⟨hfront, by simp, ?_⟩, ⟨hbefore, hrest, fun b hb a ha => hba b hb a (.inr ha)⟩, ?_⟩
  · rintro a ha b (rfl | hb)
    · exact hfw a ha b (.inr (.inl rfl))
    · cases hb
  · rintro a (ha | rfl | ha) b hb
    · exact hfw a ha b (hb.imp_right .inr)
    · exact hb.elim (hx b) (hafter b)
    · cases ha

/-- `Pairwise` is kept when an element is repeated at the end. -/
theorem pairwise_put {xs ys : List α} (h : (xs ++ [x] ++ ys).Pairwise R) (hx : R x x)
    (hy : ∀ y ∈ ys, R y x) : (xs ++ [x] ++ (ys ++ [x])).Pairwise R := by
  rw [← List.append_assoc, List.pairwise_append]
  refine ⟨h, List.pairwise_singleton _ _, ?_⟩
  intro a ha b hb
  rw [List.mem_singleton.1 hb]
  simp only [List.pairwise_append, List.mem_append, List.mem_singleton] at h ha
  rcases ha with (ha | rfl) | ha
  · exact h.1.2.2 a ha x rfl
  · exact hx
  · exact hy a ha

/-- `Pairwise` is kept when an element is replaced by one with the same relations. -/
theorem pairwise_replace {y : α} (h : (before ++ x :: after).Pairwise R)
    (hbefore : ∀ b ∈ before, R b y) (hafter : ∀ a ∈ after, R y a) :
    (before ++ y :: after).Pairwise R := by
  rw [List.pairwise_append, List.pairwise_cons] at h ⊢
  obtain ⟨hb, ⟨-, ha⟩, hba⟩ := h
  refine ⟨hb, ⟨hafter, ha⟩, fun b hbm a ham => ?_⟩
  rcases List.mem_cons.1 ham with rfl | ham
  · exact hbefore b hbm
  · exact hba b hbm a (List.mem_cons_of_mem _ ham)

/-- Positions that occur at most once differ from those behind them. -/
theorem pairwise_ne {p : Nat → Prop} {xs : List Nat} (h : ∀ i, p i → xs.count i ≤ 1) :
    xs.Pairwise fun i j => p i → i ≠ j := by
  induction xs with
  | nil => exact .nil
  | cons a xs ih =>
    refine .cons ?_ (ih fun i hi => Nat.le_trans List.count_le_count_cons (h i hi))
    rintro b hb hp rfl
    have hone := h a hp
    have hpos := List.count_pos_iff.2 hb
    rw [List.count_cons_self] at hone
    omega

end Lists

section Outstanding

variable (i : Nat) (a b : List Ticket) (t : Ticket)

theorem outstanding_append : outstanding i (a ++ b) = outstanding i a + outstanding i b := by
  simp [outstanding]

theorem outstanding_cons :
    outstanding i (t :: a) = (if t.position = i then weight t else 0) + outstanding i a := rfl

theorem outstanding_nil : outstanding i [] = 0 := rfl

/-- `flush` makes no message outstanding more often: placeholders are dropped, and what is ready
    leaves none. -/
theorem outstanding_flush : outstanding i (Ticket.flush a) ≤ outstanding i a := by
  induction a with
  | nil => exact Nat.le_refl 0
  | cons t a ih =>
    rw [outstanding_cons]
    -- A placeholder is dropped with what it weighed, and of any other ticket one delivery is left.
    by_cases ht : t.entry.placeholder = true
    · have hflush : Ticket.flush (t :: a) = Ticket.flush a := by simp [Ticket.flush, ht]
      rw [hflush]
      omega
    · have hflush : Ticket.flush (t :: a) =
          { t with entry := { t.entry with due := none } } :: Ticket.flush a := by
        simp [Ticket.flush, ht]
      rw [hflush, outstanding_cons]
      by_cases hi : t.position = i
      · have hle : 1 ≤ weight t := by
          rw [weight]
          split <;> omega
        have hone : weight { t with entry := { t.entry with due := none } } = 1 := rfl
        rw [if_pos hi, if_pos hi, hone]
        omega
      · rw [if_neg hi, if_neg hi]
        omega

/-- A message that no ticket holds is not outstanding. -/
theorem outstanding_eq_zero (h : ∀ t ∈ a, t.position ≠ i) : outstanding i a = 0 := by
  induction a with
  | nil => rfl
  | cons t a ih =>
    obtain ⟨ht, ha⟩ := List.forall_mem_cons.1 h
    rw [outstanding_cons, if_neg ht, ih ha]

end Outstanding

theorem mem_flush {t : Ticket} {tickets : List Ticket} : t ∈ Ticket.flush tickets ↔
    ∃ u ∈ tickets, u.entry.placeholder = false ∧
      t = { u with entry := { u.entry with due := none } } := by
  simp only [Ticket.flush, List.mem_map, List.mem_filter, Bool.not_eq_true', and_assoc,
    eq_comm (b := t)]

section Sound

variable {q : MessageQueue} {pushed : List Message} {waiting before after more : List Ticket}
  {delivered : List Nat} {t : Ticket} {m : Message}

/-- The position of a ticket is that of a message that was pushed. -/
theorem Sound.position_lt {l : Ledger} (h : l.Sound q) (ht : t ∈ l.waiting) :
    t.position < l.pushed.length :=
  (List.getElem?_eq_some_iff.1 (h.holds t ht)).1

/-- The position of the next message has neither been delivered nor is outstanding. -/
theorem Sound.fresh {l : Ledger} (h : l.Sound q) :
    l.delivered.count l.pushed.length = 0 ∧ outstanding l.pushed.length l.waiting = 0 := by
  constructor
  · refine List.count_eq_zero.2 fun hmem => ?_
    exact absurd (h.known _ hmem) (Nat.lt_irrefl _)
  · refine outstanding_eq_zero _ _ fun t ht => ?_
    exact Nat.ne_of_lt (h.position_lt ht)

/-- All positions, delivered or waiting, are of messages that were pushed. -/
theorem Sound.lt_of_mem {l : Ledger} (h : l.Sound q) {i : Nat}
    (hi : i ∈ l.delivered ++ l.waiting.map Ticket.position) : i < l.pushed.length := by
  rcases List.mem_append.1 hi with hi | hi
  · exact h.known i hi
  · obtain ⟨t, ht, rfl⟩ := List.mem_map.1 hi
    exact h.position_lt ht

/-- The empty ledger is `Sound`. -/
theorem sound_start (q : MessageQueue) : Sound q {} := by
  refine ⟨List.forall_mem_nil _, List.forall_mem_nil _, nofun, List.forall_mem_nil _, .nil, .nil,
    ?_, nofun⟩
  intro i
  rw [outstanding_nil, List.count_nil]
  omega

theorem getElem?_push {i : Nat} {m' : Message} (h : pushed[i]? = some m') (m : Message) :
    (pushed ++ [m])[i]? = some m' := by
  rw [List.getElem?_append_left (List.getElem?_eq_some_iff.1 h).1, h]

theorem lt_push {i : Nat} (h : i < pushed.length) (m : Message) :
    i < (pushed ++ [m]).length := by
  rw [List.length_append]
  omega

/-- If only throttled messages were pushed since `t.position`, that is still so after a throttled
    one is pushed. -/
theorem isSome_push (h : ∀ x, t.position ≤ x → x < pushed.length →
    (stream? q pushed x).isSome = true) (hm : (q.delayedStream? m).isSome = true) :
    ∀ x, t.position ≤ x → x < (pushed ++ [m]).length →
      (stream? q (pushed ++ [m]) x).isSome = true := by
  intro x hx hlt
  by_cases hold : x < pushed.length
  · rw [stream?_append hold]
    exact h x hx hold
  · have hx' : x = pushed.length := by
      rw [List.length_append, List.length_singleton] at hlt
      omega
    rw [hx', stream?_length]
    exact hm

/-- The order is kept when positions are left out and that of the new message is put at the end. -/
theorem order_push {l : Ledger} (h : l.Sound q) {positions : List Nat}
    (hp : positions.Sublist (l.delivered ++ l.waiting.map Ticket.position)) (m : Message)
    {news : List Nat} (hn : ∀ n ∈ news, n = l.pushed.length) :
    (positions ++ news).Pairwise (InOrder q (l.pushed ++ [m])) := by
  refine List.pairwise_append.2 ⟨?_, ?_, ?_⟩
  · exact (h.order.sublist hp).imp fun hij => hij.append m
  · refine List.Pairwise.imp_of_mem (R := fun _ _ => True) ?_
      (List.pairwise_of_forall fun _ _ => trivial)
    intro i j hi hj _
    exact .inl (Nat.le_of_eq ((hn i hi).trans (hn j hj).symm))
  · intro i hi j hj
    rw [hn j hj]
    exact .inl (Nat.le_of_lt (h.lt_of_mem (hp.subset hi)))

/-- All messages are accounted for after a push, if those are whose tickets waited, and the new one
    is. -/
theorem accounted_push {l : Ledger} (h : l.Sound q) {waiting : List Ticket}
    (hw : ∀ t ∈ l.waiting, t.entry.placeholder = false → ∃ j,
      StandsFor q (l.pushed ++ [m]) j t.position ∧
        ∃ u ∈ waiting, u.position = j ∧ u.entry.placeholder = false)
    (hm : ∃ u ∈ waiting, u.position = l.pushed.length ∧ u.entry.placeholder = false) :
    ∀ i, i < (l.pushed ++ [m]).length → ∃ j, StandsFor q (l.pushed ++ [m]) j i ∧
      (j ∈ l.delivered ∨ ∃ t ∈ waiting, t.position = j ∧ t.entry.placeholder = false) := by
  intro i hi
  -- An old message may have lost its ticket to the new one, which then stands for it.
  by_cases hold : i < l.pushed.length
  · obtain ⟨j, hj, hmem | ⟨t, ht, rfl, hlive⟩⟩ := h.accounted i hold
    · exact ⟨j, hj.append (h.known j hmem) m, .inl hmem⟩
    · obtain ⟨k, hk, hu⟩ := hw t ht hlive
      exact ⟨k, hk.trans (hj.append (h.position_lt ht) m), .inr hu⟩
  · rw [List.length_append, List.length_singleton] at hi
    obtain rfl : i = l.pushed.length := by omega
    exact ⟨l.pushed.length, standsFor_self q _ _, .inr hm⟩

/-- No message is delivered too often after a push, if no old one is outstanding more often than
    before, and the new one is not outstanding too often. -/
theorem counted_push {l : Ledger} (h : l.Sound q) {waiting : List Ticket}
    (hold : ∀ i, i ≠ l.pushed.length → outstanding i waiting ≤ outstanding i l.waiting)
    (hnew : outstanding l.pushed.length waiting ≤
      if (q.delayedStream? m).isSome then 2 else 1) (i : Nat) :
    l.delivered.count i + outstanding i waiting ≤
      if (stream? q (l.pushed ++ [m]) i).isSome then 2 else 1 := by
  have hcount := h.counted i
  -- The position of the new message was never delivered before, so only what waits counts there.
  by_cases hi : i = l.pushed.length
  · rw [hi, h.fresh.1, stream?_length, Nat.zero_add]
    exact hnew
  · have hle := hold i hi
    by_cases hlt : i < l.pushed.length
    · rw [stream?_append hlt]
      omega
    · have hnone : stream? q l.pushed i = none := by
        rw [stream?, List.getElem?_eq_none (by omega), Option.bind_none]
      simp only [hnone, Option.isSome_none, Bool.false_eq_true, if_false] at hcount
      split <;> omega

/-- `Sound` is kept when a message that is not throttled ends all waiting. -/
theorem Sound.flush (h : Sound q ⟨pushed, waiting, delivered⟩) (hm : q.delayedStream? m = none) :
    Sound q ⟨pushed ++ [m], Ticket.flush waiting ++ [⟨pushed.length, m, none, false, none⟩],
      delivered⟩ := by
  have hmem : ∀ t ∈ Ticket.flush waiting ++ [⟨pushed.length, m, none, false, none⟩],
      (∃ u ∈ waiting, u.entry.placeholder = false ∧
        t = { u with entry := { u.entry with due := none } }) ∨
          t = ⟨pushed.length, m, none, false, none⟩ := by
    intro t ht
    rwa [List.mem_append, mem_flush, List.mem_singleton] at ht
  -- No ticket has a time after a flush, so all that is said about times is said of nothing.
  have hdue : ∀ t ∈ Ticket.flush waiting ++ [⟨pushed.length, m, none, false, none⟩],
      t.entry.due = none := by
    intro t ht
    rcases hmem t ht with ⟨u, -, -, rfl⟩ | rfl <;> rfl
  constructor
  case holds =>
    intro t ht
    rcases hmem t ht with ⟨u, hu, -, rfl⟩ | rfl
    · exact getElem?_push (h.holds u hu) m
    · exact List.getElem?_concat_length
  case keyed =>
    intro t ht
    rcases hmem t ht with ⟨u, hu, -, rfl⟩ | rfl
    · rw [stream?_append (h.position_lt hu)]
      exact h.keyed u hu
    · rw [stream?_length, hm]
  case known => exact fun i hi => lt_push (h.known i hi) m
  case recent =>
    intro t ht hd
    rw [hdue t ht] at hd
    cases hd
  case apart =>
    refine List.Pairwise.imp_of_mem (R := fun _ _ => True) ?_
      (List.pairwise_of_forall fun _ _ => trivial)
    intro t u ht _ _ hd
    rw [hdue t ht] at hd
    cases hd
  case order =>
    have hsub : ((Ticket.flush waiting).map Ticket.position).Sublist
        (waiting.map Ticket.position) := by
      rw [Ticket.flush, List.map_map]
      exact List.filter_sublist.map _
    rw [List.map_append, ← List.append_assoc]
    exact order_push h (hsub.append_left _) m (by simp)
  case counted =>
    refine counted_push h ?_ ?_
    · intro i hi
      rw [outstanding_append, outstanding_cons, if_neg (Ne.symm hi)]
      exact outstanding_flush i waiting
    · have hle := outstanding_flush pushed.length waiting
      have hfresh := h.fresh.2
      dsimp only at hfresh
      rw [outstanding_append, hm]
      simp [outstanding_cons, outstanding_nil, weight]
      omega
  case accounted =>
    refine accounted_push h ?_ ⟨_, List.mem_append_right _ List.mem_cons_self, rfl, rfl⟩
    intro t ht hlive
    refine ⟨t.position, standsFor_self q _ _, _, List.mem_append_left _ (mem_flush.2
      ⟨t, ht, hlive, rfl⟩), rfl, hlive⟩

theorem waitsIn_iff {key : StreamKey} :
    t.waitsIn key = true ↔ t.entry.due.isSome = true ∧ t.entry.key = some key := by
  rw [Ticket.waitsIn, MessageQueue.waitsIn, Bool.and_eq_true, decide_eq_true_eq]

/-- A message that takes the place of another in its stream stands for it. -/
theorem Sound.standsFor_renew {key : StreamKey}
    (h : Sound q ⟨pushed, before ++ t :: after, delivered⟩) (hm : q.delayedStream? m = some key)
    (ht : t.waitsIn key = true) : StandsFor q (pushed ++ [m]) pushed.length t.position := by
  obtain ⟨hdue, hkey⟩ := waitsIn_iff.1 ht
  have hmemt : t ∈ before ++ t :: after := List.mem_append_right _ List.mem_cons_self
  have hlt := h.position_lt hmemt
  refine ⟨Nat.le_of_lt hlt, ?_, fun x hx hxlt => .inr ?_⟩
  · rw [stream?_length, stream?_append hlt, hm, ← hkey]
    exact h.keyed t hmemt
  · exact isSome_push (h.recent t hmemt hdue) (by rw [hm]; rfl) x hx (by simp; omega)

/-- `Sound` is kept when a message takes the place of one in its stream. -/
theorem Sound.replace {key : StreamKey} (h : Sound q ⟨pushed, before ++ t :: after, delivered⟩)
    (hm : q.delayedStream? m = some key) (ht : t.waitsIn key = true) :
    Sound q ⟨pushed ++ [m], before ++ t.renew pushed.length m :: after, delivered⟩ := by
  obtain ⟨hdue, hkey⟩ := waitsIn_iff.1 ht
  have hmemt : t ∈ before ++ t :: after := List.mem_append_right _ List.mem_cons_self
  have hlt := h.position_lt hmemt
  have hsome : (q.delayedStream? m).isSome = true := by rw [hm]; rfl
  -- The new message has the stream of the one that it replaces.
  have hstands := h.standsFor_renew hm ht
  have hstream : stream? q (pushed ++ [m]) pushed.length =
      stream? q (pushed ++ [m]) t.position := hstands.2.1
  have hmem : ∀ u ∈ before ++ t.renew pushed.length m :: after,
      u ∈ before ++ t :: after ∨ u = t.renew pushed.length m := by
    intro u hu
    simp only [List.mem_append, List.mem_cons] at hu ⊢
    rcases hu with hu | rfl | hu
    · exact .inl (.inl hu)
    · exact .inr rfl
    · exact .inl (.inr (.inr hu))
  -- What waits behind is apart from it.
  have hbehind : ∀ u ∈ after, Apart q (pushed ++ [m]) pushed.length u.position := by
    intro u hu
    have hapart := (List.pairwise_cons.1 (List.pairwise_append.1 h.apart).2.1).1 u hu hdue
    exact (hapart.append m).congr hstream.symm
  constructor
  case holds =>
    intro u hu
    rcases hmem u hu with hu | rfl
    · exact getElem?_push (h.holds u hu) m
    · exact List.getElem?_concat_length
  case keyed =>
    intro u hu
    rcases hmem u hu with hu | rfl
    · rw [stream?_append (h.position_lt hu)]
      exact h.keyed u hu
    · exact hkey.trans (hm.symm.trans (stream?_length m).symm)
  case known => exact fun i hi => lt_push (h.known i hi) m
  case recent =>
    intro u hu hd
    rcases hmem u hu with hu | rfl
    · exact isSome_push (h.recent u hu hd) hsome
    · exact isSome_push (fun x hx hxlt => absurd hx (Nat.not_le_of_lt hxlt)) hsome
  case apart =>
    have hold := h.apart.imp fun hp hd => (hp hd).append m
    refine pairwise_replace hold (fun b hb hd => ?_) fun u hu _ => hbehind u hu
    have hbt := (List.pairwise_append.1 hold).2.2 b hb t List.mem_cons_self hd
    exact (hbt.symm.congr hstream.symm).symm
  case order =>
    have hold := h.order.imp fun hij => hij.append m
    have hbefore : ∀ i ∈ delivered ++ before.map Ticket.position, i < pushed.length := by
      intro i hi
      refine h.lt_of_mem ?_
      simp only [List.mem_append, List.map_append] at hi ⊢
      exact hi.imp_right .inl
    simp only [List.map_append, List.map_cons, ← List.append_assoc] at hold ⊢
    refine pairwise_replace hold (fun i hi => .inl (Nat.le_of_lt (hbefore i hi))) fun i hi => ?_
    obtain ⟨u, hu, rfl⟩ := List.mem_map.1 hi
    exact .inr (hbehind u hu)
  case counted =>
    refine counted_push h ?_ ?_
    · intro i hi
      rw [outstanding_append, outstanding_append, outstanding_cons, outstanding_cons,
        if_neg (show (t.renew pushed.length m).position ≠ i from Ne.symm hi)]
      omega
    · have hfresh := h.fresh.2
      rw [outstanding_append, outstanding_cons] at hfresh ⊢
      have hweight : weight (t.renew pushed.length m) = 2 := by
        simp [weight, Ticket.renew, hdue]
      rw [if_pos (show (t.renew pushed.length m).position = pushed.length from rfl), hweight,
        if_pos hsome]
      dsimp only at hfresh ⊢
      omega
  case accounted =>
    refine accounted_push h ?_ ⟨_, List.mem_append_right _ List.mem_cons_self, rfl, rfl⟩
    intro u hu hlive
    rcases List.mem_append.1 hu with hu | hu
    · exact ⟨u.position, standsFor_self q _ _, u, List.mem_append_left _ hu, rfl, hlive⟩
    rcases List.mem_cons.1 hu with rfl | hu
    · exact ⟨pushed.length, hstands, _, List.mem_append_right _ List.mem_cons_self, rfl, rfl⟩
    · exact ⟨u.position, standsFor_self q _ _, u,
        List.mem_append_right _ (List.mem_cons_of_mem _ hu), rfl, hlive⟩

/-- `Sound` is kept when the first message of a stream comes with its placeholder. -/
theorem Sound.arrive {key : StreamKey} {due : Nat} (h : Sound q ⟨pushed, waiting, delivered⟩)
    (hm : q.delayedStream? m = some key) (hnone : ∀ t ∈ waiting, t.waitsIn key = false) :
    Sound q ⟨pushed ++ [m], waiting ++ [⟨pushed.length, m, none, false, some key⟩,
      ⟨pushed.length, m, some due, true, some key⟩], delivered⟩ := by
  have hsome : (q.delayedStream? m).isSome = true := by rw [hm]; rfl
  have hnew : ∀ t ∈ [(⟨pushed.length, m, none, false, some key⟩ : Ticket),
      ⟨pushed.length, m, some due, true, some key⟩],
      t.position = pushed.length ∧ t.entry.message = m ∧ t.entry.key = some key := by
    simp
  have hstream : stream? q (pushed ++ [m]) pushed.length = some key := by
    rw [stream?_length, hm]
  constructor
  case holds =>
    intro u hu
    rcases List.mem_append.1 hu with hu | hu
    · exact getElem?_push (h.holds u hu) m
    · obtain ⟨hpos, hmsg, -⟩ := hnew u hu
      rw [hpos, hmsg]
      exact List.getElem?_concat_length
  case keyed =>
    intro u hu
    rcases List.mem_append.1 hu with hu | hu
    · rw [stream?_append (h.position_lt hu)]
      exact h.keyed u hu
    · obtain ⟨hpos, -, hkey⟩ := hnew u hu
      rw [hpos, hkey, hstream]
  case known => exact fun i hi => lt_push (h.known i hi) m
  case recent =>
    intro u hu hd
    rcases List.mem_append.1 hu with hu | hu
    · exact isSome_push (h.recent u hu hd) hsome
    · refine isSome_push (fun x hx hxlt => ?_) hsome
      rw [(hnew u hu).1] at hx
      exact absurd hx (Nat.not_le_of_lt hxlt)
  case apart =>
    refine List.pairwise_append.2 ⟨h.apart.imp fun hp hd => (hp hd).append m, by simp, ?_⟩
    intro t ht u hu hd
    -- What waits for its time is of another stream.
    obtain ⟨k, hk⟩ := Option.isSome_iff_exists.1
      (h.recent t ht hd t.position (Nat.le_refl _) (h.position_lt ht))
    have hne : k ≠ key := by
      rintro rfl
      have hwaits := waitsIn_iff.2 ⟨hd, (h.keyed t ht).trans hk⟩
      rw [hnone t ht] at hwaits
      cases hwaits
    refine ⟨k, key, ?_, ?_, hne⟩
    · rw [stream?_append (h.position_lt ht)]
      exact hk
    · rw [(hnew u hu).1, hstream]
  case order =>
    rw [List.map_append, ← List.append_assoc]
    exact order_push h (List.Sublist.refl _) m (by simp)
  case counted =>
    refine counted_push h ?_ ?_
    · intro i hi
      rw [outstanding_append, outstanding_cons, outstanding_cons, outstanding_nil,
        if_neg (Ne.symm hi), if_neg (Ne.symm hi)]
      exact Nat.le_refl _
    · have hfresh := h.fresh.2
      dsimp only at hfresh
      rw [outstanding_append, hfresh, if_pos hsome]
      simp [outstanding_cons, outstanding_nil, weight]
  case accounted =>
    refine accounted_push h ?_ ⟨_, List.mem_append_right _ List.mem_cons_self, rfl, rfl⟩
    intro u hu hlive
    exact ⟨u.position, standsFor_self q _ _, u, List.mem_append_left _ hu, rfl, hlive⟩

/-- A delivery and what it leaves use up the weight of the ticket. -/
theorem outstanding_deliver (i : Nat)
    (hleaves : more = [] ∨ t.entry.due.isSome = true ∧ t.entry.placeholder = false ∧
      ∃ due, more = [t.again due]) :
    outstanding i more + (if t.position = i then 1 else 0) ≤
      if t.position = i then weight t else 0 := by
  -- A ticket that leaves nothing weighs at least one; one that leaves a placeholder weighs two.
  rcases hleaves with rfl | ⟨hdue, hlive, due, rfl⟩
  · have hle : 1 ≤ weight t := by
      rw [weight]
      split <;> omega
    rw [outstanding_nil]
    split <;> omega
  · have htwo : weight t = 2 := by simp [weight, hdue, hlive]
    have hone : weight (t.again due) = 1 := rfl
    rw [outstanding_cons, outstanding_nil, htwo, hone]
    change (if t.position = i then 1 else 0) + 0 + _ ≤ _
    split <;> omega

/-- `Sound` is kept when a message is delivered. -/
theorem Sound.deliver (h : Sound q ⟨pushed, before ++ t :: after, delivered⟩)
    (hpassed : ∀ b ∈ before, b.entry.due.isSome = true)
    (hleaves : more = [] ∨ t.entry.due.isSome = true ∧ t.entry.placeholder = false ∧
      ∃ due, more = [t.again due]) :
    Sound q ⟨pushed, before ++ after ++ more, delivered ++ [t.position]⟩ := by
  have hmemt : t ∈ before ++ t :: after := List.mem_append_right _ List.mem_cons_self
  have hkept : ∀ u ∈ before ++ after, u ∈ before ++ t :: after := by
    intro u hu
    rcases List.mem_append.1 hu with hu | hu
    · exact List.mem_append_left _ hu
    · exact List.mem_append_right _ (List.mem_cons_of_mem _ hu)
  -- What is left of the entry has the same position and the same stream.
  have hmore : ∀ u ∈ more, t.entry.due.isSome = true ∧ ∃ due, u = t.again due := by
    rcases hleaves with rfl | ⟨hdue, -, due, rfl⟩
    · exact List.forall_mem_nil _
    · exact List.forall_mem_singleton.2 ⟨hdue, due, rfl⟩
  have happ := h.apart
  rw [List.pairwise_append, List.pairwise_cons] at happ
  obtain ⟨hb, ⟨hta, ha⟩, hba⟩ := happ
  -- What stands before the entry waits for its time, and so is apart from it.
  have hbt : ∀ b ∈ before, Apart q pushed b.position t.position := fun b hbm =>
    hba b hbm t List.mem_cons_self (hpassed b hbm)
  constructor
  case holds =>
    intro u hu
    rcases List.mem_append.1 hu with hu | hu
    · exact h.holds u (hkept u hu)
    · obtain ⟨-, due, rfl⟩ := hmore u hu
      exact h.holds t hmemt
  case keyed =>
    intro u hu
    rcases List.mem_append.1 hu with hu | hu
    · exact h.keyed u (hkept u hu)
    · obtain ⟨-, due, rfl⟩ := hmore u hu
      exact h.keyed t hmemt
  case known =>
    intro i hi
    rcases List.mem_append.1 hi with hi | hi
    · exact h.known i hi
    · rw [List.mem_singleton.1 hi]
      exact h.position_lt hmemt
  case recent =>
    intro u hu hd
    rcases List.mem_append.1 hu with hu | hu
    · exact h.recent u (hkept u hu) hd
    · obtain ⟨hdue, due, rfl⟩ := hmore u hu
      exact h.recent t hmemt hdue
  case apart =>
    refine List.pairwise_append.2 ⟨List.pairwise_append.2 ⟨hb, ha, ?_⟩, ?_, ?_⟩
    · intro b hbm u hu
      exact hba b hbm u (List.mem_cons_of_mem _ hu)
    · rcases hleaves with rfl | ⟨-, -, due, rfl⟩
      · exact .nil
      · exact List.pairwise_singleton _ _
    · intro u hu v hv hd
      obtain ⟨hdue, due, rfl⟩ := hmore v hv
      rcases List.mem_append.1 hu with hu | hu
      · exact hbt u hu
      · exact (hta u hu hdue).symm
  case order =>
    have hord := h.order
    simp only [List.map_append, List.map_cons] at hord
    have hfirst : ∀ j ∈ before.map Ticket.position, InOrder q pushed t.position j := by
      intro j hj
      obtain ⟨b, hbm, rfl⟩ := List.mem_map.1 hj
      exact .inr (hbt b hbm).symm
    have htaken := pairwise_take hord hfirst
    rw [List.map_append, List.map_append]
    rcases hleaves with rfl | ⟨hdue, -, due, rfl⟩
    · simpa using htaken
    · -- The placeholder comes behind all that waits.
      refine pairwise_put htaken (.inl (Nat.le_refl _)) ?_
      intro j hj
      rcases List.mem_append.1 hj with hj | hj
      · obtain ⟨b, hbm, rfl⟩ := List.mem_map.1 hj
        exact .inr (hbt b hbm)
      · obtain ⟨u, hu, rfl⟩ := List.mem_map.1 hj
        exact .inr (hta u hu hdue).symm
  case counted =>
    intro i
    have hold := h.counted i
    simp only [outstanding_append, outstanding_cons] at hold
    simp only [outstanding_append, List.count_append, List.count_singleton, beq_iff_eq]
    have hmoreweight := outstanding_deliver i hleaves
    omega
  case accounted =>
    intro i hi
    obtain ⟨j, hj, hmem | ⟨u, hu, hpos, hlive⟩⟩ := h.accounted i hi
    · exact ⟨j, hj, .inl (List.mem_append_left _ hmem)⟩
    · refine ⟨j, hj, ?_⟩
      simp only [List.mem_append, List.mem_cons] at hu
      rcases hu with hu | rfl | hu
      · exact .inr ⟨u, by simp [hu], hpos, hlive⟩
      · exact .inl (by simp [hpos])
      · exact .inr ⟨u, by simp [hu], hpos, hlive⟩

/-- `Sound` is kept by every `Move`. -/
theorem Sound.move {l l' : Ledger} (h : l.Sound q) (hmove : Move q l l') : l'.Sound q := by
  cases hmove with
  | flush hard => exact h.flush hard
  | replace stream waits => exact h.replace stream waits
  | arrive stream none_waits => exact h.arrive stream none_waits
  | deliver passed leaves => exact h.deliver passed leaves

/-- `Sound` is kept by every event. -/
theorem Sound.step {l : Ledger} (h : l.Sound q) (e : MessageQueue.Event) :
    (l.step q e).Sound q := by
  cases e with
  | push m now => exact h.move (move_push q l m now)
  | pop now =>
    rcases move_pop q l now with hsame | hmove
    · rw [Ledger.step, hsame]
      exact h
    · exact h.move hmove

/-- Every ledger of a run is `Sound`. -/
theorem sound_run (q : MessageQueue) (events : List MessageQueue.Event) :
    (run q events).Sound q := by
  have hfold : ∀ l : Ledger, l.Sound q → (events.foldl (Ledger.step q) l).Sound q := by
    induction events with
    | nil => exact fun l h => h
    | cons e events ih => exact fun l h => ih (l.step q e) (h.step e)
  exact hfold {} (sound_start q)

end Sound

/-! ### What becomes of the messages -/

/-- What becomes of the messages that are pushed, in terms of the positions of those that were
    delivered and of those that wait. -/
structure Faithful (q : MessageQueue) (l : Ledger) : Prop where
  /-- Messages that are not throttled are delivered in their order, and none twice. -/
  hard_order : l.delivered.Pairwise fun i j =>
    stream? q l.pushed i = none → stream? q l.pushed j = none → i < j
  /-- None of them is lost. -/
  hard_once : l.waiting = [] → ∀ i, i < l.pushed.length → stream? q l.pushed i = none →
    l.delivered.count i = 1
  /-- Updates of one vector are delivered in their order. -/
  vector_order : l.delivered.Pairwise fun i j => ∀ u v, l.pushed[i]? = some (.update u) →
    l.pushed[j]? = some (.update v) → u.device = v.device → u.name = v.name → i ≤ j
  /-- Nothing from before a message that is not throttled is delivered after it. -/
  barrier : l.delivered.Pairwise fun i j => stream? q l.pushed i = none → i ≤ j
  /-- No message is delivered more than twice. -/
  twice : ∀ i, l.delivered.count i ≤ 2
  /-- A message that was not delivered and does not wait is skipped for a later one of its
      stream. -/
  skipped : ∀ i, i < l.pushed.length → i ∈ l.delivered ∨ (∃ t ∈ l.waiting, t.position = i) ∨
    ∃ j, i < j ∧ (stream? q l.pushed i).isSome = true ∧
      stream? q l.pushed j = stream? q l.pushed i ∧
        (j ∈ l.delivered ∨ ∃ t ∈ l.waiting, t.position = j)
  /-- One entry at most waits for its time in a stream. -/
  one_deadline : l.waiting.Pairwise fun t u => t.entry.due.isSome = true →
    u.entry.due.isSome = true → t.entry.key ≠ u.entry.key
  /-- If nothing waits, the last message for a vector that was delivered is the last one that was
      pushed, whichever messages except updates are said to be for the vector. -/
  last : l.waiting = [] → ∀ (device name : String) (concerns : Message → Bool),
    (∀ u, concerns (.update u) = true ↔ u.device = device ∧ u.name = name) →
      (l.delivered.filter fun i => l.pushed[i]?.any concerns).getLast? =
        ((List.range l.pushed.length).filter fun i => l.pushed[i]?.any concerns).getLast?

section Faithful

variable {q : MessageQueue} {l : Ledger} {i j : Nat}

/-- A throttled message is an update, and its stream is determined by the device and the name of
    the vector. -/
theorem eq_update_of_stream? {key : StreamKey} (h : stream? q l.pushed i = some key) :
    ∃ u, l.pushed[i]? = some (.update u) ∧ key = ⟨.number, u.device, u.name, some .busy⟩ := by
  obtain ⟨m, hm, hkey⟩ := Option.bind_eq_some_iff.1 h
  cases m with
  | update u =>
    simp only [MessageQueue.delayedStream?] at hkey
    split at hkey
    · next hu =>
      obtain ⟨hkind, hstate, -⟩ := hu
      refine ⟨u, hm, ?_⟩
      rw [← Option.some.inj hkey, MessageQueue.streamOf, hkind, hstate]
    · cases hkey
  | define d => cases hkey
  | delete d => cases hkey
  | notice n => cases hkey

/-- `InOrder` of two updates of one vector is the order in which they were pushed. -/
theorem InOrder.le_of_update {u v : Update} (h : InOrder q l.pushed i j)
    (hi : l.pushed[i]? = some (.update u)) (hj : l.pushed[j]? = some (.update v))
    (hd : u.device = v.device) (hn : u.name = v.name) : i ≤ j := by
  refine h.resolve_right ?_
  rintro ⟨k, k', hk, hk', hne⟩
  obtain ⟨u', hu', rfl⟩ := eq_update_of_stream? hk
  obtain ⟨v', hv', rfl⟩ := eq_update_of_stream? hk'
  obtain rfl : u = u' := by simpa using hi.symm.trans hu'
  obtain rfl : v = v' := by simpa using hj.symm.trans hv'
  rw [hd, hn] at hne
  exact hne rfl

/-- `InOrder` behind a message that is not throttled is the order in which they were pushed. -/
theorem InOrder.le_of_hard (h : InOrder q l.pushed i j) (hi : stream? q l.pushed i = none) :
    i ≤ j := by
  refine h.resolve_right ?_
  rintro ⟨k, k', hk, -, -⟩
  rw [hi] at hk
  cases hk

/-- Nothing but itself stands for a message that is not throttled. -/
theorem StandsFor.eq_of_hard (h : StandsFor q l.pushed j i) (hi : stream? q l.pushed i = none) :
    j = i := by
  rcases h.2.2 i (Nat.le_refl i) h.1 with rfl | hsome
  · rfl
  · rw [hi] at hsome
    cases hsome

/-- The messages that were delivered are in order. -/
theorem Sound.pairwise_delivered (h : l.Sound q) : l.delivered.Pairwise (InOrder q l.pushed) :=
  h.order.sublist (List.sublist_append_left _ _)

/-- A message that is not throttled is delivered at most once. -/
theorem Sound.count_hard (h : l.Sound q) (hi : stream? q l.pushed i = none) :
    l.delivered.count i ≤ 1 := by
  have hcount := h.counted i
  rw [hi] at hcount
  simp at hcount
  omega

/-- The last of the positions below `n` that satisfy `p` is the greatest of them. -/
theorem le_of_getLast? {n : Nat} {p : Nat → Bool}
    (h : ((List.range n).filter p).getLast? = some j) :
    j < n ∧ p j = true ∧ ∀ i, i < n → p i = true → i ≤ j := by
  obtain ⟨front, hfront⟩ := List.getLast?_eq_some_iff.1 h
  have hmem : ∀ i, i ∈ front ++ [j] ↔ i < n ∧ p i = true := by
    intro i
    rw [← hfront, List.mem_filter, List.mem_range]
  have hsorted : (front ++ [j]).Pairwise (· < ·) := by
    rw [← hfront]
    exact List.pairwise_lt_range.filter _
  obtain ⟨hlt, hj⟩ := (hmem j).1 (by simp)
  refine ⟨hlt, hj, fun i hi hpi => ?_⟩
  rcases List.mem_append.1 ((hmem i).2 ⟨hi, hpi⟩) with hfi | hij
  · exact Nat.le_of_lt ((List.pairwise_append.1 hsorted).2.2 i hfi j (by simp))
  · exact Nat.le_of_eq (List.mem_singleton.1 hij)

/-- If nothing waits, the last message that was pushed for a vector was delivered: whatever stands
    for it is for the same vector, hence not later. -/
theorem Sound.mem_delivered_of_last (h : l.Sound q) (hempty : l.waiting = [])
    {device name : String} {concerns : Message → Bool}
    (hu : ∀ u, concerns (.update u) = true ↔ u.device = device ∧ u.name = name)
    (hi : i < l.pushed.length) (hc : l.pushed[i]?.any concerns = true)
    (hlast : ∀ x, x < l.pushed.length → l.pushed[x]?.any concerns = true → x ≤ i) :
    i ∈ l.delivered := by
  obtain ⟨j, hj, hmem | ⟨t, ht, -⟩⟩ := h.accounted i hi
  · rcases hj.2.2 i (Nat.le_refl i) hj.1 with rfl | hsome
    · exact hmem
    · -- What stands for it is for the same vector, and so is not later.
      obtain ⟨k, hk⟩ := Option.isSome_iff_exists.1 hsome
      obtain ⟨u, hui, rfl⟩ := eq_update_of_stream? hk
      obtain ⟨v, hvj, hkey⟩ := eq_update_of_stream? (hj.2.1.trans hk)
      simp only [StreamKey.mk.injEq, true_and, and_true] at hkey
      obtain ⟨hdevice, hname⟩ := hkey
      rw [hui, Option.any_some, hu] at hc
      have hcj : l.pushed[j]?.any concerns = true := by
        rw [hvj, Option.any_some, hu, ← hdevice, ← hname]
        exact hc
      have hle := hlast j (h.known j hmem) hcj
      obtain rfl : j = i := Nat.le_antisymm hle hj.1
      exact hmem
  · rw [hempty] at ht
    cases ht

/-- If nothing waits, the last message for a vector that was delivered is the last one that was
    pushed. -/
theorem Sound.last (h : l.Sound q) (hempty : l.waiting = []) {device name : String}
    {concerns : Message → Bool}
    (hu : ∀ u, concerns (.update u) = true ↔ u.device = device ∧ u.name = name) :
    (l.delivered.filter fun i => l.pushed[i]?.any concerns).getLast? =
      ((List.range l.pushed.length).filter fun i => l.pushed[i]?.any concerns).getLast? := by
  cases hlast : ((List.range l.pushed.length).filter fun i =>
      l.pushed[i]?.any concerns).getLast? with
  | none =>
    rw [List.getLast?_eq_none_iff, List.filter_eq_nil_iff] at hlast ⊢
    exact fun i hi => hlast i (List.mem_range.2 (h.known i hi))
  | some j =>
    obtain ⟨hj, hcj, hmax⟩ := le_of_getLast? hlast
    have hmem := h.mem_delivered_of_last hempty hu hj hcj hmax
    cases hd : (l.delivered.filter fun i => l.pushed[i]?.any concerns).getLast? with
    | none =>
      rw [List.getLast?_eq_none_iff, List.filter_eq_nil_iff] at hd
      exact absurd hcj (hd j hmem)
    | some x =>
      obtain ⟨front, hfront⟩ := List.getLast?_eq_some_iff.1 hd
      have hx := List.mem_filter.1 (List.mem_of_getLast? hd)
      have hxj := hmax x (h.known x hx.1) hx.2
      have hjx : j ∈ front ++ [x] := by
        rw [← hfront, List.mem_filter]
        exact ⟨hmem, hcj⟩
      rcases List.mem_append.1 hjx with hjf | hjx
      · -- The one that was delivered later is not earlier than the last.
        have hpair := h.pairwise_delivered.filter fun i => l.pushed[i]?.any concerns
        rw [hfront] at hpair
        have hord := (List.pairwise_append.1 hpair).2.2 j hjf x (by simp)
        refine congrArg some (Nat.le_antisymm hxj ?_)
        rcases hord with hle | hapart
        · exact hle
        · obtain ⟨k, k', hk, hk', -⟩ := id hapart
          obtain ⟨u, huj, -⟩ := eq_update_of_stream? hk
          obtain ⟨v, hvx, -⟩ := eq_update_of_stream? hk'
          have hcx := hx.2
          rw [huj, Option.any_some, hu] at hcj
          rw [hvx, Option.any_some, hu] at hcx
          exact (InOrder.le_of_update (.inr hapart) huj hvx (hcj.1.trans hcx.1.symm)
            (hcj.2.trans hcx.2.symm))
      · rw [List.mem_singleton.1 hjx]

/-- A `Sound` ledger is `Faithful`. -/
theorem Sound.faithful (h : l.Sound q) : l.Faithful q := by
  have hdelivered := h.pairwise_delivered
  constructor
  case hard_order =>
    have hne := pairwise_ne (p := fun i => stream? q l.pushed i = none) fun i => h.count_hard
    refine (hdelivered.and hne).imp fun ⟨hij, hne⟩ hi _ => ?_
    exact Nat.lt_of_le_of_ne (hij.le_of_hard hi) (hne hi)
  case hard_once =>
    intro hempty i hi hhard
    obtain ⟨j, hj, hmem | ⟨t, ht, -⟩⟩ := h.accounted i hi
    · obtain rfl := hj.eq_of_hard hhard
      have hpos := List.count_pos_iff.2 hmem
      have hle := h.count_hard hhard
      omega
    · rw [hempty] at ht
      cases ht
  case vector_order =>
    exact hdelivered.imp fun hij u v => hij.le_of_update
  case barrier =>
    exact hdelivered.imp fun hij => hij.le_of_hard
  case twice =>
    intro i
    have hcount := h.counted i
    split at hcount <;> omega
  -- A message was delivered or waits itself, or a later one of its stream stands for it.
  case skipped =>
    intro i hi
    obtain ⟨j, hj, hmem⟩ := h.accounted i hi
    by_cases hij : j = i
    · subst hij
      exact hmem.imp_right fun ⟨t, ht, hpos, _⟩ => .inl ⟨t, ht, hpos⟩
    · refine .inr (.inr ⟨j, Nat.lt_of_le_of_ne hj.1 (Ne.symm hij), ?_, hj.2.1, ?_⟩)
      · exact (hj.2.2 i (Nat.le_refl i) hj.1).resolve_left (Ne.symm hij)
      · exact hmem.imp_right fun ⟨t, ht, hpos, _⟩ => ⟨t, ht, hpos⟩
  case one_deadline =>
    refine List.Pairwise.imp_of_mem ?_ h.apart
    intro t u ht hum hapart hd _ heq
    obtain ⟨k, k', hk, hk', hne⟩ := hapart hd
    rw [h.keyed t ht, h.keyed u hum, hk, hk'] at heq
    exact hne (Option.some.inj heq)
  case last =>
    intro hempty device name concerns hu
    exact h.last hempty hu

end Faithful

/-! ### Runs -/

/-- The ledger `l` is that of the queue and of the messages delivered in `s`. -/
structure Keeps (q : MessageQueue) (l : Ledger) (s : MessageQueue × List Message) : Prop where
  queue : l.queue q = s.1
  delivered : s.2.map some = l.delivered.map fun i => l.pushed[i]?

section Runs

variable {q : MessageQueue} {l : Ledger} {s : MessageQueue × List Message}

theorem delivered_push (h : l.Sound q) (m : Message) :
    l.delivered.map (fun i => (l.pushed ++ [m])[i]?) = l.delivered.map fun i => l.pushed[i]? :=
  List.map_congr_left fun i hi => List.getElem?_append_left (h.known i hi)

/-- `Keeps` is kept by every event. -/
theorem Keeps.step (hk : l.Keeps q s) (h : l.Sound q) (e : MessageQueue.Event) :
    (l.step q e).Keeps q (MessageQueue.step s e) := by
  obtain ⟨queue, out⟩ := s
  obtain ⟨rfl, hout⟩ := hk
  cases e with
  | push m now => exact ⟨queue_push q l m now, hout.trans (delivered_push h m).symm⟩
  | pop now =>
    have hpop := queue_pop q l now
    rw [MessageQueue.step]
    cases htake : Ticket.takeReady? now l.waiting with
    | none =>
      rw [htake] at hpop
      dsimp only
      rw [hpop]
      have hsame : l.pop q now = l := by rw [pop, htake]
      rw [Ledger.step, hsame]
      exact ⟨rfl, hout⟩
    -- The entries of the queue are those of the tickets, so both take the same one.
    | some p =>
      obtain ⟨t, rest⟩ := p
      rw [htake, Option.map_some] at hpop
      dsimp only at hout ⊢
      rw [hpop]
      obtain ⟨before, after, hwaiting, -, -⟩ := Ticket.split_of_takeReady? htake
      have hmem : t ∈ l.waiting := by simp [hwaiting]
      refine ⟨rfl, ?_⟩
      dsimp only
      rw [Ledger.step, pop, htake]
      dsimp only
      rw [List.map_append, List.map_append, hout, List.map_singleton, List.map_singleton,
        h.holds t hmem]

/-- The ledger of a run is that of the queue and of what the queue delivered. -/
theorem keeps_run (q : MessageQueue) (events : List MessageQueue.Event) :
    (run q events).Keeps q (q.run events) := by
  have hfold : ∀ (l : Ledger) s, l.Sound q → l.Keeps q s →
      (events.foldl (Ledger.step q) l).Keeps q (events.foldl MessageQueue.step s) := by
    induction events with
    | nil => exact fun l s _ hk => hk
    | cons e events ih => exact fun l s h hk => ih _ _ (h.step e) (hk.step h e)
  exact hfold {} (q.clear, []) (sound_start q) ⟨rfl, rfl⟩

/-- The ledger of a run has all messages that were pushed, in their order. -/
theorem pushed_run (q : MessageQueue) (events : List MessageQueue.Event) :
    (run q events).pushed = events.filterMap MessageQueue.Event.message? := by
  -- From any ledger, so that the induction on the events goes through.
  have hfold : ∀ l : Ledger, (events.foldl (Ledger.step q) l).pushed =
      l.pushed ++ events.filterMap MessageQueue.Event.message? := by
    induction events with
    | nil => exact fun l => (List.append_nil _).symm
    | cons e events ih =>
      intro l
      rw [List.foldl_cons, ih]
      cases e with
      | push m now => simp [Ledger.step, push, MessageQueue.Event.message?]
      | pop now =>
        have hsame : (l.pop q now).pushed = l.pushed := by
          rw [pop]
          split <;> rfl
        rw [Ledger.step, hsame]
        rfl
  exact hfold {}

end Runs

end Ledger

/-- **Every run of a queue is `Faithful`.** Whatever the settings of the queue and whatever is
    pushed and popped at whatever times, the ledger of the run tells which of the pushed messages
    its entries and the delivered messages are, and the order and number of deliveries, the
    barriers and the messages skipped are as `Ledger.Faithful` says. -/
theorem MessageQueue.faithful_run (q : MessageQueue) (events : List MessageQueue.Event) :
    (Ledger.run q events).queue q = (q.run events).1 ∧
      (q.run events).2.map some =
        (Ledger.run q events).delivered.map (fun i => (Ledger.run q events).pushed[i]?) ∧
      (Ledger.run q events).pushed = events.filterMap Event.message? ∧
      (Ledger.run q events).Faithful q := by
  obtain ⟨hqueue, hdelivered⟩ := Ledger.keeps_run q events
  exact ⟨hqueue, hdelivered, Ledger.pushed_run q events, (Ledger.sound_run q events).faithful⟩

end Observatory
