import Observatory.Proofs.Indi.Deadline

/-!
# Spacing of deliveries

Who never comes later than a queue says receives the updates of a stream at a distance: the next
one waits for an expiration after the one before.  Only a placeholder does not start another
wait.  So when a stream is silent for a while, the first update that follows is delivered at
once, however short a time after the placeholder that ended the wait before.

* `MessageQueue.log`: which entries are delivered, and when;
* `MessageQueue.Attentive`: nothing happens later than something is due;
* `MessageQueue.inStream`: the entries of one stream, with what each event does to them;
* `MessageQueue.Phase`: which entries a stream has, as time passes;
* `MessageQueue.spaced_log`: how far apart the deliveries of a stream are, with
  `MessageQueue.log_exposures` where they are not.
-/

namespace Observatory

/-- An entry that was delivered, and when. -/
structure Delivery where
  time : Nat
  entry : QueueEntry

namespace MessageQueue

open QueueEntry

/-! ### Deliveries of a run -/

/-- The queue after one event. -/
def after (q : MessageQueue) (e : Event) : MessageQueue := (step (q, []) e).1

/-- The delivery that an event makes, if it makes one. -/
def delivery? (q : MessageQueue) : Event → Option Delivery
  | .push _ _ => none
  | .pop now => (takeReady? now q.entries).map fun p => ⟨now, p.1⟩

/-- The deliveries of several events, in their order. -/
def log : MessageQueue → List Event → List Delivery
  | _, [] => []
  | q, e :: events => (q.delivery? e).toList ++ log (q.after e) events

/-- Time does not go back, and nothing happens later than `nextDue?` says: all that is ready is
    taken before time passes. -/
def Attentive : MessageQueue → Nat → List Event → Prop
  | _, _, [] => True
  | q, now, e :: events =>
    now ≤ e.time ∧ (∀ d ∈ q.nextDue? now, e.time ≤ d) ∧ Attentive (q.after e) e.time events

instance decidableAttentive : ∀ (q : MessageQueue) (now : Nat) (events : List Event),
    Decidable (Attentive q now events)
  | _, _, [] => .isTrue trivial
  | q, _, e :: events =>
    have := decidableAttentive (q.after e) e.time events
    inferInstanceAs (Decidable (_ ∧ _ ∧ _))

variable {q : MessageQueue} {m : Message} {key : StreamKey} {now t : Nat}
  {entries new : List QueueEntry}

/-- A pop takes nothing and changes nothing, or takes the first entry that is ready, which leaves
    its placeholder. -/
theorem pop_cases (q : MessageQueue) (t : Nat) :
    (q.delivery? (.pop t) = none ∧ q.after (.pop t) = q) ∨ ∃ before e rest,
      q.entries = before ++ e :: rest ∧ e.isReady t = true ∧
        (∀ b ∈ before, b.isReady t = false) ∧ q.delivery? (.pop t) = some ⟨t, e⟩ ∧
          q.after (.pop t) =
            { q with entries := before ++ rest ++ e.leaves (t + q.expiration) } := by
  -- A pop does what `takeReady?` finds, and there is nothing to do if it finds nothing.
  cases htake : takeReady? t q.entries with
  | none =>
    refine .inl ⟨by rw [delivery?, htake]; rfl, ?_⟩
    have hpop : q.popReady? t = none := by rw [popReady?, htake]; rfl
    rw [after, step]
    dsimp only
    rw [hpop]
  | some p =>
    obtain ⟨e, rest⟩ := p
    obtain ⟨before, behind, hentries, rfl, hready, hbefore⟩ := takeReady?_eq_some_iff.1 htake
    refine .inr ⟨before, e, behind, hentries, hready, hbefore, by rw [delivery?, htake]; rfl, ?_⟩
    rw [after, step]
    dsimp only
    rw [popReady?, htake, Option.map_some, leaves]
    dsimp only
    split
    · rfl
    · rw [List.append_nil]

/-- An event changes the queue as `after` says, and adds the message of `delivery?`. -/
theorem step_eq (s : MessageQueue × List Message) (e : Event) : step s e =
    (s.1.after e, s.2 ++ ((s.1.delivery? e).toList.map fun d => d.entry.message)) := by
  cases e with
  | push m t => simp [step, after, delivery?]
  | pop t =>
    cases htake : takeReady? t s.1.entries with
    | none => simp [step, after, delivery?, popReady?, htake]
    | some p =>
      simp only [step, after, delivery?, popReady?, htake, Option.map_some]
      split <;> rfl

/-- The messages that a run delivers are those of its `log`. -/
theorem map_log (events : List Event) (s : MessageQueue × List Message) :
    (events.foldl step s).2 = s.2 ++ (s.1.log events).map fun d => d.entry.message := by
  induction events generalizing s with
  | nil => exact (List.append_nil s.2).symm
  | cons e events ih => rw [List.foldl_cons, step_eq, ih, log, List.map_append, List.append_assoc]

/-- An event changes only the entries of a queue, and none of its settings. -/
theorem after_eq (q : MessageQueue) (e : Event) :
    q.after e = { q with entries := (q.after e).entries } := by
  cases e with
  | push m t =>
    rw [after, step]
    dsimp only
    rw [push]
    split
    · rfl
    · split <;> rfl
  | pop t =>
    rcases pop_cases q t with ⟨-, h⟩ | ⟨_, _, _, -, -, -, -, h⟩ <;> rw [h]

theorem expiration_after (q : MessageQueue) (e : Event) :
    (q.after e).expiration = q.expiration := by
  rw [after_eq]

theorem delayedStream?_after (q : MessageQueue) (e : Event) (m : Message) :
    (q.after e).delayedStream? m = q.delayedStream? m := by
  rw [after_eq]
  rfl

/-! ### The entries of a stream -/

/-- The entries that belong to a stream. -/
def inStream (q : MessageQueue) (key : StreamKey) : List QueueEntry :=
  q.entries.filter fun e => e.key = some key

theorem mem_inStream {e : QueueEntry} :
    e ∈ q.inStream key ↔ e ∈ q.entries ∧ e.key = some key := by
  rw [inStream, List.mem_filter, decide_eq_true_eq]

/-- `replaceIn?` and the restriction to one stream commute, as the entry that it replaces is one of
    this stream. -/
theorem filter_replaceIn? (key : StreamKey) (m : Message) (entries : List QueueEntry) :
    replaceIn? key m (entries.filter fun e => e.key = some key) =
      (replaceIn? key m entries).map (List.filter fun e => e.key = some key) := by
  induction entries with
  | nil => rfl
  | cons e entries ih =>
    -- An entry of another stream is neither replaced nor kept by the restriction.
    by_cases hkey : e.key = some key
    · rw [List.filter_cons_of_pos (by simpa using hkey), replaceIn?, replaceIn?]
      split
      · simp [hkey]
      · rw [ih, Option.map_map, Option.map_map]
        congr 1
        funext rest
        simp [hkey]
    · have hwaits : waitsIn key e = false := by simp [waitsIn, hkey]
      rw [List.filter_cons_of_neg (by simpa using hkey), ih, replaceIn?, hwaits,
        if_neg Bool.false_ne_true, Option.map_map]
      congr 1
      funext rest
      simp [hkey]

/-- `replaceIn?` for another stream leaves the entries of this one. -/
theorem filter_of_replaceIn? {other : StreamKey} (h : replaceIn? other m entries = some new)
    (hne : other ≠ key) :
    new.filter (fun e => e.key = some key) = entries.filter fun e => e.key = some key := by
  induction entries generalizing new with
  | nil => cases h
  | cons e entries ih =>
    rw [replaceIn?] at h
    split at h
    · -- The entry that is replaced belongs to the other stream, before and after.
      next hwaits =>
      cases h
      have hkey : e.key = some other := by
        simp only [waitsIn, Bool.and_eq_true, decide_eq_true_eq] at hwaits
        exact hwaits.2
      simp [hkey, hne]
    · obtain ⟨rest, hrest, rfl⟩ := Option.map_eq_some_iff.1 h
      rw [List.filter_cons, List.filter_cons, ih hrest]

/-- A push to another stream leaves the entries of this one. -/
theorem inStream_push_of_ne {other : StreamKey} (hm : q.delayedStream? m = some other)
    (hne : other ≠ key) : (q.push m t).inStream key = q.inStream key := by
  rw [push, hm]
  dsimp only
  split
  · next hreplace => exact filter_of_replaceIn? hreplace hne
  · simp [inStream, hne]

/-- A push to the stream replaces a message that waits, or puts two entries behind the others: the
    message, ready at once, and its placeholder. -/
theorem inStream_push (hm : q.delayedStream? m = some key) (t : Nat) :
    (q.push m t).inStream key = (replaceIn? key m (q.inStream key)).getD (q.inStream key ++
      [⟨m, none, false, some key⟩, ⟨m, some (t + q.expiration), true, some key⟩]) := by
  rw [inStream, inStream, filter_replaceIn?, push, hm]
  dsimp only
  cases replaceIn? key m q.entries with
  | none => simp
  | some entries => rfl

/-- A pop takes nothing of the stream, or the first entry of the stream that is ready.  Entries of
    other streams in front of it do not matter. -/
theorem inStream_pop (q : MessageQueue) (key : StreamKey) (t : Nat) :
    ((q.delivery? (.pop t)).filter (fun d => d.entry.key = some key) = none ∧
        (q.after (.pop t)).inStream key = q.inStream key) ∨
      ∃ before e rest, q.inStream key = before ++ e :: rest ∧ e.isReady t = true ∧
        (∀ b ∈ before, b.isReady t = false) ∧
          (q.delivery? (.pop t)).filter (fun d => d.entry.key = some key) = some ⟨t, e⟩ ∧
            (q.after (.pop t)).inStream key = before ++ rest ++ e.leaves (t + q.expiration) := by
  rcases pop_cases q t with ⟨hnone, hsame⟩ | ⟨before, e, rest, hentries, hready, hbefore, hsome,
    hafter⟩
  · exact .inl ⟨by rw [hnone]; rfl, by rw [hsame]⟩
  · -- A placeholder belongs to the stream of its entry.
    have hleaves : (e.leaves (t + q.expiration)).filter (fun a => a.key = some key) =
        if e.key = some key then e.leaves (t + q.expiration) else [] := by
      rw [leaves]
      split <;> split <;> simp_all
    rw [hafter, hsome, inStream, inStream, hentries]
    simp only [List.filter_append, List.filter_cons, hleaves, decide_eq_true_eq]
    by_cases hkey : e.key = some key
    · refine .inr ⟨_, e, _, by rw [if_pos hkey], hready, ?_, by simp [hkey], by rw [if_pos hkey]⟩
      exact fun b hb => hbefore b (List.mem_filter.1 hb).1
    · exact .inl ⟨by simp [hkey], by simp [hkey]⟩

/-- The key of each entry is the stream of its message. -/
def Keyed (q : MessageQueue) : Prop := ∀ e ∈ q.entries, e.key = q.delayedStream? e.message

theorem keyed_of_replaceIn? {f : Message → Option StreamKey}
    (h : replaceIn? key m entries = some new) (hm : f m = some key)
    (hkeyed : ∀ e ∈ entries, e.key = f e.message) : ∀ e ∈ new, e.key = f e.message := by
  induction entries generalizing new with
  | nil => cases h
  | cons e entries ih =>
    obtain ⟨he, hkeyed⟩ := List.forall_mem_cons.1 hkeyed
    rw [replaceIn?] at h
    split at h
    · next hwaits =>
      cases h
      simp only [waitsIn, Bool.and_eq_true, decide_eq_true_eq] at hwaits
      exact List.forall_mem_cons.2 ⟨hwaits.2.trans hm.symm, hkeyed⟩
    · obtain ⟨rest, hrest, rfl⟩ := Option.map_eq_some_iff.1 h
      exact List.forall_mem_cons.2 ⟨he, ih hrest hkeyed⟩

/-- `Keyed` is kept by every event. -/
theorem Keyed.after (h : q.Keyed) (e : Event) : (q.after e).Keyed := by
  -- The streams are those of the queue before the event, which no event changes.
  have hkeyed : ∀ a ∈ (q.after e).entries, a.key = q.delayedStream? a.message := by
    cases e with
    | push m t =>
      rw [MessageQueue.after, step]
      dsimp only
      rw [push]
      split
      · next hm =>
        simp only [List.mem_append, List.mem_map, List.mem_filter, List.mem_singleton]
        rintro a (⟨b, ⟨hb, -⟩, rfl⟩ | rfl)
        · exact h b hb
        · exact hm.symm
      · next hm =>
        split
        · next hreplace => exact keyed_of_replaceIn? hreplace hm h
        · simp only [List.mem_append, List.mem_cons, List.not_mem_nil, or_false]
          rintro a (ha | rfl | rfl)
          · exact h a ha
          · exact hm.symm
          · exact hm.symm
    | pop t =>
      rcases pop_cases q t with ⟨-, hsame⟩ | ⟨before, e, rest, hentries, -, -, -, hafter⟩
      · rw [hsame]
        exact h
      · rw [Keyed, hentries] at h
        rw [hafter]
        simp only [List.mem_append, List.mem_cons] at h ⊢
        rintro a ((ha | ha) | ha)
        · exact h a (.inl ha)
        · exact h a (.inr (.inr ha))
        · rw [leaves] at ha
          split at ha
          · rw [List.mem_singleton.1 ha]
            exact h e (.inr (.inl rfl))
          · cases ha
  intro a ha
  rw [delayedStream?_after]
  exact hkeyed a ha

/-- `Keyed` holds after every run, as a run begins with an empty queue. -/
theorem keyed_run (q : MessageQueue) (events : List Event) : (q.run events).1.Keyed := by
  have hfold : ∀ s : MessageQueue × List Message, s.1.Keyed → (events.foldl step s).1.Keyed := by
    induction events with
    | nil => exact fun s hs => hs
    | cons e events ih =>
      intro s hs
      refine ih _ ?_
      rw [step_eq]
      exact hs.after e
  exact hfold (q.clear, []) (List.forall_mem_nil _)

/-- Each delivery of a log is in the stream of its message. -/
theorem Keyed.log (h : q.Keyed) (events : List Event) :
    ∀ d ∈ q.log events, d.entry.key = q.delayedStream? d.entry.message := by
  induction events generalizing q with
  | nil => exact List.forall_mem_nil _
  | cons e events ih =>
    intro d hd
    -- The delivery is that of the first event, or one of the log behind it.
    rcases List.mem_append.1 hd with hd | hd
    · rw [Option.mem_toList] at hd
      cases e with
      | push m t => cases hd
      | pop t =>
        rcases pop_cases q t with ⟨hnone, -⟩ | ⟨before, e, rest, hentries, -, -, hsome, -⟩
        · rw [hnone] at hd
          cases hd
        · rw [hsome] at hd
          cases hd
          exact h e (by simp [hentries])
    · rw [← delayedStream?_after q e]
      exact ih (h.after e) d hd

/-! ### Phases of a stream -/

/-- How the delivery `d` of a stream follows the delivery `a`: an expiration later at least, or, if
    `a` was a placeholder, as a new message that is ready at once. -/
structure Follows (expiration : Nat) (a d : Delivery) : Prop where
  time : a.time ≤ d.time
  new : d.entry.due = none → d.entry.placeholder = false
  apart : a.time + expiration ≤ d.time ∨ a.entry.placeholder = true ∧ d.entry.due = none

/-- `Follows` is transitive.  Here it matters that what is ready at once is no placeholder, so two
    short distances never add up. -/
theorem Follows.trans {expiration : Nat} {a b d : Delivery} (hab : Follows expiration a b)
    (hbd : Follows expiration b d) : Follows expiration a d := by
  refine ⟨Nat.le_trans hab.time hbd.time, hbd.new, .inl ?_⟩
  have hb := hab.time
  have hd := hbd.time
  rcases hab.apart with hle | ⟨-, hdue⟩
  · omega
  · rcases hbd.apart with hle | ⟨hplaceholder, -⟩
    · omega
    · rw [hab.new hdue] at hplaceholder
      cases hplaceholder

/-- Which entries a stream has `now`, after its last delivery.  It is silent, with none, after a
    placeholder or before its first message; it is starting, with a new message and its
    placeholder; or it is waiting, with one entry that is due an expiration after the last
    delivery. -/
inductive Phase (expiration : Nat) (pushed : Message → Nat → Prop) (now : Nat) :
    Option Delivery → List QueueEntry → Prop
  | silent {last : Option Delivery}
    (closed : ∀ d ∈ last, d.time ≤ now ∧ d.entry.placeholder = true) :
    Phase expiration pushed now last []
  | starting {last : Option Delivery} {first slot : QueueEntry} {due : Nat}
    (closed : ∀ d ∈ last, d.time ≤ now ∧ d.entry.placeholder = true)
    (ready : first.due = none) (new : first.placeholder = false)
    (came : pushed first.message now) (waits : slot.due = some due)
    (far : now + expiration ≤ due) :
    Phase expiration pushed now last [first, slot]
  | waiting {d : Delivery} {slot : QueueEntry} {due : Nat} (waits : slot.due = some due)
    (before : d.time ≤ now) (not_late : now ≤ due) (far : d.time + expiration ≤ due) :
    Phase expiration pushed now (some d) [slot]

section Phase

variable {pushed : Message → Nat → Prop} {last : Option Delivery} {expiration : Nat}

/-- A phase is kept as time passes, up to the first time at which an entry is ready. -/
theorem Phase.pass (h : Phase expiration pushed now last entries) (hle : now ≤ t)
    (hdue : ∀ e ∈ entries, t ≤ e.readyAt now) : Phase expiration pushed t last entries := by
  cases h with
  | silent closed =>
    exact .silent fun d hd => ⟨Nat.le_trans (closed d hd).1 hle, (closed d hd).2⟩
  | @starting _ first slot due closed ready new came waits far =>
    -- A new message is ready, so that no time passes.
    have hfirst := hdue first (by simp)
    rw [readyAt, ready] at hfirst
    obtain rfl : t = now := Nat.le_antisymm hfirst hle
    exact .starting closed ready new came waits far
  | @waiting d slot due waits before not_late far =>
    have hslot := hdue slot (by simp)
    rw [readyAt, waits] at hslot
    dsimp only at hslot
    exact .waiting waits (Nat.le_trans before hle) (by omega) far

/-- A phase is followed by a phase when a message of the stream is pushed. -/
theorem Phase.push (h : Phase expiration pushed now last entries) (hm : pushed m now)
    (hkeys : ∀ e ∈ entries, e.key = some key) :
    Phase expiration pushed now last ((replaceIn? key m entries).getD (entries ++
      [⟨m, none, false, some key⟩, ⟨m, some (now + expiration), true, some key⟩])) := by
  cases h with
  | silent closed => exact .starting closed rfl rfl hm rfl (Nat.le_refl _)
  | @starting _ first slot due closed ready new came waits far =>
    -- It waits instead of the placeholder.
    have hslot : waitsIn key slot = true := by simp [waitsIn, waits, hkeys slot (by simp)]
    have hreplace : replaceIn? key m [first, slot] =
        some [first, { slot with message := m, placeholder := false }] := by
      simp [replaceIn?, waitsIn, ready, waits, hkeys slot (by simp)]
    rw [hreplace]
    exact .starting closed ready new came waits far
  | @waiting d slot due waits before not_late far =>
    have hreplace : replaceIn? key m [slot] =
        some [{ slot with message := m, placeholder := false }] := by
      simp [replaceIn?, waitsIn, waits, hkeys slot (by simp)]
    rw [hreplace]
    exact .waiting waits before not_late far

/-- A phase is followed by a phase when the first entry that is ready is delivered, and that
    delivery `Follows` the last one. -/
theorem Phase.pop {before rest : List QueueEntry} {e : QueueEntry}
    (h : Phase expiration pushed now last (before ++ e :: rest)) (hready : e.isReady now = true)
    (hbefore : ∀ b ∈ before, b.isReady now = false) :
    (∀ a ∈ last, Follows expiration a ⟨now, e⟩) ∧ (e.due = none → pushed e.message now) ∧
      Phase expiration pushed now (some ⟨now, e⟩)
        (before ++ rest ++ e.leaves (now + expiration)) := by
  generalize hentries : before ++ e :: rest = entries at h
  cases h with
  | silent closed => simp at hentries
  | @starting _ first slot due closed ready new came waits far =>
    cases before with
    | nil =>
      -- The new message; its placeholder waits from now on.
      simp only [List.nil_append, List.cons.injEq] at hentries
      obtain ⟨rfl, rfl⟩ := hentries
      have hleaves : e.leaves (now + expiration) = [] := by simp [leaves, ready]
      rw [hleaves]
      refine ⟨fun a ha => ⟨(closed a ha).1, fun _ => new, .inr ⟨(closed a ha).2, ready⟩⟩,
        fun _ => came, ?_⟩
      exact .waiting waits (Nat.le_refl now) (by omega) far
    | cons b before =>
      obtain ⟨rfl, -⟩ := List.cons.inj hentries
      have hfirst := hbefore b List.mem_cons_self
      rw [isReady, ready] at hfirst
      cases hfirst
  | @waiting d slot due waits earlier not_late far =>
    obtain ⟨rfl, rfl, rfl⟩ : before = [] ∧ e = slot ∧ rest = [] := by
      cases before with
      | nil => simpa using hentries
      | cons b before => simp at hentries
    rw [isReady, waits] at hready
    have hdue : due ≤ now := of_decide_eq_true hready
    refine ⟨fun a ha => ?_, fun hnone => by simp [waits] at hnone, ?_⟩
    · cases ha
      exact ⟨earlier, fun hnone => by simp [waits] at hnone, .inl (Nat.le_trans far hdue)⟩
    · cases hp : e.placeholder with
      | true =>
        have hleaves : e.leaves (now + expiration) = [] := by simp [leaves, hp]
        rw [hleaves]
        refine .silent fun d hd => ?_
        cases hd
        exact ⟨Nat.le_refl now, hp⟩
      | false =>
        have hleaves : e.leaves (now + expiration) =
            [{ e with due := some (now + expiration), placeholder := true }] := by
          simp [leaves, hp, waits]
        rw [hleaves]
        exact .waiting rfl (Nat.le_refl now) (Nat.le_add_right _ _) (Nat.le_refl _)

end Phase

section Log

variable {pushed : Message → Nat → Prop} {last : Option Delivery}

/-- A phase is followed by a phase at every event, and what the event delivers `Follows` the last
    delivery. -/
theorem Phase.after (h : Phase q.expiration pushed now last (q.inStream key)) (e : Event)
    (hle : now ≤ e.time) (hdue : ∀ d ∈ q.nextDue? now, e.time ≤ d)
    (hpush : ∀ m t, e = .push m t → pushed m t ∧ q.isDelayable m = true) :
    let now? := (q.delivery? e).filter fun d => d.entry.key = some key
    (∀ a ∈ last, ∀ d ∈ now?, Follows q.expiration a d) ∧
      (∀ d ∈ now?, d.entry.due = none → pushed d.entry.message d.time) ∧
        Phase (q.after e).expiration pushed e.time (now?.or last) ((q.after e).inStream key) := by
  -- The event is no later than anything of the stream is due, so the phase lasts until then.
  have hpass := h.pass hle fun a ha => by
    have hmem : a ∈ q.entries := (mem_inStream.1 ha).1
    obtain ⟨d, hd, hda⟩ := exists_nextDue? hmem now
    exact Nat.le_trans (hdue d hd) hda
  rw [expiration_after]
  cases e with
  | push m t =>
    obtain ⟨hm, hdelayable⟩ := hpush m t rfl
    obtain ⟨other, hother⟩ := Option.isSome_iff_exists.1 hdelayable
    have hphase : Phase q.expiration pushed t last ((q.push m t).inStream key) := by
      by_cases hkey : other = key
      · rw [hkey] at hother
        rw [inStream_push hother]
        exact hpass.push hm fun a ha => (mem_inStream.1 ha).2
      · rw [inStream_push_of_ne hother hkey]
        exact hpass
    exact ⟨fun _ _ d hd => (Option.not_mem_none d hd).elim,
      fun d hd => (Option.not_mem_none d hd).elim, hphase⟩
  | pop t =>
    rcases inStream_pop q key t with ⟨hnone, hsame⟩ | ⟨before, e, rest, hentries, hready, hbefore,
      hsome, hafter⟩
    · rw [hnone, hsame]
      exact ⟨fun _ _ d hd => (Option.not_mem_none d hd).elim,
        fun d hd => (Option.not_mem_none d hd).elim, hpass⟩
    · rw [hsome, hafter]
      rw [hentries] at hpass
      obtain ⟨hfollows, hcame, hphase⟩ := hpass.pop hready hbefore
      refine ⟨fun a ha d hd => ?_, fun d hd hnew => ?_, hphase⟩
      · rw [← Option.mem_some.1 hd]
        exact hfollows a ha
      · rw [← Option.mem_some.1 hd] at hnew ⊢
        exact hcame hnew

/-- From a phase on, every delivery of the stream `Follows` those before it, by induction on the
    events. -/
theorem Phase.log {events : List Event}
    (h : Phase q.expiration pushed now last (q.inStream key)) (hattentive : q.Attentive now events)
    (hpush : ∀ m t, .push m t ∈ events → pushed m t ∧ q.isDelayable m = true) :
    let deliveries := (q.log events).filter fun d => d.entry.key = some key
    (∀ a ∈ last, ∀ d ∈ deliveries, Follows q.expiration a d) ∧
      deliveries.Pairwise (Follows q.expiration) ∧
        ∀ d ∈ deliveries, d.entry.due = none → pushed d.entry.message d.time := by
  induction events generalizing q now last with
  | nil => exact ⟨fun _ _ => List.forall_mem_nil _, .nil, List.forall_mem_nil _⟩
  | cons e events ih =>
    obtain ⟨hle, hdue, hrest⟩ := hattentive
    obtain ⟨hfollows, hcame, hphase⟩ := h.after e hle hdue fun m t he =>
      hpush m t (he ▸ List.mem_cons_self)
    obtain ⟨hlater, hpairwise, hnew⟩ := ih hphase hrest fun m t hm => by
      rw [isDelayable, delayedStream?_after]
      exact hpush m t (List.mem_cons_of_mem e hm)
    rw [expiration_after] at hlater hpairwise
    -- The log is a list of at most one delivery for each event, restricted to the stream.
    have hfilter : (q.delivery? e).toList.filter (fun d => d.entry.key = some key) =
        ((q.delivery? e).filter fun d => d.entry.key = some key).toList := by
      cases q.delivery? e with
      | none => rfl
      | some d => rw [Option.filter_some]; split <;> simp_all
    dsimp only
    rw [MessageQueue.log, List.filter_append, hfilter]
    cases hd : (q.delivery? e).filter fun d => d.entry.key = some key with
    | none =>
      rw [hd] at hlater
      exact ⟨hlater, hpairwise, hnew⟩
    | some d =>
      rw [hd] at hlater hfollows hcame
      have hafter : ∀ x ∈ (MessageQueue.log (q.after e) events).filter
          (fun d => d.entry.key = some key), Follows q.expiration d x := hlater d rfl
      refine ⟨fun a ha => ?_, List.pairwise_cons.2 ⟨hafter, hpairwise⟩, ?_⟩
      · have had := hfollows a ha d rfl
        exact List.forall_mem_cons.2 ⟨had, fun x hx => had.trans (hafter x hx)⟩
      · exact List.forall_mem_cons.2 ⟨hcame d rfl, hnew⟩

end Log

/-- What a queue promises of the deliveries of one stream, if only throttled messages are pushed
    and what is ready is taken in time. -/
structure Spaced (q : MessageQueue) (key : StreamKey) (events : List Event)
    (deliveries : List Delivery) : Prop where
  /-- They are an expiration apart, but where a new message is ready at once, after a
      placeholder. -/
  apart : (deliveries.filter fun d => q.delayedStream? d.entry.message = some key).Pairwise
    fun a d => a.time + q.expiration ≤ d.time ∨
      a.entry.placeholder = true ∧ d.entry.placeholder = false ∧ d.entry.due = none
  /-- What is ready at once is delivered when it is pushed. -/
  at_once : ∀ d ∈ deliveries, q.delayedStream? d.entry.message = some key →
    d.entry.due = none → .push d.entry.message d.time ∈ events

/-- **Deliveries of a stream are an expiration apart, but for one case.** Whatever happened before,
    if nothing of the stream waits, only throttled messages are pushed from now on, and nothing
    that is ready is taken late, then two deliveries of the stream are at least an expiration
    apart, unless the second is a new message that is delivered when it is pushed, after a
    placeholder. -/
theorem spaced_log (q : MessageQueue) (history events : List Event) (now : Nat) (key : StreamKey)
    (silent : ∀ e ∈ (q.run history).1.entries, q.delayedStream? e.message ≠ some key)
    (attentive : (q.run history).1.Attentive now events)
    (throttled : ∀ m t, .push m t ∈ events → q.isDelayable m = true) :
    (q.run (history ++ events)).2 = (q.run history).2 ++
        ((q.run history).1.log events).map (fun d => d.entry.message) ∧
      q.Spaced key events ((q.run history).1.log events) := by
  have hrun := (Ledger.keeps_run q history).queue
  have hexpiration : (q.run history).1.expiration = q.expiration := by rw [← hrun]; rfl
  have hstream : ∀ m, (q.run history).1.delayedStream? m = q.delayedStream? m := by
    intro m
    rw [← hrun]
    rfl
  have hkeyed := keyed_run q history
  -- The stream is silent at first.
  have hsilent : (q.run history).1.inStream key = [] := by
    refine List.filter_eq_nil_iff.2 fun e he hkey => silent e he ?_
    rw [← hstream, ← hkeyed e he]
    exact of_decide_eq_true hkey
  have hphase : Phase (q.run history).1.expiration (fun m t => .push m t ∈ events) now none
      ((q.run history).1.inStream key) := by
    rw [hsilent]
    exact .silent fun d hd => (Option.not_mem_none d hd).elim
  obtain ⟨-, hpairwise, hnew⟩ := hphase.log attentive fun m t hm =>
    ⟨hm, by rw [isDelayable, hstream]; exact throttled m t hm⟩
  -- The deliveries of the stream are those whose entries belong to it.
  have hkeys : ∀ d ∈ (q.run history).1.log events,
      d.entry.key = q.delayedStream? d.entry.message := by
    intro d hd
    rw [hkeyed.log events d hd, hstream]
  have hfilter : ((q.run history).1.log events).filter (fun d => d.entry.key = some key) =
      ((q.run history).1.log events).filter
        fun d => q.delayedStream? d.entry.message = some key :=
    List.filter_congr fun d hd => by rw [hkeys d hd]
  rw [hexpiration, hfilter] at hpairwise
  refine ⟨?_, ?_, ?_⟩
  · rw [run, List.foldl_append]
    exact map_log events (q.run history)
  · refine hpairwise.imp fun h => h.apart.imp_right fun ⟨hplaceholder, hdue⟩ => ?_
    exact ⟨hplaceholder, h.new hdue, hdue⟩
  · intro d hd hkey
    refine hnew d (List.mem_filter.2 ⟨hd, ?_⟩)
    rw [hkeys d hd]
    exact decide_eq_true hkey

/-- The events of two exposures, of which the second begins when all of the first has been
    delivered. -/
def exposures : List Event :=
  [.push exposing 0, .pop 0, .pop 0, .pop 500, .pop 500, .push exposing 510, .pop 510, .pop 510]

/-- The stream that both exposures are in. -/
def exposure : StreamKey := ⟨.number, "D", "CCD_EXPOSURE", some .busy⟩

/-- `spaced_log` for the two exposures. -/
theorem spaced_exposures :
    (∀ e ∈ (run {} []).1.entries, delayedStream? {} e.message ≠ some exposure) ∧
      Attentive (run {} []).1 0 exposures ∧
        (∀ m t, .push m t ∈ exposures → isDelayable {} m = true) ∧
          (run {} ([] ++ exposures)).2 =
              (run {} []).2 ++ ((run {} []).1.log exposures).map (fun d => d.entry.message) ∧
            Spaced {} exposure exposures ((run {} []).1.log exposures) := by
  have hsilent : ∀ e ∈ (run {} []).1.entries, delayedStream? {} e.message ≠ some exposure :=
    List.forall_mem_nil _
  have hattentive : Attentive (run {} []).1 0 exposures := by decide +kernel
  -- Both exposures push the same message.
  have hthrottled : ∀ m t, .push m t ∈ exposures → isDelayable {} m = true := by
    intro m t hm
    obtain rfl : m = exposing := by
      simp only [exposures, List.mem_cons, Event.push.injEq, reduceCtorEq, List.not_mem_nil,
        or_false, false_or] at hm
      rcases hm with hm | hm <;> exact hm.1
    decide +kernel
  exact ⟨hsilent, hattentive, hthrottled,
    spaced_log {} [] exposures 0 exposure hsilent hattentive hthrottled⟩

/-- The one case does happen: the first update of the second exposure is delivered a short time
    after the placeholder of the first, although all is taken in time.  So updates of one stream
    are not always an expiration apart. -/
theorem log_exposures :
    Attentive {} 0 exposures ∧ (run {} exposures).1.popReady? 510 = none ∧
      (∀ e ∈ exposures, ∀ m ∈ e.message?, delayedStream? {} m = some exposure) ∧
        (log {} exposures).map (fun d => (d.time, d.entry.message)) =
            [(0, exposing), (500, exposing), (510, exposing)] ∧
          ¬ 500 + ({} : MessageQueue).expiration ≤ 510 := by
  exact ⟨by decide +kernel, rfl, by decide +kernel, by decide +kernel, by decide⟩

end MessageQueue

end Observatory
