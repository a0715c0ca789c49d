import Mathlib.Algebra.GroupWithZero.Nat
import Observatory.Proofs.Watch.Shape

/-!
# Passes

A pass collects the tokens that saw a change and calls their callbacks, one after the other.
Whatever a callback does to the store, and whether or not it fails, the next one is called on
what it left.  Tokens are handed out in ascending order and never twice, so the order of the
tokens is the order of the registrations, and a token that is gone is gone for good.

* `Synchronizer.pairwise_ascending`, `Synchronizer.call_eq`: collected tokens ascend; what calling
  some callbacks comes to;
* `Lookout.Move`, `Lookout.play`: events and passes in any order;
* `Lookout.Kept`: the invariant, with `Lookout.kept_step` and `Lookout.kept_play`;
* `Lookout.InOrder`, `Lookout.inOrder_play`: what holds of the trie and of passes in every run.
-/

namespace Observatory

namespace Synchronizer

/-! ### Collected tokens -/

theorem pairwise_insertToken {token : Token} {tokens : List Token}
    (h : tokens.Pairwise (· < ·)) : (insertToken token tokens).Pairwise (· < ·) := by
  -- Along the tokens, as far as the place where the new one belongs.
  induction tokens with
  | nil => exact List.pairwise_singleton _ _
  | cons t rest ih =>
    obtain ⟨hhead, hrest⟩ := List.pairwise_cons.1 h
    unfold insertToken
    split
    · next hlt =>
      refine List.pairwise_cons.2 ⟨?_, h⟩
      intro u hu
      rcases List.mem_cons.1 hu with rfl | hu
      · exact hlt
      · exact Nat.lt_trans hlt (hhead u hu)
    · split
      · exact h
      · next hge hne =>
        refine List.pairwise_cons.2 ⟨?_, ih hrest⟩
        intro u hu
        rcases mem_insertToken.1 hu with rfl | hu
        · exact Nat.lt_of_le_of_ne (Nat.le_of_not_lt hge) fun e => hne e.symm
        · exact hhead u hu

/-- `ascending` gives each token once, in ascending order. -/
theorem pairwise_ascending (tokens : List Token) : (ascending tokens).Pairwise (· < ·) := by
  unfold ascending
  induction tokens with
  | nil => exact List.Pairwise.nil
  | cons t rest ih => exact pairwise_insertToken ih

theorem nodup_of_ascending {tokens : List Token} (h : tokens.Pairwise (· < ·)) : tokens.Nodup :=
  h.imp fun hlt => Nat.ne_of_lt hlt

/-- If both lists ascend, then some tokens of `all` are what filtering `all` by them gives. -/
theorem eq_filter_of_ascending {tokens all : List Token} (ht : tokens.Pairwise (· < ·))
    (ha : all.Pairwise (· < ·)) (h : ∀ t ∈ tokens, t ∈ all) :
    tokens = all.filter (· ∈ tokens) := by
  have hfilter : (all.filter (· ∈ tokens)).Pairwise (· < ·) := ha.filter _
  refine List.Perm.eq_of_pairwise (fun a b _ _ hab hba => absurd hab (Nat.lt_asymm hba)) ht
    hfilter ?_
  rw [List.perm_ext_iff_of_nodup (nodup_of_ascending ht) (nodup_of_ascending hfilter)]
  intro t
  rw [List.mem_filter]
  exact ⟨fun hm => ⟨h t hm, decide_eq_true hm⟩, fun hm => of_decide_eq_true hm.2⟩

/-! ### Calls -/

/-- A registration after the calls of some tokens: if its own is among them, it has one call
    more. -/
def counted (tokens : List Token) (p : Token × Callback) : Token × Callback :=
  if p.1 ∈ tokens then (p.1, { p.2 with calls := p.2.calls + 1 }) else p

@[simp] theorem fst_counted (tokens : List Token) (p : Token × Callback) :
    (counted tokens p).1 = p.1 := by
  unfold counted
  split <;> rfl

theorem counted_of_not_mem {tokens : List Token} {p : Token × Callback} (h : p.1 ∉ tokens) :
    counted tokens p = p := if_neg h

theorem counted_counted {token : Token} {tokens : List Token} (h : token ∉ tokens)
    (p : Token × Callback) : counted tokens (counted [token] p) = counted (token :: tokens) p := by
  by_cases hp : p.1 = token
  · have hone : p.1 ∈ [token] := List.mem_singleton.2 hp
    have hall : p.1 ∈ token :: tokens := hp ▸ List.mem_cons_self
    have hnone : (counted [token] p).1 ∉ tokens := by
      rw [fst_counted, hp]
      exact h
    rw [counted_of_not_mem hnone, counted, counted, if_pos hone, if_pos hall]
  · rw [counted_of_not_mem fun hm => hp (List.mem_singleton.1 hm), counted, counted]
    simp only [List.mem_cons, hp, false_or]

/-- If no token is registered twice, then `callback?` finds the callback that was registered with
    it. -/
theorem callback?_of_mem {y : Synchronizer} (hy : (y.callbacks.map Prod.fst).Nodup)
    {p : Token × Callback} (h : p ∈ y.callbacks) : y.callback? p.1 = some p.2 := by
  unfold callback?
  generalize y.callbacks = ps at hy h
  induction ps with
  | nil => cases h
  | cons q rest ih =>
    obtain ⟨hq, hrest⟩ := List.nodup_cons.1 hy
    rcases List.mem_cons.1 h with rfl | h
    · rw [List.find?_cons_of_pos (by simp)]
      rfl
    · have hne : q.1 ≠ p.1 := fun e => hq (e ▸ List.mem_map_of_mem h)
      rw [List.find?_cons_of_neg (by simpa using hne)]
      exact ih hrest h

/-- `invoke` counts one call of the registration, and the store is what the callback left, whether
    or not it failed. -/
theorem invoke_eq {y : Synchronizer} (hy : (y.callbacks.map Prod.fst).Nodup)
    {p : Token × Callback} (hp : p ∈ y.callbacks) (s : Store) : y.invoke p.1 s =
      ({ y with callbacks := y.callbacks.map (counted [p.1]) }, (p.2.act p.2.calls s).2) := by
  unfold invoke
  rw [callback?_of_mem hy hp]
  have hmap : y.callbacks.map (fun q => if q.1 = p.1 then (p.1, (p.2.invoke s).1) else q) =
      y.callbacks.map (counted [p.1]) := by
    refine List.map_congr_left fun q hq => ?_
    by_cases he : q.1 = p.1
    · -- Only one callback has this token.
      have hqp : q = p := by
        have hsome := callback?_of_mem hy hq
        rw [he, callback?_of_mem hy hp, Option.some.injEq] at hsome
        exact Prod.ext he hsome.symm
      subst hqp
      rw [if_pos rfl, counted, if_pos List.mem_cons_self]
      rfl
    · rw [if_neg he, counted_of_not_mem fun hm => he (List.mem_singleton.1 hm)]
  exact Prod.ext (congrArg (fun cs => { y with callbacks := cs }) hmap) rfl

/-- `call` counts one call of each registration, and each callback is called on the store that the
    ones before it left. -/
theorem call_eq {y : Synchronizer} (hy : (y.callbacks.map Prod.fst).Nodup)
    {ps : List (Token × Callback)} (hps : ∀ p ∈ ps, p ∈ y.callbacks)
    (hn : (ps.map Prod.fst).Nodup) (s : Store) : y.call (ps.map Prod.fst) s =
      ({ y with callbacks := y.callbacks.map (counted (ps.map Prod.fst)) },
        ps.foldl (fun s p => (p.2.act p.2.calls s).2) s) := by
  induction ps generalizing y s with
  | nil =>
    have hid : y.callbacks.map (counted []) = y.callbacks := by
      refine List.map_id'' (fun p => ?_) _
      exact counted_of_not_mem List.not_mem_nil
    rw [List.map_nil, hid]
    rfl
  | cons p rest ih =>
    obtain ⟨hp, hrest⟩ := List.nodup_cons.1 hn
    have hkeys : (y.callbacks.map (counted [p.1])).map Prod.fst = y.callbacks.map Prod.fst := by
      rw [List.map_map]
      exact List.map_congr_left fun q _ => fst_counted _ _
    -- The callbacks that are still to be called are as they were.
    have hmem : ∀ q ∈ rest, q ∈ y.callbacks.map (counted [p.1]) := by
      intro q hq
      have hne : q.1 ∉ [p.1] := fun hm =>
        hp (List.mem_singleton.1 hm ▸ List.mem_map_of_mem hq)
      exact List.mem_map.2 ⟨q, hps q (List.mem_cons_of_mem _ hq), counted_of_not_mem hne⟩
    rw [List.map_cons, call, List.foldl_cons, ← call, invoke_eq hy (hps p List.mem_cons_self)]
    dsimp only
    rw [ih (y := { y with callbacks := y.callbacks.map (counted [p.1]) }) (hkeys ▸ hy) hmem hrest,
      List.map_map, List.foldl_cons]
    have hcomp : counted (rest.map Prod.fst) ∘ counted [p.1] =
        counted (p.1 :: rest.map Prod.fst) := funext (counted_counted hp)
    rw [hcomp]

/-- The number of calls that were made so far. -/
def totalCalls (callbacks : List (Token × Callback)) : Nat :=
  (callbacks.map fun p => p.2.calls).sum

/-- Counting the calls of some tokens adds one for every registration among them. -/
theorem totalCalls_counted (tokens : List Token) (callbacks : List (Token × Callback)) :
    totalCalls (callbacks.map (counted tokens)) =
      totalCalls callbacks + (callbacks.filter fun p => p.1 ∈ tokens).length := by
  induction callbacks with
  | nil => rfl
  | cons p rest ih =>
    simp only [totalCalls, List.map_cons, List.sum_cons] at ih ⊢
    rw [ih, List.filter_cons, counted]
    by_cases hp : p.1 ∈ tokens
    · rw [if_pos hp, if_pos (decide_eq_true hp), List.length_cons]
      dsimp only
      omega
    · rw [if_neg hp, if_neg (by simpa using hp)]
      omega

/-- `call` leaves the trie and the next token as they are, and no token comes or goes. -/
theorem call_frame (y : Synchronizer) (tokens : List Token) (s : Store) :
    (y.call tokens s).1.root = y.root ∧ (y.call tokens s).1.nextToken = y.nextToken ∧
      (y.call tokens s).1.callbacks.map Prod.fst = y.callbacks.map Prod.fst := by
  induction tokens generalizing y s with
  | nil => exact ⟨rfl, rfl, rfl⟩
  | cons token rest ih =>
    -- A call puts the new callback in the place of the old one, under the same token.
    have hone : (y.invoke token s).1.root = y.root ∧ (y.invoke token s).1.nextToken = y.nextToken ∧
        (y.invoke token s).1.callbacks.map Prod.fst = y.callbacks.map Prod.fst := by
      unfold invoke
      cases y.callback? token with
      | none => exact ⟨rfl, rfl, rfl⟩
      | some c =>
        refine ⟨rfl, rfl, ?_⟩
        show (y.callbacks.map _).map Prod.fst = _
        rw [List.map_map]
        refine List.map_congr_left fun p _ => ?_
        show (if p.1 = token then (token, (c.invoke s).1) else p).1 = p.1
        split
        · next he => exact he.symm
        · rfl
    obtain ⟨hroot, hnext, hkeys⟩ := ih (y.invoke token s).1 (y.invoke token s).2
    exact ⟨hroot.trans hone.1, hnext.trans hone.2.1, hkeys.trans hone.2.2⟩

end Synchronizer

namespace Lookout

/-! ### Passes in a run -/

/-- What happens to a lookout: an event, or a pass, which collects and calls. -/
inductive Move where
  | event (e : Event)
  | pass

/-- The lookout after a move. -/
def Move.step (x : Lookout) : Move → Lookout
  | event e => e.step x
  | pass =>
    let (_, synchronizer, store) := x.synchronizer.run x.store
    { store, synchronizer, watches := x.watches.map fun w => { w with since := x.store.root } }

/-- The lookout after some moves. -/
def play (x : Lookout) (moves : List Move) : Lookout := moves.foldl Move.step x

/-- The invariant of all runs: the lookout is `Valid`, the trie is `Full`, no place has a token
    twice, and later registrations have larger tokens. -/
structure Kept (x : Lookout) : Prop where
  valid : x.Valid
  full : x.synchronizer.root.Full
  nodup : ∀ p, (x.synchronizer.root.tokensAt p).Nodup
  ascending : (x.watches.map Watch.token).Pairwise (· < ·)

variable {x : Lookout}

/-- `Kept` holds at the start, where the trie is empty. -/
theorem kept_start (clock : Clock) : (start clock).Kept where
  valid := valid_start clock
  full := Trigger.full_empty
  nodup := by
    intro p
    show (Trigger.empty.tokensAt p).Nodup
    rw [Trigger.tokensAt, Trigger.place_empty]
    exact List.nodup_nil
  ascending := List.Pairwise.nil

/-- A registration keeps `Kept`, because `Selector.expand` gives no path twice. -/
theorem kept_add (hx : x.Kept) (selector : Selector) (act : Nat → Store → Bool × List Store.Op)
    (force : Bool) : (Event.step x (.add selector act force)).Kept := by
  have hvalid := valid_add hx.valid selector act force
  rw [Event.step] at hvalid ⊢
  cases ha : x.synchronizer.add x.store selector (.ofRequests act) force with
  | none => exact hx
  | some result =>
    obtain ⟨token, y, s⟩ := result
    rw [ha] at hvalid
    obtain ⟨rfl, hroot, -, -⟩ := added_of_add ha
    -- The new token is larger than those of all listeners.
    have hnew : ∀ p : Place, p.steps ∈ selector.expand →
        x.synchronizer.nextToken ∉ x.synchronizer.root.tokensAt p := by
      intro p _ hmem
      obtain ⟨w, hw, he, -⟩ := (hx.valid.listeners p _).1 hmem
      exact absurd he (Nat.ne_of_lt (hx.valid.bound w hw))
    refine ⟨hvalid, ?_, ?_, ?_⟩
    · show y.root.Full
      rw [hroot]
      exact Trigger.full_insertAll _ _ _ hx.full
    · intro p
      show (y.root.tokensAt p).Nodup
      rw [hroot]
      exact Trigger.nodup_insertAll selector.nodup_expand hnew hx.nodup p
    · show ((x.watches ++ [_]).map Watch.token).Pairwise (· < ·)
      rw [List.map_append, List.pairwise_append]
      refine ⟨hx.ascending, List.pairwise_singleton _ _, ?_⟩
      intro t ht u hu
      obtain ⟨w, hw, rfl⟩ := List.mem_map.1 ht
      cases List.mem_singleton.1 hu
      exact hx.valid.bound w hw

/-- A removal keeps `Kept`. -/
theorem kept_remove (hx : x.Kept) (token : Token) : (Event.step x (.remove token)).Kept := by
  -- What is left of an ascending list is ascending.
  have hwatches : ((x.watches.filter fun w => w.token ≠ token).map Watch.token).Pairwise (· < ·) :=
    hx.ascending.sublist ((List.filter_sublist).map _)
  have hvalid := valid_remove hx.valid token
  rw [Event.step, Synchronizer.remove] at hvalid ⊢
  cases hc : x.synchronizer.callback? token with
  | none =>
    rw [hc] at hvalid
    exact ⟨hvalid, hx.full, hx.nodup, hwatches⟩
  | some c =>
    rw [hc] at hvalid
    refine ⟨hvalid, Trigger.full_remove token hx.valid.proper hx.full, ?_, hwatches⟩
    intro p
    show ((Trigger.remove token x.synchronizer.root).tokensAt p).Nodup
    rw [Trigger.tokensAt_remove token hx.valid.proper]
    exact (hx.nodup p).filter _

/-- A collection keeps `Kept`. -/
theorem kept_collect (hx : x.Kept) : (Event.step x .collect).Kept where
  valid := valid_collect hx.valid
  full := Trigger.full_visit hx.valid.proper hx.full _
  nodup := by
    intro p
    show ((Trigger.visit x.synchronizer.root (some x.store.root)).1.tokensAt p).Nodup
    rw [(Trigger.visit_place hx.valid.proper _ p).1]
    exact hx.nodup p
  ascending := by
    rw [Event.step, List.map_map]
    exact hx.ascending

/-- Calling callbacks keeps `Kept`: they change the store, and their calls are counted. -/
theorem kept_call (hx : x.Kept) (tokens : List Token) :
    Kept { x with
      synchronizer := (x.synchronizer.call tokens x.store).1
      store := (x.synchronizer.call tokens x.store).2 } := by
  obtain ⟨hroot, hnext, hkeys⟩ := x.synchronizer.call_frame tokens x.store
  obtain ⟨hlater, hwrites⟩ :=
    Synchronizer.later_call hx.valid.writes hx.valid.store tokens
  generalize x.synchronizer.call tokens x.store = called at hroot hnext hkeys hlater hwrites
  obtain ⟨⟨root, callbacks, next⟩, store⟩ := called
  cases hroot
  cases hnext
  -- Only the store and the callbacks are new, so all that is about the trie stays.
  refine ⟨?_, hx.full, hx.nodup, hx.ascending⟩
  exact { hx.valid with
    store := hlater.valid
    tokens := hx.valid.tokens.trans hkeys.symm
    writes := hwrites }

/-- A pass is a collection followed by the calls of the collected tokens. -/
theorem step_pass (x : Lookout) : Move.step x .pass =
    { Event.step x .collect with
      synchronizer :=
        ((Event.step x .collect).synchronizer.call x.collects (Event.step x .collect).store).1
      store :=
        ((Event.step x .collect).synchronizer.call x.collects (Event.step x .collect).store).2 } :=
  rfl

/-- Every move keeps `Kept`. -/
theorem kept_step (hx : x.Kept) (m : Move) : (m.step x).Kept := by
  cases m with
  | event e =>
    cases e with
    | write ops => exact ⟨valid_write hx.valid ops, hx.full, hx.nodup, hx.ascending⟩
    | add selector act force => exact kept_add hx selector act force
    | remove token => exact kept_remove hx token
    | collect => exact kept_collect hx
  | pass =>
    rw [step_pass]
    exact kept_call (kept_collect hx) _

/-- Every run keeps `Kept`. -/
theorem kept_play (hx : x.Kept) (moves : List Move) : (x.play moves).Kept := by
  induction moves generalizing x with
  | nil => exact hx
  | cons m rest ih => exact ih (kept_step hx m)

/-! ### Tokens that are gone -/

/-- A token that was handed out and is not registered any more. -/
structure Spent (x : Lookout) (token : Token) : Prop where
  old : token < x.synchronizer.nextToken
  gone : ∀ w ∈ x.watches, w.token ≠ token

theorem nextToken_remove (y : Synchronizer) (token : Token) :
    (y.remove token).2.nextToken = y.nextToken := by
  unfold Synchronizer.remove
  cases y.callback? token <;> rfl

/-- A `Spent` token stays so at every move, since new tokens are larger. -/
theorem Spent.step {token : Token} (h : x.Spent token) (m : Move) : (m.step x).Spent token := by
  -- A collection changes only what the registrations were told.
  have hsince : ∀ w ∈ x.watches.map (fun w => { w with since := x.store.root }),
      w.token ≠ token := by
    intro w hw
    obtain ⟨v, hv, rfl⟩ := List.mem_map.1 hw
    exact h.gone v hv
  cases m with
  | pass =>
    refine ⟨?_, hsince⟩
    show token < (x.synchronizer.run x.store).2.1.nextToken
    rw [Synchronizer.run, (Synchronizer.call_frame _ _ _).2.1]
    exact h.old
  | event e =>
    cases e with
    | write ops => exact ⟨h.old, h.gone⟩
    | collect => exact ⟨h.old, hsince⟩
    | remove other =>
      refine ⟨?_, fun w hw => h.gone w (List.mem_filter.1 hw).1⟩
      show token < (x.synchronizer.remove other).2.nextToken
      rw [nextToken_remove]
      exact h.old
    | add selector act force =>
      rw [Move.step, Event.step]
      cases ha : x.synchronizer.add x.store selector (.ofRequests act) force with
      | none => exact h
      | some result =>
        obtain ⟨new, y, s⟩ := result
        obtain ⟨rfl, -, -, hnext⟩ := added_of_add ha
        constructor
        · show token < y.nextToken
          rw [hnext]
          exact Nat.lt_succ_of_lt h.old
        · intro w hw
          rcases List.mem_append.1 hw with hw | hw
          · exact h.gone w hw
          · cases List.mem_singleton.1 hw
            exact (Nat.ne_of_lt h.old).symm

/-- A `Spent` token stays so in every run. -/
theorem Spent.play {token : Token} (h : x.Spent token) (moves : List Move) :
    (x.play moves).Spent token := by
  induction moves generalizing x with
  | nil => exact h
  | cons m rest ih => exact ih (h.step m)

/-- After its removal a token is `Spent`. -/
theorem spent_remove (hx : x.Valid) {w : Watch} (hw : w ∈ x.watches) :
    (Event.step x (.remove w.token)).Spent w.token where
  old := by
    show w.token < (x.synchronizer.remove w.token).2.nextToken
    rw [nextToken_remove]
    exact hx.bound w hw
  gone := fun _ hv => of_decide_eq_true (List.mem_filter.1 hv).2

/-- Only tokens of live registrations are collected. -/
theorem exists_watch_of_mem_collects (hx : x.Valid) {token : Token} (h : token ∈ x.collects) :
    ∃ w ∈ x.watches, w.token = token := by
  obtain ⟨p, l, hl, rfl, -⟩ :=
    (Trigger.mem_heard_iff hx.proper _ _).1 (Synchronizer.mem_ascending.1 h)
  obtain ⟨w, hw, he, -⟩ := (hx.listeners p l.token).1 (List.mem_map_of_mem hl)
  exact ⟨w, hw, he⟩

/-! ### What holds in every run -/

/-- The registrations that a collection finds now, in the order in which they were made. -/
def fired (x : Lookout) : List (Token × Callback) :=
  x.synchronizer.callbacks.filter fun p => p.1 ∈ x.collects

/-- What holds of the trie and of passes in every run: the trie holds the live registrations and
    nothing else, and a pass calls what it collects, in order. -/
structure InOrder (x : Lookout) : Prop where
  /-- Callbacks are kept in the order of their registrations. -/
  live : x.synchronizer.callbacks.map Prod.fst = x.watches.map Watch.token
  /-- The trie registers every live token for every path of its selector, and nothing else. -/
  registrations : ∀ steps token, (steps, token) ∈ x.synchronizer.root.registrations ↔
    ∃ w ∈ x.watches, w.token = token ∧ steps ∈ w.paths
  /-- No registration is found twice. -/
  nodup : x.synchronizer.root.registrations.Nodup
  /-- Instances have the listeners of their pattern, place by place and path by path. -/
  instances : ∀ t, t = x.synchronizer.root ∨ x.synchronizer.root.Beneath t →
    ∀ pattern is, t.wildcard = some (pattern, is) → ∀ key u, (key, u) ∈ is →
      Trigger.Alike pattern u ∧ ∀ r, r ∈ u.registrations ↔ r ∈ pattern.registrations
  /-- Nothing beneath the root is empty. -/
  full : x.synchronizer.root.Full
  /-- Without callbacks the root is all there is. -/
  bare : x.synchronizer.callbacks = [] → x.synchronizer.triggerNodes = 1
  /-- Tokens are collected in ascending order. -/
  ascending : x.collects.Pairwise (· < ·)
  /-- Live tokens are collected, in the order of their registrations. -/
  collected : x.collects = x.fired.map Prod.fst
  /-- A pass calls the collected callbacks, each once and on what the ones before it left. -/
  pass : x.synchronizer.run x.store = (x.collects,
    { (x.synchronizer.collect x.store).2.1 with
      callbacks := x.synchronizer.callbacks.map (Synchronizer.counted x.collects) },
    x.fired.foldl (fun s p => (p.2.act p.2.calls s).2) x.store.closeTick)
  /-- Its result counts these calls. -/
  count : Synchronizer.totalCalls (x.synchronizer.run x.store).2.1.callbacks =
    Synchronizer.totalCalls x.synchronizer.callbacks + (x.synchronizer.run x.store).1.length
  /-- A token that is removed is never collected again. -/
  removed : ∀ w ∈ x.watches, ∀ moves,
    w.token ∉ ((Event.step x (.remove w.token)).play moves).collects

/-- The collected tokens are those of `fired`, in that order. -/
theorem Kept.collects_eq (hx : x.Kept) : x.collects = x.fired.map Prod.fst := by
  have hkeys := hx.valid.tokens
  have hcallbacks : (x.synchronizer.callbacks.map Prod.fst).Pairwise (· < ·) :=
    hkeys ▸ hx.ascending
  have hlive : ∀ t ∈ x.collects, t ∈ x.synchronizer.callbacks.map Prod.fst := by
    intro t ht
    obtain ⟨w, hw, rfl⟩ := exists_watch_of_mem_collects hx.valid ht
    exact hkeys ▸ List.mem_map_of_mem hw
  refine (Synchronizer.eq_filter_of_ascending (Synchronizer.pairwise_ascending _) hcallbacks
    hlive).trans ?_
  rw [fired, List.filter_map]
  rfl

/-- What a pass returns, and what it makes of the synchronizer and the store, call by call. -/
theorem Kept.run_eq (hx : x.Kept) : x.synchronizer.run x.store = (x.collects,
    { (x.synchronizer.collect x.store).2.1 with
      callbacks := x.synchronizer.callbacks.map (Synchronizer.counted x.collects) },
    x.fired.foldl (fun s p => (p.2.act p.2.calls s).2) x.store.closeTick) := by
  have hnodup : (x.synchronizer.callbacks.map Prod.fst).Nodup :=
    hx.valid.tokens ▸ Synchronizer.nodup_of_ascending hx.ascending
  have hfired : (x.fired.map Prod.fst).Nodup := hnodup.sublist ((List.filter_sublist).map _)
  have hmem : ∀ p ∈ x.fired, p ∈ x.synchronizer.callbacks := fun p hp => (List.mem_filter.1 hp).1
  have hcall := Synchronizer.call_eq (y := (x.synchronizer.collect x.store).2.1) hnodup hmem hfired
    x.store.closeTick
  rw [← hx.collects_eq] at hcall
  rw [Synchronizer.run]
  exact congrArg (Prod.mk x.collects) hcall

/-- **Passes in every run.**  After any moves the trie registers every live token for every path of
    its selector and nothing else, with nothing empty in it.  A pass then calls every callback that
    it collects once, in the order of the registrations and each on the store that the ones before
    it left, and it counts the calls.  A token that was removed is never collected again. -/
theorem inOrder_play (clock : Clock) (moves : List Move) : ((start clock).play moves).InOrder := by
  have hx : ((start clock).play moves).Kept := kept_play (kept_start clock) moves
  generalize (start clock).play moves = x at hx
  have hrun := hx.run_eq
  refine
    { live := hx.valid.tokens.symm
      registrations := ?_
      nodup := Trigger.nodup_registrations hx.valid.proper hx.nodup
      instances := ?_
      full := hx.full
      bare := ?_
      ascending := Synchronizer.pairwise_ascending _
      collected := hx.collects_eq
      pass := hrun
      count := ?_
      removed := ?_ }
  · intro steps token
    rw [Trigger.mem_registrations_iff hx.valid.proper]
    simp only [hx.valid.listeners]
    constructor
    · rintro ⟨p, rfl, hw⟩
      exact hw
    · intro hw
      obtain ⟨p, rfl⟩ := Place.exists_steps steps
      exact ⟨p, rfl, hw⟩
  · intro t ht pattern is hw key u hu
    have hproper : t.Proper := by
      rcases ht with rfl | hb
      · exact hx.valid.proper
      · exact hx.valid.proper.beneath hb
    have hold := hproper.instances hw
    have hget := Dict.get?_of_mem hold.sorted.nodup_keys hu
    have halike := hold.alike key u hget
    exact ⟨halike, fun r => (halike.mem_registrations_iff hold.proper (hold.each key u hget)).symm⟩
  · intro hnone
    refine hx.full.nodeCount_eq_one hx.valid.proper fun p => ?_
    refine List.eq_nil_iff_forall_not_mem.2 fun token ht => ?_
    -- A listener would have a live registration.
    obtain ⟨w, hw, -⟩ := (hx.valid.listeners p token).1 ht
    have hmem : w.token ∈ x.synchronizer.callbacks.map Prod.fst :=
      hx.valid.tokens ▸ List.mem_map_of_mem hw
    rw [hnone] at hmem
    cases hmem
  · rw [hrun]
    dsimp only
    rw [Synchronizer.totalCalls_counted]
    conv => rhs; rw [hx.collects_eq, List.length_map]
    rfl
  · intro w hw moves hmem
    have hspent := (spent_remove hx.valid hw).play moves
    have hkept := kept_play (kept_remove hx w.token) moves
    obtain ⟨v, hv, he⟩ := exists_watch_of_mem_collects hkept.valid hmem
    exact hspent.gone v hv he

end Lookout

end Observatory
