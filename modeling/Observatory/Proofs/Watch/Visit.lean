import Observatory.Proofs.Watch.Place

/-!
# What a visit hears

A visit passes over every node that is recorded with the stamp that is there now, together
with all that is below.  So a listener is heard if it has seen something else than what is there
now and nothing on the way to it is passed over; and it is told what is there now, unless it
was not reached.

* `Trigger.Reached`: nothing on the way to a place is passed over;
* `Trigger.mem_heard_iff`: which tokens a visit hears;
* `Trigger.visit_place`: what the listeners have seen afterwards;
* `Trigger.proper_visit`: a visit leaves a proper trie.
-/

namespace Observatory

namespace Trigger

variable {t : Trigger} {data : Option Node}

/-- No node on the way to the place, its own included, is recorded with the stamp that is there
    now, so a visit does not pass over it. -/
def Reached (t : Trigger) (data : Option Node) (p : Place) : Prop :=
  ∀ q, q <+: p → (t.place q).visited ≠ Sighting.of (look data q)

theorem reached_nil : Reached t data [] ↔ t.visited ≠ Sighting.of data :=
  ⟨fun h => h [] List.nil_prefix, fun h q hq => by rwa [List.prefix_nil.1 hq]⟩

/-- A place beneath a branch is `Reached` if the trie itself is not passed over and the place is
    `Reached` from the branch. -/
theorem reached_cons {b : Branch} {p : Place} : Reached t data (b :: p) ↔
    t.visited ≠ Sighting.of data ∧ Reached (t.branch b) (b.part data) p := by
  constructor
  · intro h
    exact ⟨h [] List.nil_prefix, fun q hq => h (b :: q) ((List.cons_prefix_cons).2 ⟨rfl, hq⟩)⟩
  · rintro ⟨hv, h⟩ q hq
    cases q with
    | nil => exact hv
    | cons c q =>
      obtain ⟨rfl, hq'⟩ := List.cons_prefix_cons.1 hq
      exact h q hq'

/-! ### One step of a visit -/

/-- `visitors` pairs every branch with its own `visit`. -/
theorem visitors_eq (bs : List (String × Trigger)) : visitors bs = Dict.mapValues visit bs := by
  induction bs with
  | nil =>
    unfold visitors
    rfl
  | cons p rest ih =>
    obtain ⟨key, t⟩ := p
    rw [visitors, ih]
    rfl

/-- A trie that is recorded with what is there now is passed over: it stays, and nobody is
    heard. -/
theorem visit_of_eq (h : Sighting.of data = t.visited) : visit t data = (t, []) := by
  obtain ⟨ls, ns, w, v⟩ := t
  rcases w with - | ⟨pattern, is⟩
  · unfold visit
    exact if_pos h
  · unfold visit
    exact if_pos h

/-- The visits of the named branches. -/
def namedVisits (data : Option Node) (ns : Dict Trigger) : List (String × Visit) :=
  ns.map fun p => (p.1, visit p.2 (part data p.1))

/-- The visits of the instances whose keys are gone.  They hear the listeners, and what they leave
    is dropped. -/
def goneVisits (data : Option Node) (is : Dict Trigger) : List (String × Visit) :=
  (is.filter fun p => p.1 ∉ dataKeys data).map fun p => (p.1, visit p.2 none)

/-- The visits of an instance for every key that is there, where a key without one begins with the
    pattern. -/
def presentVisits (data : Option Node) (pattern : Trigger) (is : Dict Trigger) :
    List (String × Visit) :=
  (dataKeys data).map fun key => (key, visit ((Dict.get? is key).getD pattern) (part data key))

theorem namedVisits_eq (data : Option Node) (ns : Dict Trigger) :
    ((visitors ns).map fun p => (p.1, p.2 (part data p.1))) = namedVisits data ns := by
  rw [visitors_eq, Dict.mapValues, List.map_map]
  rfl

/-- What `visit` does to a trie without a wildcard that is not passed over. -/
theorem visit_mk_none {ls : List Listener} {ns : Dict Trigger} {v : Sighting}
    (h : Sighting.of data ≠ v) : visit (mk ls ns none v) data =
      (mk (notice (Sighting.of data) ls).1 (tries (namedVisits data ns)) none (Sighting.of data),
        (notice (Sighting.of data) ls).2 ++ tokens (namedVisits data ns)) := by
  rw [visit, ← namedVisits_eq]
  exact if_neg h

/-- What `visit` does to a trie with a wildcard that is not passed over. -/
theorem visit_mk_some {ls : List Listener} {ns : Dict Trigger} {pattern : Trigger}
    {is : Dict Trigger} {v : Sighting} (h : Sighting.of data ≠ v) :
    visit (mk ls ns (some (pattern, is)) v) data =
      (mk (notice (Sighting.of data) ls).1 (tries (namedVisits data ns))
          (some (pattern, tries (presentVisits data pattern is))) (Sighting.of data),
        (notice (Sighting.of data) ls).2 ++ tokens (namedVisits data ns) ++
          tokens (goneVisits data is) ++ tokens (presentVisits data pattern is)) := by
  -- The instances whose keys are gone are visited with nothing, the others with their parts.
  have hgone : (((visitors is).filter fun p => p.1 ∉ dataKeys data).flatMap fun p => (p.2 none).2) =
      tokens (goneVisits data is) := by
    rw [visitors_eq, Dict.mapValues, List.filter_map, List.flatMap_map, tokens, goneVisits,
      List.flatMap_map]
    rfl
  have hpresent : ((dataKeys data).map fun key =>
      (key, (Dict.get? (visitors is) key).getD (visit pattern) (part data key))) =
        presentVisits data pattern is := by
    refine List.map_congr_left ?_
    intro key _
    rw [visitors_eq, Dict.get?_mapValues]
    cases Dict.get? is key with
    | none => rfl
    | some t => rfl
  rw [visit, ← namedVisits_eq, ← hgone, ← hpresent]
  exact if_neg h

/-- Under a key there is the visited branch afterwards, if there was a branch. -/
theorem get?_tries_namedVisits (data : Option Node) (ns : Dict Trigger) (key : String) :
    Dict.get? (tries (namedVisits data ns)) key =
      (Dict.get? ns key).map fun t => (visit t (part data key)).1 := by
  rw [tries, namedVisits, List.map_map]
  exact Dict.get?_mapEntries (fun key t => (visit t (part data key)).1) ns key

/-- A key has the visited instance afterwards if it is there, and no instance otherwise. -/
theorem get?_tries_presentVisits (data : Option Node) (pattern : Trigger) (is : Dict Trigger)
    (key : String) : Dict.get? (tries (presentVisits data pattern is)) key =
      if key ∈ dataKeys data then
        some (visit ((Dict.get? is key).getD pattern) (part data key)).1
      else none := by
  rw [tries, presentVisits, List.map_map]
  exact Dict.get?_mapKeys (fun key => (visit ((Dict.get? is key).getD pattern) (part data key)).1)
    _ key

/-- After a visit the trie is recorded with what is there.  If it was passed over then this was so
    before. -/
theorem visited_visit (t : Trigger) (data : Option Node) :
    (visit t data).1.visited = Sighting.of data := by
  by_cases h : Sighting.of data = t.visited
  · rw [visit_of_eq h, h]
  · obtain ⟨ls, ns, w, v⟩ := t
    rcases w with - | ⟨pattern, is⟩
    · rw [visit_mk_none (v := v) h]
      rfl
    · rw [visit_mk_some (v := v) h]
      rfl

section Step

variable (h : Sighting.of data ≠ t.visited)
include h

/-- After a visit that does not pass over the trie, its listeners have seen what is there now. -/
theorem listeners_visit : (visit t data).1.listeners =
    t.listeners.map fun l => { l with seen := Sighting.of data } := by
  obtain ⟨ls, ns, w, v⟩ := t
  rcases w with - | ⟨pattern, is⟩
  · rw [visit_mk_none (v := v) h]
    rfl
  · rw [visit_mk_some (v := v) h]
    rfl

theorem branch_visit_named (key : String) : (visit t data).1.branch (.named key) =
    match Dict.get? t.named key with
    | none => empty
    | some u => (visit u (part data key)).1 := by
  obtain ⟨ls, ns, w, v⟩ := t
  have hnamed : (visit (mk ls ns w v) data).1.named = tries (namedVisits data ns) := by
    rcases w with - | ⟨pattern, is⟩
    · rw [visit_mk_none (v := v) h]
      rfl
    · rw [visit_mk_some (v := v) h]
      rfl
  rw [branch_named, hnamed, get?_tries_namedVisits, named]
  cases Dict.get? ns key <;> rfl

/-- The branch of a wildcard after a visit: the visited instance if the key is there, and the
    pattern otherwise. -/
theorem branch_visit_wild (key : String) : (visit t data).1.branch (.wild key) =
    match t.wildcard with
    | none => empty
    | some (pattern, _) =>
      if key ∈ dataKeys data then (visit (t.branch (.wild key)) (part data key)).1
      else pattern := by
  obtain ⟨ls, ns, w, v⟩ := t
  rcases w with - | ⟨pattern, is⟩
  · rw [visit_mk_none (v := v) h]
    rfl
  · rw [visit_mk_some (v := v) h]
    -- An instance is made from the pattern if there was none for the key.
    show (Dict.get? (tries (presentVisits data pattern is)) key).getD pattern =
      if key ∈ dataKeys data then
        (visit ((Dict.get? is key).getD pattern) (part data key)).1 else pattern
    rw [get?_tries_presentVisits]
    split <;> rfl

end Step

/-! ### Who is heard -/

@[simp] theorem heard_empty (data : Option Node) : (visit empty data).2 = [] := by
  by_cases h : Sighting.of data = none
  · rw [visit_of_eq h]
  · rw [empty, visit_mk_none h]
    rfl

theorem mem_tokens {visits : List (String × Visit)} {token : Token} :
    token ∈ tokens visits ↔ ∃ p ∈ visits, token ∈ p.2.2 := List.mem_flatMap

/-- `notice` tells the listeners that have seen something else. -/
theorem mem_notice {current : Sighting} {ls : List Listener} {token : Token} :
    token ∈ (notice current ls).2 ↔ ∃ l ∈ ls, l.token = token ∧ l.seen ≠ current := by
  rw [notice, List.mem_map]
  constructor
  · rintro ⟨l, hl, he⟩
    obtain ⟨hl, hs⟩ := List.mem_filter.1 hl
    exact ⟨l, hl, he, of_decide_eq_true hs⟩
  · rintro ⟨l, hl, he, hs⟩
    exact ⟨l, List.mem_filter.2 ⟨hl, decide_eq_true hs⟩, he⟩

/-- Whoever is heard in `namedVisits` is heard in the visit of a branch by a key. -/
theorem mem_tokens_namedVisits (hp : Proper t) {token : Token} :
    token ∈ tokens (namedVisits data t.named) ↔
      ∃ key, token ∈ (visit (t.branch (.named key)) (part data key)).2 := by
  rw [mem_tokens]
  constructor
  · rintro ⟨q, hm, ht⟩
    obtain ⟨⟨key, u⟩, hu, rfl⟩ := List.mem_map.1 hm
    refine ⟨key, ?_⟩
    rw [branch_named, Dict.get?_of_mem hp.sorted_named.nodup_keys hu]
    exact ht
  · rintro ⟨key, ht⟩
    rw [branch_named] at ht
    cases hk : Dict.get? t.named key with
    | none =>
      -- Where there is no branch, nobody is heard.
      rw [hk, Option.getD_none, heard_empty] at ht
      cases ht
    | some u =>
      rw [hk] at ht
      exact ⟨_, List.mem_map_of_mem (Dict.mem_of_get? hk), ht⟩

/-- Whoever is heard in `goneVisits` or `presentVisits` is heard in the visit of a branch by the
    wildcard.  The pattern itself hears nobody, as it is `Blank`. -/
theorem mem_tokens_wildVisits (hp : Proper t) {pattern : Trigger} {is : Dict Trigger}
    (hw : t.wildcard = some (pattern, is)) {token : Token} :
    (token ∈ tokens (goneVisits data is) ∨ token ∈ tokens (presentVisits data pattern is)) ↔
      ∃ key, token ∈ (visit (t.branch (.wild key)) ((Branch.wild key).part data)).2 := by
  have hbranch : ∀ key, t.branch (.wild key) = (Dict.get? is key).getD pattern := by
    intro key
    rw [branch_wild, hw]
  rw [mem_tokens, mem_tokens]
  constructor
  · rintro (⟨q, hm, ht⟩ | ⟨q, hm, ht⟩)
    · obtain ⟨⟨key, u⟩, hu, rfl⟩ := List.mem_map.1 hm
      obtain ⟨hu, hgone⟩ := List.mem_filter.1 hu
      refine ⟨key, ?_⟩
      rw [hbranch, Dict.get?_of_mem (hp.instances hw).sorted.nodup_keys hu, Branch.part,
        if_neg (of_decide_eq_true hgone)]
      exact ht
    · obtain ⟨key, hkey, rfl⟩ := List.mem_map.1 hm
      refine ⟨key, ?_⟩
      rw [hbranch, Branch.part, if_pos hkey]
      exact ht
  · rintro ⟨key, ht⟩
    rw [hbranch, Branch.part] at ht
    by_cases hkey : key ∈ dataKeys data
    · rw [if_pos hkey] at ht
      exact .inr ⟨_, List.mem_map_of_mem hkey, ht⟩
    · rw [if_neg hkey] at ht
      cases hk : Dict.get? is key with
      | none =>
        -- The pattern has seen nothing, so there is nothing new where nothing is.
        have hblank : Sighting.of none = pattern.visited := ((hp.instances hw).blank []).1.symm
        rw [hk, Option.getD_none, visit_of_eq hblank] at ht
        cases ht
      | some u =>
        rw [hk] at ht
        refine .inl ⟨_, List.mem_map_of_mem (List.mem_filter.2 ⟨Dict.mem_of_get? hk, ?_⟩), ht⟩
        exact decide_eq_true hkey

/-- One step of a visit: if the trie is not passed over, it hears the listeners here that have seen
    something else, and whoever is heard below a branch. -/
theorem mem_heard_step (hp : Proper t) {token : Token} : token ∈ (visit t data).2 ↔
    t.visited ≠ Sighting.of data ∧
      ((∃ l ∈ t.listeners, l.token = token ∧ l.seen ≠ Sighting.of data) ∨
        ∃ b : Branch, token ∈ (visit (t.branch b) (b.part data)).2) := by
  by_cases h : Sighting.of data = t.visited
  · rw [visit_of_eq h]
    exact ⟨nofun, fun hv => absurd h.symm hv.1⟩
  · -- Whoever is heard below is heard below a key or below the wildcard.
    have hbranch : (∃ b : Branch, token ∈ (visit (t.branch b) (b.part data)).2) ↔
        token ∈ tokens (namedVisits data t.named) ∨
          ∃ key, token ∈ (visit (t.branch (.wild key)) ((Branch.wild key).part data)).2 := by
      rw [mem_tokens_namedVisits hp]
      constructor
      · rintro ⟨key | key, hb⟩
        · exact .inl ⟨key, hb⟩
        · exact .inr ⟨key, hb⟩
      · rintro (⟨key, hb⟩ | ⟨key, hb⟩)
        · exact ⟨.named key, hb⟩
        · exact ⟨.wild key, hb⟩
    rw [hbranch, ← mem_notice]
    have hne : t.visited ≠ Sighting.of data := fun e => h e.symm
    -- Without a wildcard nobody is heard below one, and with one there are both kinds of visits.
    cases hw : t.wildcard with
    | none =>
      have hnone :
          ¬∃ key, token ∈ (visit (t.branch (.wild key)) ((Branch.wild key).part data)).2 := by
        rintro ⟨key, hb⟩
        rw [branch_wild, hw] at hb
        dsimp only at hb
        rw [heard_empty] at hb
        cases hb
      obtain ⟨ls, ns, w, v⟩ := t
      cases hw
      rw [visit_mk_none (v := v) h, List.mem_append]
      constructor
      · intro hm
        exact ⟨hne, hm.imp id Or.inl⟩
      · rintro ⟨-, hm⟩
        exact hm.imp id fun hb => hb.resolve_right hnone
    | some w =>
      obtain ⟨pattern, is⟩ := w
      rw [← mem_tokens_wildVisits hp hw]
      obtain ⟨ls, ns, w, v⟩ := t
      cases hw
      rw [visit_mk_some (v := v) h, List.mem_append, List.mem_append, List.mem_append, or_assoc,
        or_assoc]
      exact ⟨fun hm => ⟨hne, hm⟩, fun hm => hm.2⟩

/-- **Whom a visit hears.**  A token is heard exactly if it has a listener at a place that is
    `Reached` and the listener has seen something else than what is there now.  By induction down
    the branches of the trie. -/
theorem mem_heard_iff (hp : Proper t) (data : Option Node) (token : Token) :
    token ∈ (visit t data).2 ↔ ∃ p, ∃ l ∈ (t.place p).listeners, l.token = token ∧
      l.seen ≠ Sighting.of (look data p) ∧ Reached t data p := by
  have hall : ∀ data, token ∈ (visit t data).2 ↔ ∃ p, ∃ l ∈ (t.place p).listeners,
      l.token = token ∧ l.seen ≠ Sighting.of (look data p) ∧ Reached t data p := by
    refine Proper.branchInduction ?_ ?_ hp
    · intro data
      rw [heard_empty]
      refine ⟨nofun, ?_⟩
      rintro ⟨p, l, hl, -⟩
      rw [place_empty] at hl
      cases hl
    · -- Who is heard here is heard at the empty place, the others further down.
      intro t ht ih data
      rw [mem_heard_step ht]
      constructor
      · rintro ⟨hv, ⟨l, hl, he, hs⟩ | ⟨b, hb⟩⟩
        · exact ⟨[], l, hl, he, hs, reached_nil.2 hv⟩
        · obtain ⟨p, l, hl, he, hs, hr⟩ := (ih b _).1 hb
          exact ⟨b :: p, l, hl, he, hs, reached_cons.2 ⟨hv, hr⟩⟩
      · rintro ⟨p, l, hl, he, hs, hr⟩
        cases p with
        | nil => exact ⟨reached_nil.1 hr, .inl ⟨l, hl, he, hs⟩⟩
        | cons b q =>
          obtain ⟨hv, hr⟩ := reached_cons.1 hr
          exact ⟨hv, .inr ⟨b, (ih b _).2 ⟨q, l, hl, he, hs, hr⟩⟩⟩
  exact hall data

/-! ### What the listeners have seen afterwards -/

/-- After a visit, a branch is the one that was visited, or a branch whose listeners have seen what
    is there now without a visit of its own: the pattern of an instance that was dropped. -/
theorem branch_visit (hp : Proper t) (h : Sighting.of data ≠ t.visited) (b : Branch) :
    (visit t data).1.branch b = (visit (t.branch b) (b.part data)).1 ∨
      Alike ((visit t data).1.branch b) (t.branch b) ∧
        ∀ p, ∀ l ∈ (((visit t data).1.branch b).place p).listeners,
          l.seen = Sighting.of (look (b.part data) p) := by
  -- Where there is no branch, there are no listeners.
  have hnone : (visit t data).1.branch b = empty → t.branch b = empty →
      Alike ((visit t data).1.branch b) (t.branch b) ∧
        ∀ p, ∀ l ∈ (((visit t data).1.branch b).place p).listeners,
          l.seen = Sighting.of (look (b.part data) p) := by
    intro hb hb'
    rw [hb, hb']
    refine ⟨.refl _, ?_⟩
    intro p l hl
    rw [place_empty] at hl
    cases hl
  cases b with
  | named key =>
    have hb := branch_visit_named h key
    have hold := branch_named t key
    cases hk : Dict.get? t.named key with
    | none =>
      rw [hk] at hb hold
      exact .inr (hnone hb hold)
    | some u =>
      rw [hk] at hb hold
      exact .inl (hold ▸ hb)
  -- A wildcard may drop the instance for the key, and then its pattern takes the place.
  | wild key =>
    have hb := branch_visit_wild h key
    cases hw : t.wildcard with
    | none =>
      rw [hw] at hb
      exact .inr (hnone hb (by rw [branch_wild, hw]))
    | some w =>
      obtain ⟨pattern, is⟩ := w
      rw [hw] at hb
      dsimp only at hb
      by_cases hkey : key ∈ dataKeys data
      · rw [if_pos hkey] at hb
        rw [Branch.part, if_pos hkey]
        exact .inl hb
      · -- The instance is dropped, and the pattern has seen nothing.
        rw [if_neg hkey] at hb
        rw [hb, Branch.part, if_neg hkey]
        refine .inr ⟨hp.alike_branch hw key, ?_⟩
        intro p l hl
        rw [look_none]
        exact ((hp.instances hw).blank p).2 l hl

/-- After a visit the same tokens listen at every place.  Each listener has seen what is there now,
    or is one that was not `Reached`. -/
theorem visit_place (hp : Proper t) (data : Option Node) (p : Place) :
    (visit t data).1.tokensAt p = t.tokensAt p ∧
      ∀ l ∈ ((visit t data).1.place p).listeners, l.seen = Sighting.of (look data p) ∨
        l ∈ (t.place p).listeners ∧ ¬Reached t data p := by
  induction p generalizing t data with
  | nil =>
    by_cases h : Sighting.of data = t.visited
    · rw [visit_of_eq h]
      exact ⟨rfl, fun l hl => .inr ⟨hl, fun hr => reached_nil.1 hr h.symm⟩⟩
    · rw [tokensAt, place_nil, listeners_visit h, List.map_map]
      refine ⟨rfl, ?_⟩
      intro l hl
      obtain ⟨l', -, rfl⟩ := List.mem_map.1 hl
      exact .inl rfl
  | cons b rest ih =>
    by_cases h : Sighting.of data = t.visited
    · rw [visit_of_eq h]
      exact ⟨rfl, fun l hl => .inr ⟨hl, fun hr => (reached_cons.1 hr).1 h.symm⟩⟩
    · rcases branch_visit hp h b with hb | ⟨halike, hseen⟩
      · -- Below a branch that is visited the induction goes on.
        obtain ⟨htokens, hseen⟩ := ih (hp.branch b) (b.part data)
        rw [tokensAt, place_cons, hb]
        refine ⟨htokens, ?_⟩
        intro l hl
        rcases hseen l hl with hs | ⟨hl, hr⟩
        · exact .inl hs
        · exact .inr ⟨hl, fun h' => hr (reached_cons.1 h').2⟩
      · exact ⟨halike rest, fun l hl => .inl (hseen rest l hl)⟩

/-- A visit leaves a trie `Alike` what it was like. -/
theorem Alike.visit {u : Trigger} (h : Alike t u) (hu : Proper u) (data : Option Node) :
    Alike t (Trigger.visit u data).1 := fun p => (h p).trans (visit_place hu data p).1.symm

/-! ### Proper tries stay proper -/

theorem sorted_dataKeys (hd : ∀ n, data = some n → n.Regular) :
    (dataKeys data).Pairwise (· < ·) := by
  rcases data with - | n
  · exact List.Pairwise.nil
  · cases n with
    | scalar s v => exact List.Pairwise.nil
    | object s children =>
      exact Dict.sorted_iff_keys.1 (Node.regular_object.1 (hd _ rfl)).2.1
    | array s items => exact Dict.sorted_iff_keys.1 (Dict.sorted_ofPairs _)

theorem regular_part (hd : ∀ n, data = some n → n.Regular) (key : String) :
    ∀ n, part data key = some n → n.Regular := by
  intro n hn
  obtain ⟨m, hm, hc⟩ := Option.bind_eq_some_iff.1 hn
  have hreg := hd m hm
  cases m with
  | scalar s v => cases hc
  | object s children => exact ((Node.regular_object.1 hreg).2.2 key n hc).2
  | array s items =>
    obtain ⟨i, -, hi⟩ := Option.bind_eq_some_iff.1 hc
    exact ((Node.regular_array.1 hreg).2.2 i n hi).2

/-- The instances that a visit leaves are `ProperInstances` of the pattern, if each visit leaves a
    `Proper` trie. -/
theorem ProperInstances.visit {pattern : Trigger} {is : Dict Trigger}
    (h : ProperInstances pattern is) (hd : ∀ n, data = some n → n.Regular)
    (hpattern : ∀ {data}, (∀ n, data = some n → n.Regular) →
      Proper (Trigger.visit pattern data).1)
    (heach : ∀ key t, Dict.get? is key = some t → ∀ {data}, (∀ n, data = some n → n.Regular) →
      Proper (Trigger.visit t data).1) :
    ProperInstances pattern (tries (presentVisits data pattern is)) := by
  have hinstance : ∀ key t, Dict.get? (tries (presentVisits data pattern is)) key = some t →
      Proper t ∧ Alike pattern t := by
    intro key t hk
    rw [get?_tries_presentVisits] at hk
    split at hk
    · cases hk
      -- The instance of a new key is a copy of the pattern.
      cases hg : Dict.get? is key with
      | none => exact ⟨hpattern (regular_part hd key), (Alike.refl pattern).visit h.proper _⟩
      | some u =>
        exact ⟨heach key u hg (regular_part hd key), (h.alike key u hg).visit (h.each key u hg) _⟩
    · cases hk
  refine ⟨?_, h.proper, h.blank, fun key t hk => (hinstance key t hk).1,
    fun key t hk => (hinstance key t hk).2⟩
  rw [Dict.sorted_iff_keys, Dict.keys, tries, presentVisits, List.map_map, List.map_map]
  show ((dataKeys data).map id).Pairwise _
  rw [List.map_id]
  exact sorted_dataKeys hd

/-- A visit leaves a `Proper` trie. -/
theorem proper_visit (hp : Proper t) (hd : ∀ n, data = some n → n.Regular) :
    Proper (visit t data).1 := by
  induction hp generalizing data with
  | @mk ls ns w v named each sorted pattern blank instanceOf alike ihe ihp ihi =>
    by_cases h : Sighting.of data = v
    · rw [visit_of_eq h]
      exact .mk named each sorted pattern blank instanceOf alike
    · have hnamed : Dict.Sorted (tries (namedVisits data ns)) := by
        have hkeys : Dict.keys (tries (namedVisits data ns)) = Dict.keys ns := by
          rw [tries, namedVisits, List.map_map]
          exact Dict.keys_mapEntries (fun key t => (visit t (part data key)).1) ns
        rw [Dict.sorted_iff_keys, hkeys]
        exact Dict.sorted_iff_keys.1 named
      have heach : ∀ key t, Dict.get? (tries (namedVisits data ns)) key = some t → Proper t := by
        intro key t hk
        rw [get?_tries_namedVisits] at hk
        obtain ⟨u, hu, rfl⟩ := Option.map_eq_some_iff.1 hk
        exact ihe key u hu (regular_part hd key)
      rcases w with - | ⟨pat, is⟩
      · rw [visit_mk_none (v := v) h]
        exact .mk hnamed heach nofun nofun nofun nofun nofun
      · have hold : ProperInstances pat is := ⟨sorted pat is rfl, pattern pat is rfl,
          blank pat is rfl, instanceOf pat is rfl, alike pat is rfl⟩
        rw [visit_mk_some (v := v) h]
        refine proper_mk hnamed heach ?_
        intro pat' is' he
        cases he
        exact hold.visit hd (ihp pat is rfl) (ihi pat is rfl)

end Trigger

end Observatory
