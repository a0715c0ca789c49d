import Observatory.Proofs.Selector
import Observatory.Proofs.Watch.Lookout

/-!
# The shape of a trie

A trie has a branch only where some listener is further down: registrations make no others, and
removals drop what they leave empty.  An instance goes on as long as its pattern does, which is
right because both have the same listeners.  So a trie can be read as a list of registrations,
each of them a path and a token; reading passes over the instances, which only repeat what
their patterns say.

* `Trigger.Child`, `Trigger.Beneath`, `Trigger.Full`: what is beneath a trie, and that none of it
  is empty;
* `Trigger.full_insert`, `Trigger.full_remove`, `Trigger.full_visit`: tries stay full;
* `Trigger.registrations`: the paths and tokens of a trie, with `Trigger.mem_registrations_iff`
  and `Trigger.nodup_registrations`;
* `Trigger.nodup_insertAll`: several paths of one registration bring no repetitions.
-/

namespace Observatory

theorem Place.exists_steps (steps : List Step) : ∃ p : Place, p.steps = steps := by
  induction steps with
  | nil => exact ⟨[], rfl⟩
  | cons step rest ih =>
    obtain ⟨p, rfl⟩ := ih
    cases step with
    | key key => exact ⟨.named key :: p, rfl⟩
    | wildcard => exact ⟨.wild "" :: p, rfl⟩

namespace Trigger

/-! ### Nothing empty -/

/-- `Child t u`: the trie `u` is directly beneath `t`, as a named branch, a pattern or an
    instance. -/
inductive Child : Trigger → Trigger → Prop
  | named {t u : Trigger} {key : String} (h : (key, u) ∈ t.named) : Child t u
  | pattern {t u : Trigger} {is : Dict Trigger} (h : t.wildcard = some (u, is)) : Child t u
  | instanceOf {t u pattern : Trigger} {is : Dict Trigger} {key : String}
      (h : t.wildcard = some (pattern, is)) (hu : (key, u) ∈ is) : Child t u

/-- `Beneath t u`: the trie `u` is somewhere beneath `t`. -/
inductive Beneath : Trigger → Trigger → Prop
  | child {t u : Trigger} (h : t.Child u) : Beneath t u
  | deeper {t u v : Trigger} (h : t.Child u) (hd : Beneath u v) : Beneath t v

/-- Nothing beneath the trie is empty, though the trie itself may be. -/
def Full (t : Trigger) : Prop := ∀ u, t.Beneath u → u.isEmpty = false

/-- Neither the trie nor anything beneath it is empty. -/
structure Occupied (t : Trigger) : Prop where
  nonempty : t.isEmpty = false
  full : t.Full

/-- A trie is `Full` if everything directly beneath it is `Occupied`. -/
theorem full_iff {t : Trigger} : t.Full ↔ ∀ u, t.Child u → u.Occupied := by
  constructor
  · intro h u hu
    exact ⟨h u (.child hu), fun v hv => h v (.deeper hu hv)⟩
  · intro h u hu
    cases hu with
    | child hc => exact (h u hc).nonempty
    | deeper hc hd => exact (h _ hc).full u hd

/-- A branch leads to a `Child`, or to the empty trie. -/
theorem child_branch (t : Trigger) (b : Branch) : t.Child (t.branch b) ∨ t.branch b = empty := by
  obtain ⟨ls, ns, w, v⟩ := t
  cases b with
  | named key =>
    rw [branch]
    cases hk : Dict.get? ns key with
    | none => exact .inr rfl
    | some u => exact .inl (.named (Dict.mem_of_get? hk))
  | wild key =>
    rcases w with - | ⟨pattern, is⟩
    · exact .inr rfl
    · rw [branch]
      cases hk : Dict.get? is key with
      | none => exact .inl (.pattern rfl)
      | some u => exact .inl (.instanceOf rfl (Dict.mem_of_get? hk))

/-- A trie is `Full` if its named branches, its pattern and its instances are `Occupied`. -/
theorem full_mk {ls : List Listener} {ns : Dict Trigger} {w : Option (Trigger × Dict Trigger)}
    {v : Sighting} : (mk ls ns w v).Full ↔ (∀ p ∈ ns, Occupied p.2) ∧
      ∀ pattern is, w = some (pattern, is) → pattern.Occupied ∧ ∀ p ∈ is, Occupied p.2 := by
  rw [full_iff]
  constructor
  · intro h
    refine ⟨fun ⟨_, u⟩ hp => h u (.named hp), ?_⟩
    rintro pattern is rfl
    exact ⟨h pattern (.pattern rfl), fun ⟨_, u⟩ hp => h u (.instanceOf rfl hp)⟩
  · rintro ⟨hn, hw⟩ u hu
    cases hu with
    | named h => exact hn _ h
    | pattern h => exact (hw u _ h).1
    | instanceOf h hu => exact (hw _ _ h).2 _ hu

theorem full_empty : Full empty := full_mk.2 ⟨nofun, nofun⟩

/-- A `Full` trie is so at all its places. -/
theorem Full.place {t : Trigger} (h : t.Full) (p : Place) : (t.place p).Full := by
  induction p generalizing t with
  | nil => exact h
  | cons b rest ih =>
    refine ih ?_
    rcases child_branch t b with hc | he
    · exact (full_iff.1 h _ hc).full
    · rw [he]
      exact full_empty

theorem isEmpty_eq_false {t : Trigger} :
    t.isEmpty = false ↔ t.listeners ≠ [] ∨ t.named ≠ [] ∨ t.wildcard ≠ none := by
  obtain ⟨ls, ns, w, v⟩ := t
  rw [isEmpty, listeners, named, wildcard]
  rcases ls with - | ⟨l, ls⟩ <;> rcases ns with - | ⟨p, ns⟩ <;> cases w <;> simp

theorem Proper.child {t u : Trigger} (h : Proper t) (hc : t.Child u) : Proper u := by
  cases hc with
  | @named key hu =>
    have hbranch := h.branch (.named key)
    rwa [branch_named, Dict.get?_of_mem h.sorted_named.nodup_keys hu] at hbranch
  | pattern hw => exact (h.instances hw).proper
  | instanceOf hw hu =>
    have hold := h.instances hw
    exact hold.each _ _ (Dict.get?_of_mem hold.sorted.nodup_keys hu)

/-- Everything beneath a `Proper` trie is `Proper`. -/
theorem Proper.beneath {t u : Trigger} (h : Proper t) (hb : t.Beneath u) : Proper u := by
  induction hb with
  | child hc => exact h.child hc
  | deeper hc _ ih => exact ih (h.child hc)

/-- In an `Occupied` trie somebody is listening at some place. -/
theorem Occupied.exists_mem_tokensAt {t : Trigger} (h : t.Occupied) (hp : Proper t) :
    ∃ p token, token ∈ t.tokensAt p := by
  induction hp with
  | @mk ls ns w v named each instances pattern blank instanceOf alike ihe ihp ihi =>
    obtain ⟨hn, hw⟩ := full_mk.1 h.full
    rcases isEmpty_eq_false.1 h.nonempty with hls | hns | hwild
    · obtain ⟨l, hl⟩ := List.exists_mem_of_ne_nil ls hls
      exact ⟨[], l.token, List.mem_map_of_mem hl⟩
    · obtain ⟨⟨key, u⟩, hu⟩ := List.exists_mem_of_ne_nil ns hns
      have hget := Dict.get?_of_mem named.nodup_keys hu
      obtain ⟨p, token, ht⟩ := ihe key u hget (hn _ hu)
      refine ⟨.named key :: p, token, ?_⟩
      rwa [tokensAt, place_cons, branch, hget]
    · obtain ⟨⟨pat, is⟩, rfl⟩ := Option.ne_none_iff_exists'.1 hwild
      obtain ⟨hpat, his⟩ := hw pat is rfl
      -- Any key will do: it leads to its instance or to the pattern.
      obtain ⟨p, token, ht⟩ : ∃ p token, token ∈ ((Dict.get? is "").getD pat).tokensAt p := by
        cases hk : Dict.get? is "" with
        | none => exact ihp pat is rfl hpat
        | some u => exact ihi pat is rfl "" u hk (his _ (Dict.mem_of_get? hk))
      exact ⟨.wild "" :: p, token, ht⟩

/-- A trie that is `Alike` an `Occupied` one is not empty. -/
theorem Alike.isEmpty_eq_false {t u : Trigger} (h : Alike t u) (ht : Proper t)
    (ho : t.Occupied) : u.isEmpty = false := by
  obtain ⟨p, token, hmem⟩ := ho.exists_mem_tokensAt ht
  rw [h p, tokensAt] at hmem
  rw [← Bool.not_eq_true]
  intro he
  rw [listeners_place_of_isEmpty he] at hmem
  cases hmem

/-! ### Tries stay full -/

/-- After a registration the trie is not empty. -/
theorem isEmpty_insert (token : Token) (steps : List Step) (data : Option Node) (t : Trigger) :
    (insert token steps data t).isEmpty = false := by
  rw [Trigger.isEmpty_eq_false]
  obtain ⟨ls, ns, w, v⟩ := t
  cases steps with
  | nil => exact .inl (List.append_ne_nil_of_right_ne_nil _ (List.cons_ne_nil _ _))
  | cons step rest =>
    cases step with
    | key key =>
      refine .inr (.inl fun hnil => ?_)
      have hget := Dict.get?_insert ns key
        (insert token rest (part data key) ((Dict.get? ns key).getD empty)) key
      rw [show Dict.insert ns key _ = [] from hnil, if_pos rfl] at hget
      cases hget
    | wildcard => exact .inr (.inr (Option.some_ne_none _))

/-- An instance that `instantiate` makes is an old one or a copy of the pattern. -/
theorem eq_of_mem_instantiate {pattern : Trigger} {is : Dict Trigger} {data : Option Node}
    {p : String × Trigger} (h : p ∈ instantiate pattern is data) : p ∈ is ∨ p.2 = pattern := by
  unfold instantiate at h
  generalize dataKeys data = keys at h
  induction keys generalizing is with
  | nil => exact .inl h
  | cons key rest ih =>
    rw [List.foldl_cons] at h
    rcases ih h with hm | he
    · split at hm
      · exact .inl hm
      · rcases Dict.mem_keys_insert hm with rfl | hm
        · exact .inr rfl
        · exact .inl hm
    · exact .inr he

/-- A registration keeps a trie `Full`. -/
theorem full_insert (token : Token) (steps : List Step) (data : Option Node) {t : Trigger}
    (h : t.Full) : (insert token steps data t).Full := by
  induction steps generalizing data t with
  | nil =>
    obtain ⟨ls, ns, w, v⟩ := t
    exact full_mk.2 (full_mk.1 h)
  | cons step rest ih =>
    -- Whatever is registered further down is occupied afterwards.
    have hnew : ∀ {data : Option Node} {u : Trigger}, u.Full →
        (insert token rest data u).Occupied :=
      fun hu => ⟨isEmpty_insert token rest _ _, ih _ hu⟩
    obtain ⟨ls, ns, w, v⟩ := t
    obtain ⟨hn, hw⟩ := full_mk.1 h
    cases step with
    | key key =>
      refine full_mk.2 ⟨?_, hw⟩
      intro p hp
      rcases Dict.mem_keys_insert hp with rfl | hp
      · refine hnew ?_
        cases hk : Dict.get? ns key with
        | none => exact full_empty
        | some u => exact (hn _ (Dict.mem_of_get? hk)).full
      · exact hn p hp
    | wildcard =>
      -- Without a wildcard so far, the empty trie is the pattern.
      have hold : (w.getD (empty, [])).1.Full ∧ ∀ p ∈ (w.getD (empty, [])).2, Full p.2 := by
        rcases w with - | ⟨pattern, is⟩
        · exact ⟨full_empty, nofun⟩
        · obtain ⟨hp, hi⟩ := hw pattern is rfl
          exact ⟨hp.full, fun p hp => (hi p hp).full⟩
      refine full_mk.2 ⟨hn, ?_⟩
      rintro pattern is ⟨⟩
      refine ⟨hnew hold.1, ?_⟩
      intro p hp
      obtain ⟨q, hq, rfl⟩ := List.mem_map.1 hp
      refine hnew ?_
      rcases eq_of_mem_instantiate hq with hq | he
      · exact hold.2 q hq
      · rw [he]
        exact hold.1

/-- A removal keeps a trie `Full`.  Instances are not looked at by a removal, but they are `Alike`
    their pattern, and so not empty unless that is. -/
theorem full_remove (token : Token) {t : Trigger} (hp : Proper t) (h : t.Full) :
    (remove token t).Full := by
  induction hp with
  | @mk ls ns w v named each sorted pattern blank instanceOf alike ihe ihp ihi =>
    obtain ⟨hn, hw⟩ := full_mk.1 h
    have hnamed := named_remove token ls ns w v
    have hwildcard := wildcard_remove token ls ns w v
    generalize remove token (mk ls ns w v) = u at hnamed hwildcard
    obtain ⟨ls', ns', w', v'⟩ := u
    refine full_mk.2 ⟨?_, ?_⟩
    · rintro ⟨key, u⟩ hu
      rw [show ns' = _ from hnamed] at hu
      obtain ⟨t, ht, he⟩ := Dict.mem_select.1 hu
      -- Of a branch that is kept something is left.
      split at he
      · cases he
      · next hempty =>
        cases he
        exact ⟨Bool.eq_false_iff.2 hempty,
          ihe key t (Dict.get?_of_mem named.nodup_keys ht) (hn _ ht).full⟩
    · intro pat' is' he
      rw [show w' = _ from hwildcard] at he
      obtain ⟨⟨pat, is⟩, hold, hkept⟩ := Option.bind_eq_some_iff.1 he
      cases hold
      obtain ⟨hpat, his⟩ := hw pat is rfl
      split at hkept
      · cases hkept
      · next hempty =>
        cases hkept
        have hocc : (remove token pat).Occupied :=
          ⟨Bool.eq_false_iff.2 hempty, ihp pat is rfl hpat.full⟩
        refine ⟨hocc, ?_⟩
        intro q hq
        obtain ⟨⟨key, u⟩, hu, rfl⟩ := List.mem_map.1 hq
        have hget := Dict.get?_of_mem (sorted pat is rfl).nodup_keys hu
        -- An instance listens to what its pattern listens to.
        have halike := (alike pat is rfl key u hget).remove token (pattern pat is rfl)
          (instanceOf pat is rfl key u hget)
        exact ⟨halike.isEmpty_eq_false (proper_remove token (pattern pat is rfl)) hocc,
          ihi pat is rfl key u hget (his _ hu).full⟩

theorem isEmpty_visit (t : Trigger) (data : Option Node) :
    (visit t data).1.isEmpty = t.isEmpty := by
  by_cases h : Sighting.of data = t.visited
  · rw [visit_of_eq h]
  · obtain ⟨ls, ns, w, v⟩ := t
    have hnotice : (notice (Sighting.of data) ls).1.isEmpty = ls.isEmpty := List.isEmpty_map
    have hbranches : (tries (namedVisits data ns)).isEmpty = ns.isEmpty :=
      List.isEmpty_map.trans List.isEmpty_map
    rcases w with - | ⟨pattern, is⟩
    · rw [visit_mk_none (v := v) h, isEmpty, isEmpty, hnotice, hbranches]
    · rw [visit_mk_some (v := v) h, isEmpty, isEmpty, hnotice, hbranches]
      rfl

/-- A visit keeps a trie `Full`. -/
theorem full_visit {t : Trigger} (hp : Proper t) (h : t.Full) (data : Option Node) :
    (visit t data).1.Full := by
  induction hp generalizing data with
  | @mk ls ns w v named each sorted pattern blank instanceOf alike ihe ihp ihi =>
    by_cases hv : Sighting.of data = v
    · rwa [visit_of_eq hv]
    · obtain ⟨hn, hw⟩ := full_mk.1 h
      have hbranches : ∀ p ∈ tries (namedVisits data ns), Occupied p.2 := by
        intro p hp
        obtain ⟨q, hq, rfl⟩ := List.mem_map.1 hp
        obtain ⟨⟨key, u⟩, hu, rfl⟩ := List.mem_map.1 hq
        exact ⟨(isEmpty_visit u _).trans (hn _ hu).nonempty,
          ihe key u (Dict.get?_of_mem named.nodup_keys hu) (hn _ hu).full _⟩
      rcases w with - | ⟨pat, is⟩
      · rw [visit_mk_none (v := v) hv]
        exact full_mk.2 ⟨hbranches, nofun⟩
      · obtain ⟨hpat, his⟩ := hw pat is rfl
        rw [visit_mk_some (v := v) hv]
        refine full_mk.2 ⟨hbranches, ?_⟩
        rintro pat' is' ⟨⟩
        refine ⟨hpat, ?_⟩
        intro p hp
        obtain ⟨q, hq, rfl⟩ := List.mem_map.1 hp
        obtain ⟨key, -, rfl⟩ := List.mem_map.1 hq
        dsimp only
        -- An instance that is missing is made from the pattern.
        cases hk : Dict.get? is key with
        | none =>
          exact ⟨(isEmpty_visit pat _).trans hpat.nonempty, ihp pat is rfl hpat.full _⟩
        | some u =>
          have hu := his _ (Dict.mem_of_get? hk)
          exact ⟨(isEmpty_visit u _).trans hu.nonempty, ihi pat is rfl key u hk hu.full _⟩

/-! ### Registrations -/

/-- A registration further down, seen from above: with one step more. -/
def under (step : Step) (r : List Step × Token) : List Step × Token := (step :: r.1, r.2)

theorem under_inj {a b : Step} {q r : List Step × Token} :
    under a q = under b r ↔ a = b ∧ q = r := by
  obtain ⟨s, t⟩ := q
  obtain ⟨s', t'⟩ := r
  simp only [under, Prod.mk.injEq, List.cons.injEq, and_assoc]

mutual

/-- The paths and tokens of a trie, read down its named branches and its patterns.  Instances are
    passed over, as they repeat what their patterns say. -/
def registrations : Trigger → List (List Step × Token)
  | mk ls ns none _ => (ls.map fun l => ([], l.token)) ++ registrationsNamed ns
  | mk ls ns (some (pattern, _)) _ =>
    (ls.map fun l => ([], l.token)) ++ registrationsNamed ns ++
      (registrations pattern).map (under .wildcard)

/-- `registrations` of some named branches, each behind its key. -/
def registrationsNamed : List (String × Trigger) → List (List Step × Token)
  | [] => []
  | (key, t) :: rest => (registrations t).map (under (.key key)) ++ registrationsNamed rest

end

theorem mem_registrationsNamed {ns : List (String × Trigger)} {r : List Step × Token} :
    r ∈ registrationsNamed ns ↔
      ∃ key u, (key, u) ∈ ns ∧ ∃ q ∈ u.registrations, under (.key key) q = r := by
  induction ns with
  | nil =>
    rw [registrationsNamed]
    exact ⟨nofun, fun ⟨_, _, h, _⟩ => nomatch h⟩
  | cons p rest ih =>
    obtain ⟨key, u⟩ := p
    rw [registrationsNamed, List.mem_append, List.mem_map, ih]
    -- The registration is in the first branch or in one of the others.
    constructor
    · rintro (⟨q, hq, he⟩ | ⟨k, t, ht, hq⟩)
      · exact ⟨key, u, List.mem_cons_self, q, hq, he⟩
      · exact ⟨k, t, List.mem_cons_of_mem _ ht, hq⟩
    · rintro ⟨k, t, ht, q, hq, he⟩
      rcases List.mem_cons.1 ht with hhead | ht
      · cases hhead
        exact .inl ⟨q, hq, he⟩
      · exact .inr ⟨k, t, ht, q, hq, he⟩

/-- A registration of a trie ends here, or it is one of a named branch or of the pattern. -/
theorem mem_registrations_mk {ls : List Listener} {ns : Dict Trigger}
    {w : Option (Trigger × Dict Trigger)} {v : Sighting} {r : List Step × Token} :
    r ∈ (mk ls ns w v).registrations ↔ (∃ l ∈ ls, ([], l.token) = r) ∨
      (∃ key u, (key, u) ∈ ns ∧ ∃ q ∈ u.registrations, under (.key key) q = r) ∨
      ∃ pattern is, w = some (pattern, is) ∧
        ∃ q ∈ pattern.registrations, under .wildcard q = r := by
  rcases w with - | ⟨pattern, is⟩
  · rw [registrations, List.mem_append, List.mem_map, mem_registrationsNamed]
    exact or_congr_right ⟨Or.inl, fun h => h.resolve_right nofun⟩
  · rw [registrations, List.mem_append, List.mem_append, List.mem_map, mem_registrationsNamed,
      List.mem_map, or_assoc]
    refine or_congr_right (or_congr_right ⟨fun h => ⟨pattern, is, rfl, h⟩, ?_⟩)
    rintro ⟨_, _, ⟨⟩, h⟩
    exact h

/-- `registrations` has every path and token with a listener at a place of the path, and nothing
    else. -/
theorem mem_registrations_iff {t : Trigger} (hp : Proper t) {steps : List Step} {token : Token} :
    (steps, token) ∈ t.registrations ↔ ∃ p : Place, p.steps = steps ∧ token ∈ t.tokensAt p := by
  induction hp generalizing steps with
  | @mk ls ns w v named each instances pattern blank instanceOf alike ihe ihp ihi =>
    have hproper : Proper (mk ls ns w v) :=
      .mk named each instances pattern blank instanceOf alike
    -- The three kinds of registrations belong to the empty place, to a named branch and to a
    -- wildcard.
    rw [mem_registrations_mk]
    constructor
    · rintro (⟨l, hl, he⟩ | ⟨key, u, hu, ⟨s, t⟩, hq, he⟩ | ⟨pat, is, hw, ⟨s, t⟩, hq, he⟩)
      · cases he
        exact ⟨[], rfl, List.mem_map_of_mem hl⟩
      · cases he
        have hget := Dict.get?_of_mem named.nodup_keys hu
        obtain ⟨p, rfl, ht⟩ := (ihe key u hget).1 hq
        refine ⟨.named key :: p, rfl, ?_⟩
        rwa [tokensAt, place_cons, branch, hget]
      · cases he
        obtain ⟨p, rfl, ht⟩ := (ihp pat is hw).1 hq
        -- Any key will do: its branch has the listeners of the pattern.
        refine ⟨.wild "" :: p, rfl, ?_⟩
        rw [hproper.alike_branch hw "" p] at ht
        exact ht
    · rintro ⟨p, rfl, ht⟩
      cases p with
      | nil =>
        obtain ⟨l, hl, rfl⟩ := List.mem_map.1 ht
        exact .inl ⟨l, hl, rfl⟩
      | cons b p =>
        cases b with
        | named key =>
          rw [tokensAt, place_cons, branch] at ht
          cases hk : Dict.get? ns key with
          | none =>
            rw [hk, Option.getD_none, place_empty] at ht
            cases ht
          | some u =>
            rw [hk] at ht
            exact .inr (.inl ⟨key, u, Dict.mem_of_get? hk, _, (ihe key u hk).2 ⟨p, rfl, ht⟩, rfl⟩)
        | wild key =>
          rcases w with - | ⟨pat, is⟩
          · rw [tokensAt, place_cons, branch, place_empty] at ht
            cases ht
          · have halike := hproper.alike_branch rfl key p
            have hmem : token ∈ pat.tokensAt p := halike ▸ ht
            exact .inr (.inr ⟨pat, is, rfl, _, (ihp pat is rfl).2 ⟨p, rfl, hmem⟩, rfl⟩)

theorem nodup_map_under {step : Step} {rs : List (List Step × Token)} (h : rs.Nodup) :
    (rs.map (under step)).Nodup := by
  refine List.pairwise_map.2 (h.imp ?_)
  intro q r hne he
  exact hne (under_inj.1 he).2

theorem nodup_registrationsNamed {ns : Dict Trigger} (hn : (Dict.keys ns).Nodup)
    (h : ∀ key u, (key, u) ∈ ns → u.registrations.Nodup) : (registrationsNamed ns).Nodup := by
  induction ns with
  | nil =>
    rw [registrationsNamed]
    exact List.nodup_nil
  | cons p rest ih =>
    obtain ⟨key, u⟩ := p
    obtain ⟨hkey, hrest⟩ := List.nodup_cons.1 hn
    rw [registrationsNamed, List.nodup_append]
    refine ⟨nodup_map_under (h key u List.mem_cons_self),
      ih hrest fun k t ht => h k t (List.mem_cons_of_mem _ ht), ?_⟩
    -- Registrations in different branches differ in their first step.
    rintro r hr s hs rfl
    obtain ⟨q, -, rfl⟩ := List.mem_map.1 hr
    obtain ⟨k, t, ht, q', -, he⟩ := mem_registrationsNamed.1 hs
    cases (under_inj.1 he).1
    exact hkey (List.mem_map.2 ⟨(key, t), ht, rfl⟩)

/-- If no place has a token twice, then no registration is read twice. -/
theorem nodup_registrations {t : Trigger} (hp : Proper t) (h : ∀ p, (t.tokensAt p).Nodup) :
    t.registrations.Nodup := by
  induction hp with
  | @mk ls ns w v named each instances pattern blank instanceOf alike ihe ihp ihi =>
    have hproper : Proper (mk ls ns w v) :=
      .mk named each instances pattern blank instanceOf alike
    have hhere : (ls.map fun l => (([], l.token) : List Step × Token)).Nodup := by
      have htokens : (ls.map Listener.token).Nodup := h []
      refine List.pairwise_map.2 ((List.pairwise_map.1 htokens).imp ?_)
      intro l l' hne he
      exact hne (congrArg Prod.snd he)
    have hnamed : (registrationsNamed ns).Nodup := by
      refine nodup_registrationsNamed named.nodup_keys fun key u hu => ?_
      have hget := Dict.get?_of_mem named.nodup_keys hu
      refine ihe key u hget fun p => ?_
      have hplace := h (.named key :: p)
      rwa [tokensAt, place_cons, branch, hget] at hplace
    -- What ends here has no steps, and a first step is a key or a wildcard.
    have hboth : ((ls.map fun l => (([], l.token) : List Step × Token)) ++
        registrationsNamed ns).Nodup := by
      refine List.nodup_append.2 ⟨hhere, hnamed, ?_⟩
      rintro r hr s hs rfl
      obtain ⟨l, -, rfl⟩ := List.mem_map.1 hr
      obtain ⟨key, u, -, q, -, he⟩ := mem_registrationsNamed.1 hs
      cases he
    rcases w with - | ⟨pat, is⟩
    · rwa [registrations]
    · rw [registrations, List.nodup_append]
      refine ⟨hboth, nodup_map_under (ihp pat is rfl fun p => ?_), ?_⟩
      · rw [hproper.alike_branch rfl "" p]
        exact h (.wild "" :: p)
      · rintro r hr s hs rfl
        obtain ⟨q, -, rfl⟩ := List.mem_map.1 hs
        rcases List.mem_append.1 hr with hr | hr
        · obtain ⟨l, -, he⟩ := List.mem_map.1 hr
          cases he
        · obtain ⟨key, u, -, q', -, he⟩ := mem_registrationsNamed.1 hr
          cases he

/-- `Alike` tries have the same registrations. -/
theorem Alike.mem_registrations_iff {t u : Trigger} (h : Alike t u) (ht : Proper t)
    (hu : Proper u) {r : List Step × Token} : r ∈ t.registrations ↔ r ∈ u.registrations := by
  obtain ⟨steps, token⟩ := r
  rw [Trigger.mem_registrations_iff ht, Trigger.mem_registrations_iff hu]
  simp only [h _]

/-- A `Full` trie in which nobody listens consists of its root alone. -/
theorem Full.nodeCount_eq_one {t : Trigger} (h : t.Full) (hp : Proper t)
    (hnone : ∀ p, t.tokensAt p = []) : t.nodeCount = 1 := by
  have hempty : t.isEmpty = true := by
    rw [← Bool.not_eq_false]
    intro hne
    obtain ⟨p, token, ht⟩ := Occupied.exists_mem_tokensAt ⟨hne, h⟩ hp
    rw [hnone p] at ht
    cases ht
  obtain ⟨ls, ns, w, v⟩ := t
  rw [isEmpty, Bool.and_eq_true, Bool.and_eq_true, List.isEmpty_iff, List.isEmpty_iff,
    Option.isNone_iff_eq_none] at hempty
  obtain ⟨⟨rfl, rfl⟩, rfl⟩ := hempty
  rfl

/-! ### Several paths of one token -/

/-- Any number of registrations keeps a trie `Full`. -/
theorem full_insertAll (token : Token) (paths : List (List Step)) (data : Option Node)
    {t : Trigger} (h : t.Full) : (insertAll token paths data t).Full := by
  induction paths generalizing t with
  | nil => exact h
  | cons steps rest ih => exact ih (full_insert token steps data h)

/-- If a new token is registered once for each of its paths, then no place has a token twice. -/
theorem nodup_insertAll {token : Token} {paths : List (List Step)} {data : Option Node}
    {t : Trigger} (hpaths : paths.Nodup)
    (hnew : ∀ p : Place, p.steps ∈ paths → token ∉ t.tokensAt p)
    (h : ∀ p, (t.tokensAt p).Nodup) (p : Place) :
    ((insertAll token paths data t).tokensAt p).Nodup := by
  induction paths generalizing t with
  | nil => exact h p
  | cons steps rest ih =>
    obtain ⟨hsteps, hrest⟩ := List.nodup_cons.1 hpaths
    -- No other path is the first one, so the token is still new at their places.
    refine ih hrest ?_ ?_
    · intro q hq
      have hne : q.steps ≠ steps := by
        rintro rfl
        exact hsteps hq
      rw [tokensAt_insert, if_neg hne, List.append_nil]
      exact hnew q (List.mem_cons_of_mem _ hq)
    · intro q
      rw [tokensAt_insert]
      split
      · next he =>
        have hq := hnew q (he ▸ List.mem_cons_self)
        refine List.nodup_append.2 ⟨h q, List.pairwise_singleton _ _, ?_⟩
        rintro u hu v hv rfl
        exact hq (List.mem_singleton.1 hv ▸ hu)
      · rw [List.append_nil]
        exact h q

end Trigger

end Observatory
