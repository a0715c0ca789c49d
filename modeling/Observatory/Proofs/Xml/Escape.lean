import Observatory.Xml.Reference

/-!
# What a reader makes of an escaped text

Every character that could be taken for markup is escaped, and comes back as it was.  White space
is not escaped, and a reader changes some of it: in an attribute tabs and line ends become spaces,
and in a text carriage returns become line feeds.

* `Xml.pieces?_escape`: the pieces of an escaped text;
* `Xml.spaced`, `Xml.attributeValue?_escape`: an attribute value as it is read;
* `Xml.lined`, `Xml.textValue?_escape`: a text as it is read;
* `Xml.spaced_eq_self`, `Xml.Stays`, `Xml.lined_eq_self`: what is read as it was.
-/

namespace Observatory

namespace Xml

/-! ### Pieces -/

/-- Whether a character is one of the five that `escape` writes as a reference. -/
def isMarkup (c : Char) : Bool := c ∈ ['&', '<', '>', '"', '\'']

/-- The `Piece` that a reader finds where `escapeChar c` stands: a reference for markup, the plain
    character otherwise. -/
def piece (c : Char) : Piece := if isMarkup c then .reference c else .plain c

/-- A character that is no markup is written as it is. -/
theorem escapeChar_of_not_markup {c : Char} (h : isMarkup c = false) : escapeChar c = [c] := by
  unfold escapeChar
  split
  case h_6 => rfl
  all_goals exact absurd h (by decide)

/-- An escaped text holds neither angle brackets nor quotes, so that it ends no tag, no attribute
    value and no text. -/
theorem not_mem_escape {c : Char} (h : c ∈ ['<', '>', '"', '\'']) (cs : List Char) :
    c ∉ escape cs := by
  rw [escape, List.mem_flatMap]
  rintro ⟨d, -, hd⟩
  simp only [List.mem_cons, List.not_mem_nil, or_false] at h
  unfold escapeChar at hd
  split at hd
  case h_6 =>
    obtain rfl := List.mem_singleton.1 hd
    simp_all
  all_goals
    rcases h with rfl | rfl | rfl | rfl <;> exact absurd hd (by decide)

/-- Only the empty text is escaped to nothing, since every character is written as at least one. -/
theorem escape_eq_nil {cs : List Char} : escape cs = [] ↔ cs = [] := by
  cases cs with
  | nil => exact iff_of_true rfl rfl
  | cons c cs =>
    refine iff_of_false (fun h => ?_) nofun
    have hchar := (List.append_eq_nil_iff.1 (List.flatMap_cons.symm.trans h)).1
    unfold escapeChar at hchar
    split at hchar <;> cases hchar

/-- In front of any rest, the reader takes `escapeChar c` for the one piece `piece c`.  This is the
    step for `pieces?_escape`. -/
theorem piecesFrom?_escapeChar (c : Char) (rest : List Char) :
    piecesFrom? none (escapeChar c ++ rest) = (piecesFrom? none rest).map (piece c :: ·) := by
  by_cases hmarkup : isMarkup c = true
  · have hc := hmarkup
    simp only [isMarkup, List.mem_cons, List.not_mem_nil, or_false, decide_eq_true_eq] at hc
    -- A reference is read up to its semicolon.
    rcases hc with rfl | rfl | rfl | rfl | rfl <;>
      simp [escapeChar, piecesFrom?, resolve?, piece, isMarkup] <;>
      cases piecesFrom? none rest <;> rfl
  · have hplain := Bool.eq_false_iff.2 hmarkup
    have hand : c ≠ '&' := by
      rintro rfl
      exact hmarkup (by decide)
    rw [escapeChar_of_not_markup hplain, List.singleton_append, piecesFrom?, if_neg hand, piece,
      if_neg hmarkup]

/-- **Escaping is undone piece by piece.** An escaped text is read as one piece for each of its
    characters, by induction on the characters. -/
theorem pieces?_escape (cs : List Char) : pieces? (escape cs) = some (cs.map piece) := by
  rw [pieces?]
  induction cs with
  | nil => rfl
  | cons c cs ih =>
    rw [escape, List.flatMap_cons, ← escape, piecesFrom?_escapeChar, ih, Option.map_some,
      List.map_cons]

/-- `escape` neither adds nor removes a character that a document may not hold. -/
theorem all_isAllowed_escape (cs : List Char) :
    (escape cs).all isAllowed = cs.all isAllowed := by
  have hchar : ∀ c, (escapeChar c).all isAllowed = isAllowed c := by
    intro c
    unfold escapeChar
    split
    case h_6 => simp
    all_goals decide
  rw [escape, List.all_flatMap]
  exact congrArg cs.all (funext hchar)

/-! ### Attribute values -/

/-- An attribute value as a reader normalises it: white space becomes spaces, and a carriage return
    with its line feed becomes one space. -/
def spaced : List Char → List Char
  | [] => []
  | '\r' :: '\n' :: rest => ' ' :: spaced rest
  | c :: rest => (if isSpace c then ' ' else c) :: spaced rest

/-- Normalisation of the pieces of an attribute value is `spaced` of its characters; the cases are
    those of `spaced`. -/
theorem attributeChars_map_piece (cs : List Char) :
    attributeChars (cs.map piece) = spaced cs := by
  induction cs using spaced.induct with
  | case1 => rfl
  | case2 rest ih =>
    rw [spaced, ← ih]
    rfl
  | case3 c rest hpair ih =>
    rw [spaced, List.map_cons, piece, ← ih]
    · split
      · next hmarkup =>
        have hspace : isSpace c = false := by
          simp only [isMarkup, List.mem_cons, List.not_mem_nil, or_false, decide_eq_true_eq]
            at hmarkup
          rcases hmarkup with rfl | rfl | rfl | rfl | rfl <;> decide
        rw [attributeChars, hspace, if_neg Bool.false_ne_true]
      · -- A lone plain character is normalised alone.  The other equation of `attributeChars` would
        -- need a carriage return and a line feed, which `hpair` excludes.
        rw [attributeChars]
        intro rest' hrest hc
        cases rest with
        | nil => cases hrest
        | cons d rest =>
          rw [List.map_cons] at hrest
          have hd := (List.cons.inj hrest).1
          rw [piece] at hd
          split at hd
          · cases hd
          · obtain rfl := Piece.plain.inj hd
            exact hpair rest hc rfl
    · exact hpair

/-- **Attribute values.** What a reader finds in an escaped attribute value is `spaced` of the
    value that was written. -/
theorem attributeValue?_escape (cs : List Char) :
    attributeValue? (escape cs) = some (spaced cs) := by
  rw [attributeValue?, pieces?_escape, Option.map_some, attributeChars_map_piece]

/-- An attribute value is read as it was written if and only if its only white space is spaces. -/
theorem spaced_eq_self {cs : List Char} :
    spaced cs = cs ↔ ∀ c ∈ cs, isSpace c = true → c = ' ' := by
  induction cs using spaced.induct with
  | case1 => exact iff_of_true rfl (List.forall_mem_nil _)
  | case2 rest ih =>
    refine iff_of_false (fun h => ?_) fun h => ?_
    · rw [spaced] at h
      exact absurd (List.cons.inj h).1 (by decide)
    · exact absurd (h '\r' List.mem_cons_self (by decide)) (by decide)
  | case3 c rest hpair ih =>
    rw [spaced, List.cons.injEq, ih, List.forall_mem_cons]
    · refine and_congr_left fun _ => ?_
      cases isSpace c <;> simp [eq_comm]
    · exact hpair

/-! ### Text -/

/-- Whether a carriage return in front of these characters is kept by a reader: the next one is
    escaped, or there is none and an escaped one is directly behind (`behind`). -/
def staysBefore (behind : Bool) : List Char → Bool
  | [] => behind
  | c :: _ => isMarkup c

/-- A text as a reader normalises it, where `behind` says that the character behind was escaped: a
    carriage return with its line feed becomes a line feed, and so does a lone one, unless
    `staysBefore` keeps it. -/
def lined : Bool → List Char → List Char
  | _, [] => []
  | _, '\r' :: '\n' :: rest => '\n' :: lined false rest
  | behind, '\r' :: rest => (if staysBefore behind rest then '\r' else '\n') :: lined false rest
  | _, c :: rest => c :: lined (isMarkup c) rest

/-- A character other than a carriage return is kept by `lined`. -/
theorem lined_of_ne {c : Char} (h : c ≠ '\r') (behind : Bool) (rest : List Char) :
    lined behind (c :: rest) = c :: lined (isMarkup c) rest := by
  rw [lined]
  · rintro rest' rfl
    exact absurd rfl h
  · rintro rfl
    exact absurd rfl h

/-- A carriage return without a line feed is kept or changed as `staysBefore` says. -/
theorem lined_return {rest : List Char} (h : ∀ rest', rest ≠ '\n' :: rest') (behind : Bool) :
    lined behind ('\r' :: rest) =
      (if staysBefore behind rest then '\r' else '\n') :: lined false rest := by
  rw [lined]
  exact fun rest' hrest => h rest' hrest

/-- If there are further characters, `lined` does not depend on what is behind a carriage
    return. -/
theorem lined_return_cons (d : Char) (ds : List Char) :
    lined true ('\r' :: d :: ds) = lined false ('\r' :: d :: ds) := by
  by_cases hd : d = '\n'
  · subst hd
    rfl
  · have hne : ∀ rest, d :: ds ≠ '\n' :: rest := fun _ h => hd (List.cons.inj h).1
    rw [lined_return hne, lined_return hne]
    rfl

section TextChars

variable {c : Char} {done before : List Char} {rest : List Piece}

/-- `textChars` puts a plain character behind what was read, if no carriage return waits there; a
    carriage return at the end of the text becomes a line feed. -/
theorem textChars_plain (h : done.head? ≠ some '\r') (c : Char) (rest : List Piece) :
    textChars done false (.plain c :: rest) =
      textChars ((if c = '\r' && rest.isEmpty then '\n' else c) :: done) false rest := by
  rw [textChars, if_neg Bool.false_ne_true]
  generalize (if c = '\r' && rest.isEmpty then '\n' else c) = last
  dsimp only
  split
  · exact absurd rfl h
  · rfl

/-- `textChars` with a carriage return waiting: it becomes a line feed, and takes a line feed that
    follows with it. -/
theorem textChars_return (before : List Char) (c : Char) (rest : List Piece) :
    textChars ('\r' :: before) false (.plain c :: rest) =
      if c = '\n' then textChars ('\n' :: before) false rest
      else textChars ((if c = '\r' && rest.isEmpty then '\n' else c) :: '\n' :: before) false
        rest := rfl

end TextChars

/-- `textChars` on the pieces of a text is `lined` of its characters.  Both states of the reader
    are needed for the induction: with nothing waiting, and with a carriage return that waits for
    the next character. -/
theorem textChars_map_piece (cs : List Char) :
    (∀ done behind, done.head? ≠ some '\r' →
      textChars done behind (cs.map piece) = done.reverse ++ lined behind cs) ∧
    ∀ before, textChars ('\r' :: before) false (cs.map piece) =
      before.reverse ++ lined true ('\r' :: cs) := by
  induction cs with
  | nil =>
    refine ⟨fun done behind _ => (List.append_nil _).symm, fun before => ?_⟩
    exact List.reverse_cons
  | cons c cs ih =>
    obtain ⟨hsettled, hwaiting⟩ := ih
    -- With the character put, the rest is read behind it.
    have hbehind : ∀ done behind, c ≠ '\r' → textChars (c :: done) behind (cs.map piece) =
        done.reverse ++ c :: lined behind cs := by
      intro done behind hc
      rw [hsettled (c :: done) behind fun h => hc (Option.some.inj h), List.reverse_cons,
        List.append_assoc]
      rfl
    rw [List.map_cons, piece]
    by_cases hmarkup : isMarkup c = true
    · have hc : c ≠ '\r' := by
        rintro rfl
        exact absurd hmarkup (by decide)
      have hfeed : c ≠ '\n' := by
        rintro rfl
        exact absurd hmarkup (by decide)
      -- An escaped character ends the wait: a carriage return that waited in front of it stays.
      rw [if_pos hmarkup]
      refine ⟨fun done behind _ => ?_, fun before => ?_⟩
      · rw [textChars, hbehind _ _ hc, lined_of_ne hc, hmarkup]
      · rw [textChars, hbehind _ _ hc, List.reverse_cons, lined_return (fun _ h => hfeed
          (List.cons.inj h).1), lined_of_ne hc, staysBefore, hmarkup, if_pos rfl, List.append_assoc]
        rfl
    · have hplain := Bool.eq_false_iff.2 hmarkup
      -- A waiting carriage return becomes a line feed, with the next character if that is one.
      have hreturn : c ≠ '\n' → lined true ('\r' :: c :: cs) = '\n' :: lined false (c :: cs) := by
        intro hfeed
        rw [lined_return (fun _ h => hfeed (List.cons.inj h).1), staysBefore, hplain,
          if_neg Bool.false_ne_true]
      rw [if_neg hmarkup]
      by_cases hc : c = '\r'
      · subst hc
        have hfeed : '\r' ≠ '\n' := by decide
        -- The carriage return is either the last character or now the one that waits.
        have hlast : ∀ done, textChars ((if '\r' = '\r' && (cs.map piece).isEmpty then '\n'
            else '\r') :: done) false (cs.map piece) =
              done.reverse ++ lined false ('\r' :: cs) := by
          intro done
          cases cs with
          | nil => exact List.reverse_cons
          | cons d ds => exact (hwaiting done).trans (by rw [lined_return_cons])
        refine ⟨fun done behind hdone => ?_, fun before => ?_⟩
        · cases behind with
          | true => rw [textChars, if_pos rfl, hwaiting]
          | false => rw [textChars_plain hdone, hlast]
        · rw [textChars_return, if_neg hfeed, hreturn hfeed, hlast, List.reverse_cons,
            List.append_assoc]
          rfl
      · refine ⟨fun done behind hdone => ?_, fun before => ?_⟩
        · rw [lined_of_ne hc, hplain]
          cases behind with
          | true => rw [textChars, if_pos rfl, hbehind _ _ hc]
          | false => rw [textChars_plain hdone, decide_eq_false hc, Bool.false_and,
              if_neg Bool.false_ne_true, hbehind _ _ hc]
        · rw [textChars_return]
          split
          · next hfeed =>
            subst hfeed
            rw [hbehind _ _ hc, lined]
          · next hfeed =>
            rw [hreturn hfeed, decide_eq_false hc, Bool.false_and, if_neg Bool.false_ne_true,
              hbehind _ _ hc, List.reverse_cons, List.append_assoc, lined_of_ne hc, hplain]
            rfl

/-- Every carriage return in a text is one that a reader keeps (`staysBefore`). -/
def Stays : Bool → List Char → Prop
  | _, [] => True
  | behind, c :: rest => (c = '\r' → staysBefore behind rest = true) ∧ Stays (isMarkup c) rest

/-- A text is read as it was written if and only if every carriage return in it `Stays`. -/
theorem lined_eq_self {behind : Bool} {cs : List Char} :
    lined behind cs = cs ↔ Stays behind cs := by
  -- Along the reading; the cases are a carriage return in front of a line feed, one alone, and any
  -- other character.
  induction behind, cs using lined.induct with
  | case1 => exact iff_of_true rfl trivial
  | case2 behind rest ih =>
    refine iff_of_false (fun h => ?_) fun h => ?_
    · exact absurd (List.cons.inj h).1 (by decide)
    · have hfeed : isMarkup '\n' = true := h.1 rfl
      exact absurd hfeed (by decide)
  | case3 behind rest hrest ih =>
    rw [lined_return (fun rest' h => hrest rest' h), List.cons.injEq, ih, Stays]
    refine and_congr_left fun _ => ?_
    cases staysBefore behind rest <;> simp
  | case4 behind c rest hpair hreturn ih =>
    have hc : c ≠ '\r' := hreturn
    rw [lined_of_ne hc, List.cons.injEq, ih, Stays]
    exact and_congr_left fun _ => iff_of_true rfl fun h => absurd h hc

/-- **Texts.** What a reader finds in an escaped text is `lined` of the text that was written. -/
theorem textValue?_escape (cs : List Char) : textValue? (escape cs) = some (lined false cs) := by
  rw [textValue?, pieces?_escape, Option.map_some, (textChars_map_piece cs).1 [] false nofun]
  rfl

end Xml

end Observatory
