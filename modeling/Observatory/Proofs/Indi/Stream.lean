import Observatory.Proofs.Indi.Chunks
import Observatory.Proofs.Text.Utf8

/-!
# Well-formed streams

A well-formed stream opens as many elements as the message level says, and then has one element
after the other, with text, comments and processing instructions around them.  A framer hands
out just these elements.

* `XmlStream.Run`, `XmlStream.Skipped`, `XmlStream.Filler`: what stands between tags;
* `XmlStream.TagText`: a name with attributes, as it stands between the brackets of a tag;
* `XmlStream.Element`, `XmlStream.Content`: elements and what is in them;
* `XmlStream`: the elements of a stream and what stands around them;
* `Tag.next?_opening` and its companions: every piece of markup is recognised as a whole;
* `Framer.next_content`, `Framer.next_message`: what a call makes of an element beneath the message
  level, and at it;
* `Framer.reads_stream`: the messages of a stream are its elements.
-/

namespace Observatory

/-! ### The grammar -/

namespace XmlStream

/-- The white space of markup. -/
def blanks : List UInt8 := asciiBytes [' ', '\t', '\n', '\r']

/-- The bytes that stand in no name. -/
def nameEnds : List UInt8 := blanks ++ asciiBytes ['<', '>', '/', '=', '"', '\'', '!', '?']

/-- Text between tags: bytes without the opener of a tag. -/
structure Run where
  bytes : List UInt8
  plain : Tag.opener ∉ bytes

/-- White space inside a tag, possibly none. -/
structure Space where
  bytes : List UInt8
  blank : ∀ b ∈ bytes, b ∈ blanks

/-- The name of an element or of an attribute: not empty, and without a byte of `nameEnds`. -/
structure Name where
  first : UInt8
  others : List UInt8
  proper : ∀ b ∈ first :: others, b ∉ nameEnds

/-- A comment, a CDATA section or a processing instruction.  Its content is everything up to the
    first terminator, and may look like tags. -/
structure Skipped where
  opening : List UInt8
  closing : List UInt8
  content : List UInt8
  kind : (opening, closing) ∈ Tag.skipped
  ends : ¬ closing <:+: content

/-- An attribute with the space in front of it.  Its value stands in quotes of one kind, and may
    hold anything but them. -/
structure Attribute where
  before : Space
  name : Name
  beforeSign : Space
  afterSign : Space
  quote : UInt8
  value : List UInt8
  quoting : quote ∈ asciiBytes ['"', '\'']
  quoted : quote ∉ value

/-- A name with its attributes. -/
structure TagText where
  name : Name
  attributes : List Attribute
  after : Space

/-- What may stand between tags: text, or markup that is stepped over. -/
inductive Filler where
  | text (run : Run)
  | skipped (markup : Skipped)

mutual

/-- An element: a tag that closes itself, or an opening tag and a closing tag with something
    between them. -/
inductive Element where
  | empty (tag : TagText)
  | full (tag : TagText) (inside : Content) (after : Space)

/-- What stands in an element. -/
inductive Content where
  | nothing
  | filler (f : Filler) (rest : Content)
  | element (e : Element) (rest : Content)

end

/-! ### The bytes of a stream -/

/-- The bytes of a name. -/
def Name.bytes (n : Name) : List UInt8 := n.first :: n.others

/-- The bytes of a piece of markup that is stepped over. -/
def Skipped.bytes (s : Skipped) : List UInt8 := s.opening ++ (s.content ++ s.closing)

/-- The bytes of an attribute. -/
def Attribute.bytes (a : Attribute) : List UInt8 :=
  a.before.bytes ++ a.name.bytes ++ a.beforeSign.bytes ++ asciiBytes ['='] ++ a.afterSign.bytes ++
    ([a.quote] ++ a.value ++ [a.quote])

/-- The bytes of a name with its attributes. -/
def TagText.bytes (t : TagText) : List UInt8 :=
  t.name.bytes ++ t.attributes.flatMap Attribute.bytes ++ t.after.bytes

/-- An opening tag. -/
def TagText.opening (t : TagText) : List UInt8 := asciiBytes ['<'] ++ t.bytes ++ asciiBytes ['>']

/-- A tag that closes itself. -/
def TagText.closed (t : TagText) : List UInt8 :=
  asciiBytes ['<'] ++ t.bytes ++ asciiBytes ['/', '>']

/-- The closing tag of an element. -/
def TagText.closing (t : TagText) (after : Space) : List UInt8 :=
  asciiBytes ['<', '/'] ++ (t.name.bytes ++ after.bytes) ++ asciiBytes ['>']

/-- The bytes between two tags. -/
def Filler.bytes : Filler → List UInt8
  | text run => run.bytes
  | skipped markup => markup.bytes

mutual

/-- The bytes of an element. -/
def Element.bytes : Element → List UInt8
  | .empty tag => tag.closed
  | .full tag inside after => tag.opening ++ inside.bytes ++ tag.closing after

/-- The bytes in an element. -/
def Content.bytes : Content → List UInt8
  | .nothing => []
  | .filler f rest => f.bytes ++ rest.bytes
  | .element e rest => e.bytes ++ rest.bytes

end

end XmlStream

/-- A stream: the opening tags down to the message level, the elements that are messages, each with
    what stands before it, and what stands at the end. -/
structure XmlStream where
  roots : List (List XmlStream.Filler × XmlStream.TagText)
  messages : List (List XmlStream.Filler × XmlStream.Element)
  tail : List XmlStream.Filler

namespace XmlStream

/-- The bytes of several fillers. -/
def fill (fillers : List Filler) : List UInt8 := fillers.flatMap Filler.bytes

/-- The bytes of some opening tags, each with what stands before it. -/
def rootBytes (roots : List (List Filler × TagText)) : List UInt8 :=
  roots.flatMap fun r => fill r.1 ++ r.2.opening

/-- The bytes of some elements, each with what stands before it. -/
def messageBytes (messages : List (List Filler × Element)) : List UInt8 :=
  messages.flatMap fun m => fill m.1 ++ m.2.bytes

/-- The bytes of a stream. -/
def bytes (s : XmlStream) : List UInt8 :=
  rootBytes s.roots ++ (messageBytes s.messages ++ fill s.tail)

end XmlStream

/-! ### Recognising markup -/

namespace Tag

open XmlStream

/-- Bytes that leave a tag open: `splitTag?`, outside of quotes, steps over them and looks for the
    bracket behind them. -/
def Passes (bytes : List UInt8) : Prop :=
  ∀ rest, splitTag? none (bytes ++ rest) = (splitTag? none rest).map fun p => (bytes ++ p.1, p.2)

theorem passes_nil : Passes [] := by
  intro rest
  cases h : splitTag? none rest <;> simp [h]

/-- `Passes` is closed under concatenation. -/
theorem Passes.append {a b : List UInt8} (ha : Passes a) (hb : Passes b) : Passes (a ++ b) := by
  intro rest
  rw [List.append_assoc, ha, hb, Option.map_map]
  congr 1
  funext p
  simp

/-- `Passes` is closed under the concatenation of several parts. -/
theorem passes_flatMap {α : Type} {f : α → List UInt8} (h : ∀ a, Passes (f a)) (l : List α) :
    Passes (l.flatMap f) := by
  induction l with
  | nil => exact passes_nil
  | cons a l ih => exact (h a).append ih

/-- A single byte `Passes` if it is neither a quote nor the closing bracket. -/
theorem passes_byte {b : UInt8} (h : b ∉ asciiBytes ['>', '"', '\'']) : Passes [b] := by
  intro rest
  have hplain : b ≠ 0x3E ∧ ¬(b = 0x22 ∨ b = 0x27) := by
    simp [asciiBytes] at h
    exact ⟨h.1, by simpa using h.2⟩
  rw [List.singleton_append, splitTag?, if_neg hplain.1, if_neg hplain.2]
  rfl

/-- Bytes without quotes and closing brackets pass. -/
theorem passes_of_plain {bytes : List UInt8}
    (h : ∀ b ∈ bytes, b ∉ asciiBytes ['>', '"', '\'']) : Passes bytes := by
  induction bytes with
  | nil => exact passes_nil
  | cons b bytes ih =>
    have hrest : Passes bytes := ih fun c hc => h c (List.mem_cons_of_mem _ hc)
    exact (passes_byte (h b List.mem_cons_self)).append hrest

/-- Inside of quotes, `splitTag?` steps over everything up to the quote of the same kind. -/
theorem splitTag?_quoted {q : UInt8} {value : List UInt8} (h : q ∉ value) (rest : List UInt8) :
    splitTag? (some q) (value ++ q :: rest) =
      (splitTag? none rest).map fun p => (value ++ q :: p.1, p.2) := by
  induction value with
  | nil => simp [splitTag?]
  | cons b value ih =>
    have hb : ¬b = q := fun he => h (he ▸ List.mem_cons_self)
    have hvalue : q ∉ value := fun hm => h (List.mem_cons_of_mem _ hm)
    rw [List.cons_append, splitTag?, if_neg hb, ih hvalue, Option.map_map]
    rfl

/-- A quoted value passes, whatever is in it besides the quote. -/
theorem passes_quoted {q : UInt8} {value : List UInt8} (hq : q ∈ asciiBytes ['"', '\''])
    (h : q ∉ value) : Passes ([q] ++ value ++ [q]) := by
  intro rest
  have hquote : q ≠ 0x3E ∧ (q = 0x22 ∨ q = 0x27) := by
    simp [asciiBytes] at hq
    rcases hq with rfl | rfl <;> decide
  simp only [List.cons_append, List.nil_append, List.append_assoc]
  rw [splitTag?, if_neg hquote.1, if_pos hquote.2, splitTag?_quoted h, Option.map_map]
  rfl

/-- A name holds neither quotes nor a closing bracket. -/
theorem plain_of_name (n : Name) : ∀ b ∈ n.bytes, b ∉ asciiBytes ['>', '"', '\''] := by
  intro b hb hmem
  refine n.proper b hb ?_
  revert hmem
  simp [asciiBytes, nameEnds]
  rintro (rfl | rfl | rfl) <;> simp

/-- White space holds neither quotes nor a closing bracket. -/
theorem plain_of_space (s : Space) : ∀ b ∈ s.bytes, b ∉ asciiBytes ['>', '"', '\''] := by
  intro b hb hmem
  have hblank := s.blank b hb
  revert hmem hblank
  simp [asciiBytes, blanks]
  rintro (rfl | rfl | rfl) <;> simp

theorem passes_name (n : Name) : Passes n.bytes := passes_of_plain (plain_of_name n)

theorem passes_space (s : Space) : Passes s.bytes := passes_of_plain (plain_of_space s)

/-- An attribute passes: its name, the sign and the white space are plain, and its value is
    quoted. -/
theorem passes_attribute (a : Attribute) : Passes a.bytes := by
  have hsign : Passes (asciiBytes ['=']) := passes_byte (by decide)
  exact ((((passes_space a.before).append (passes_name a.name)).append
    (passes_space a.beforeSign)).append hsign).append (passes_space a.afterSign) |>.append
      (passes_quoted a.quoting a.quoted)

/-- What stands between the brackets of an opening tag passes. -/
theorem passes_tagText (t : TagText) : Passes t.bytes :=
  ((passes_name t.name).append (passes_flatMap passes_attribute t.attributes)).append
    (passes_space t.after)

/-- If `bytes` pass, the bracket behind them is the one that `splitTag?` finds. -/
theorem Passes.splitTag? {bytes : List UInt8} (h : Passes bytes) (rest : List UInt8) :
    splitTag? none (bytes ++ asciiBytes ['>'] ++ rest) =
      some (bytes ++ asciiBytes ['>'], rest) := by
  rw [List.append_assoc, h]
  rfl

/-- The last byte, if there is one, is no slash, so that a bracket behind these bytes does not make
    a tag that closes itself. -/
def Unslashed (bytes : List UInt8) : Prop := bytes.getLast? ≠ some 0x2F

theorem unslashed_byte {b : UInt8} (h : b ≠ 0x2F) : Unslashed [b] := by
  simpa [Unslashed] using h

theorem unslashed_of_forall {bytes : List UInt8} (h : ∀ b ∈ bytes, b ≠ 0x2F) : Unslashed bytes :=
  fun hlast => h _ (List.mem_of_getLast? hlast) rfl

theorem Unslashed.append {a b : List UInt8} (ha : Unslashed a) (hb : Unslashed b) :
    Unslashed (a ++ b) := by
  rw [Unslashed, List.getLast?_append]
  cases h : b.getLast? with
  | none => simpa [h, Unslashed] using ha
  | some c => simpa [Unslashed, h] using hb

theorem unslashed_flatMap {α : Type} {f : α → List UInt8} (h : ∀ a, Unslashed (f a))
    (l : List α) : Unslashed (l.flatMap f) := by
  induction l with
  | nil => exact unslashed_of_forall nofun
  | cons a l ih => exact (h a).append ih

theorem unslashed_name (n : Name) : Unslashed n.bytes := by
  refine unslashed_of_forall fun b hb he => n.proper b hb ?_
  rw [he]
  decide

theorem unslashed_space (s : Space) : Unslashed s.bytes := by
  refine unslashed_of_forall fun b hb he => ?_
  have hblank := s.blank b hb
  rw [he] at hblank
  exact absurd hblank (by decide)

/-- An attribute ends with its quote, hence with no slash. -/
theorem unslashed_attribute (a : Attribute) : Unslashed a.bytes := by
  have hquote : a.quote ≠ 0x2F := by
    intro he
    exact absurd (he ▸ a.quoting) (by decide)
  have hlast : a.bytes.getLast? = some a.quote := by
    rw [Attribute.bytes, ← List.append_assoc, List.getLast?_concat]
  rw [Unslashed, hlast]
  simpa using hquote

theorem unslashed_tagText (t : TagText) : Unslashed t.bytes :=
  ((unslashed_name t.name).append (unslashed_flatMap unslashed_attribute t.attributes)).append
    (unslashed_space t.after)

/-- `Unslashed` bytes with a bracket behind them do not end with `/>`. -/
theorem Unslashed.not_isSuffixOf {bytes : List UInt8} (h : Unslashed bytes) :
    (asciiBytes ['/', '>']).isSuffixOf (bytes ++ asciiBytes ['>']) = false := by
  rw [Bool.eq_false_iff, ne_eq, List.isSuffixOf_iff_suffix]
  rintro ⟨front, he⟩
  have hslash : front ++ asciiBytes ['/'] ++ asciiBytes ['>'] = bytes ++ asciiBytes ['>'] := by
    rw [← he, List.append_assoc]
    rfl
  refine h ?_
  rw [← List.append_cancel_right hslash, List.getLast?_append]
  rfl

/-- Markup that `scan?` finds at an opener is what `next?` finds, with nothing in its gap. -/
theorem next?_of_scan? {bytes body rest : List UInt8} {kind : Markup}
    (h : scan? skipped bytes = some (kind, body, rest)) (hb : bytes.head? = some opener) :
    next? bytes = some ⟨[], kind, body, rest⟩ := by
  cases bytes with
  | nil => cases hb
  | cons b bytes =>
    obtain rfl : b = opener := by simpa using hb
    rw [next?, List.dropWhile_cons_of_neg (by simp), List.takeWhile_cons_of_neg (by simp), h]
    rfl

/-- Where the opener is followed neither by `!` nor by `?`, `scan?` takes what follows for a
    tag. -/
theorem scan?_tag {b : UInt8} (hmark : b ≠ 0x21) (hask : b ≠ 0x3F) (bytes : List UInt8) :
    scan? skipped (opener :: b :: bytes) = (splitTag? none (b :: bytes)).map fun p =>
      (kindOf (opener :: p.1), opener :: p.1, p.2) := by
  have hopener : opener = 0x3C := rfl
  have hmark' : ¬ (0x21 : UInt8) = b := fun h => hmark h.symm
  have hask' : ¬ (0x3F : UInt8) = b := fun h => hask h.symm
  simp +arith [scan?, skipped, asciiBytes, hopener, List.isPrefixOf, hmark, hmark', hask']

/-- A tag whose text passes is found as a whole, up to its closing bracket. -/
theorem next?_tag {b : UInt8} {bytes : List UInt8} (hp : Passes (b :: bytes)) (hmark : b ≠ 0x21)
    (hask : b ≠ 0x3F) (rest : List UInt8) :
    next? (asciiBytes ['<'] ++ (b :: bytes) ++ asciiBytes ['>'] ++ rest) =
      some ⟨[], kindOf (asciiBytes ['<'] ++ (b :: bytes) ++ asciiBytes ['>']),
        asciiBytes ['<'] ++ (b :: bytes) ++ asciiBytes ['>'], rest⟩ := by
  refine next?_of_scan? ?_ rfl
  have hsplit := hp.splitTag? rest
  simp only [List.append_assoc, List.cons_append] at hsplit
  have hscan := scan?_tag hmark hask (bytes ++ (asciiBytes ['>'] ++ rest))
  rw [hsplit] at hscan
  simpa [asciiBytes, opener] using hscan

/-- A tag that begins with a name closes itself if it ends with `/>`, and is an opening tag
    otherwise. -/
theorem kindOf_name {b : UInt8} {bytes : List UInt8} (hmark : b ≠ 0x21) (hslash : b ≠ 0x2F) :
    kindOf (asciiBytes ['<'] ++ (b :: bytes) ++ asciiBytes ['>']) =
      if (asciiBytes ['/', '>']).isSuffixOf (asciiBytes ['<'] ++ (b :: bytes) ++ asciiBytes ['>'])
      then .selfClosing else .openTag := by
  have hmark' : ¬ (0x21 : UInt8) = b := fun h => hmark h.symm
  have hslash' : ¬ (0x2F : UInt8) = b := fun h => hslash h.symm
  rw [kindOf, if_neg (by simp [asciiBytes, List.isPrefixOf, hmark']),
    if_neg (by simp [asciiBytes, List.isPrefixOf, hslash'])]

/-- The first byte of a name is none of `!`, `?` and `/`. -/
theorem first_ne (n : Name) : n.first ≠ 0x21 ∧ n.first ≠ 0x3F ∧ n.first ≠ 0x2F := by
  have hfirst := n.proper n.first List.mem_cons_self
  refine ⟨?_, ?_, ?_⟩ <;> intro he <;> rw [he] at hfirst <;> exact hfirst (by decide)

/-- The text of a tag, with the first byte of its name in front. -/
theorem tagText_bytes (t : TagText) : t.bytes =
    t.name.first :: (t.name.others ++ t.attributes.flatMap Attribute.bytes ++ t.after.bytes) := rfl

/-- `next?` finds an opening tag of the grammar as one piece of markup of that kind. -/
theorem next?_opening (t : TagText) (rest : List UInt8) :
    next? (t.opening ++ rest) = some ⟨[], .openTag, t.opening, rest⟩ := by
  obtain ⟨hmark, hask, hslash⟩ := first_ne t.name
  have hpasses := passes_tagText t
  have hsuffix : (asciiBytes ['/', '>']).isSuffixOf t.opening = false :=
    ((unslashed_byte (by decide)).append (unslashed_tagText t)).not_isSuffixOf
  rw [tagText_bytes] at hpasses
  have htag := next?_tag hpasses hmark hask rest
  rw [kindOf_name hmark hslash, ← tagText_bytes] at htag
  change next? (t.opening ++ rest) = some ⟨[], if (asciiBytes ['/', '>']).isSuffixOf t.opening
    then .selfClosing else .openTag, t.opening, rest⟩ at htag
  rw [htag, hsuffix]
  rfl

/-- `next?` finds a tag that closes itself as one piece of markup of that kind. -/
theorem next?_closed (t : TagText) (rest : List UInt8) :
    next? (t.closed ++ rest) = some ⟨[], .selfClosing, t.closed, rest⟩ := by
  obtain ⟨hmark, hask, hslash⟩ := first_ne t.name
  have hpasses : Passes (t.bytes ++ asciiBytes ['/']) :=
    (passes_tagText t).append (passes_byte (by decide))
  have hclosed :
      t.closed = asciiBytes ['<'] ++ (t.bytes ++ asciiBytes ['/']) ++ asciiBytes ['>'] := by
    simp [TagText.closed, asciiBytes]
  have hsuffix : (asciiBytes ['/', '>']).isSuffixOf t.closed = true := by
    rw [List.isSuffixOf_iff_suffix]
    exact List.suffix_append _ _
  rw [tagText_bytes, List.cons_append] at hpasses hclosed
  have htag := next?_tag hpasses hmark hask rest
  rw [kindOf_name hmark hslash, ← hclosed, hsuffix] at htag
  exact htag

/-- `next?` finds a closing tag as one piece of markup of that kind. -/
theorem next?_closing (t : TagText) (after : Space) (rest : List UInt8) :
    next? (t.closing after ++ rest) = some ⟨[], .closeTag, t.closing after, rest⟩ := by
  have hpasses : Passes (0x2F :: (t.name.bytes ++ after.bytes)) :=
    Passes.append (a := [0x2F]) (passes_byte (by decide))
      ((passes_name t.name).append (passes_space after))
  exact next?_tag hpasses (by decide) (by decide) rest

/-- A terminator whose last byte does not occur in the rest of it begins nowhere in front of the
    place where it is put, not even across the end of the content. -/
theorem not_prefix_terminated {front : List UInt8} {last b : UInt8} (hlast : last ∉ front)
    {content : List UInt8} (h : ¬ front ++ [last] <:+: b :: content) (rest : List UInt8) :
    ¬ front ++ [last] <+: b :: content ++ (front ++ [last]) ++ rest := by
  intro hp
  have hcontent : b :: content <+: b :: content ++ (front ++ [last]) ++ rest := by
    rw [List.append_assoc]
    exact List.prefix_append _ _
  by_cases hlen : (front ++ [last]).length ≤ (b :: content).length
  · exact h (List.prefix_of_prefix_length_le hp hcontent hlen).isInfix
  · -- The terminator would reach into its own place, and its last byte would lie in its front.
    obtain ⟨tail, htail⟩ := List.prefix_of_prefix_length_le hcontent hp (by omega)
    have hsum := congrArg List.length htail
    simp only [List.length_append, List.length_cons, List.length_nil] at hsum hlen
    have hmem : last ∈ tail := by
      have hne : tail ≠ [] := by
        rintro rfl
        simp only [List.length_nil] at hsum
        omega
      have hget := congrArg List.getLast? htail
      rw [List.getLast?_append, List.getLast?_concat] at hget
      cases htl : tail.getLast? with
      | none => exact absurd (List.getLast?_eq_none_iff.1 htl) hne
      | some c =>
        obtain rfl : c = last := by simpa [htl] using hget
        exact List.mem_of_getLast? htl
    have htail' : tail <+: front ++ ([last] ++ rest) := by
      have hp' : b :: content ++ tail <+: b :: content ++ (front ++ ([last] ++ rest)) := by
        rw [htail]
        simpa using hp
      rwa [List.prefix_append_right_inj] at hp'
    have hfront : tail <+: front :=
      List.prefix_of_prefix_length_le htail' (List.prefix_append _ _) (by omega)
    exact hlast (hfront.subset hmem)

/-- If the content does not hold the terminator, `splitAfter?` finds it where it is put, by
    induction on the content. -/
theorem splitAfter?_terminated {front : List UInt8} {last : UInt8} (hlast : last ∉ front)
    {content : List UInt8} (h : ¬ front ++ [last] <:+: content) (rest : List UInt8) :
    splitAfter? (front ++ [last]) (content ++ (front ++ [last]) ++ rest) =
      some (content ++ (front ++ [last]), rest) := by
  induction content with
  | nil =>
    have hpre : (front ++ [last]).isPrefixOf (front ++ [last] ++ rest) = true :=
      List.isPrefixOf_iff_prefix.2 (List.prefix_append _ _)
    have hdrop : (front ++ [last] ++ rest).drop (front ++ [last]).length = rest :=
      List.drop_left
    rw [List.nil_append]
    cases hbytes : front ++ [last] ++ rest with
    | nil => simp at hbytes
    | cons b bytes =>
      rw [hbytes] at hpre hdrop
      rw [splitAfter?, if_pos hpre, hdrop]
  | cons b content ih =>
    -- The terminator does not begin earlier: its last byte stands nowhere else in it.
    have hpre :
        (front ++ [last]).isPrefixOf (b :: content ++ (front ++ [last]) ++ rest) = false := by
      rw [Bool.eq_false_iff, ne_eq, List.isPrefixOf_iff_prefix]
      exact not_prefix_terminated hlast h rest
    have hcontent : ¬ front ++ [last] <:+: content := by
      intro hin
      exact h (hin.trans (List.suffix_cons b content).isInfix)
    rw [List.cons_append, List.cons_append] at hpre ⊢
    rw [splitAfter?, hpre, ih hcontent]
    rfl

/-- `scan?` takes what begins with one of the marks of `skipped` for markup that is stepped over up
    to its terminator.  No mark is the beginning of another. -/
theorem scan?_mark {opening closing : List UInt8} (h : (opening, closing) ∈ skipped)
    (bytes : List UInt8) : scan? skipped (opening ++ bytes) =
      (splitAfter? closing bytes).map fun p => (.skip, opening ++ p.1, p.2) := by
  simp only [skipped, List.mem_cons, List.not_mem_nil, or_false, Prod.mk.injEq] at h
  rcases h with ⟨rfl, rfl⟩ | ⟨rfl, rfl⟩ | ⟨rfl, rfl⟩ <;>
    simp +arith [scan?, skipped, asciiBytes, List.isPrefixOf]

/-- Every kind of skipped markup begins with the opener, and its terminator ends with a byte that
    is not in the rest of it. -/
theorem terminator_eq {opening closing : List UInt8} (h : (opening, closing) ∈ skipped) :
    opening.head? = some opener ∧ ∃ front last, closing = front ++ [last] ∧ last ∉ front := by
  simp only [skipped, List.mem_cons, List.not_mem_nil, or_false, Prod.mk.injEq] at h
  rcases h with ⟨rfl, rfl⟩ | ⟨rfl, rfl⟩ | ⟨rfl, rfl⟩
  · exact ⟨rfl, asciiBytes ['-', '-'], 0x3E, rfl, by decide⟩
  · exact ⟨rfl, asciiBytes [']', ']'], 0x3E, rfl, by decide⟩
  · exact ⟨rfl, asciiBytes ['?'], 0x3E, rfl, by decide⟩

/-- `next?` finds a comment, a CDATA section or a processing instruction as one piece of markup
    that is stepped over. -/
theorem next?_skipped (s : Skipped) (rest : List UInt8) :
    next? (s.bytes ++ rest) = some ⟨[], .skip, s.bytes, rest⟩ := by
  obtain ⟨opening, closing, content, kind, ends⟩ := s
  obtain ⟨hhead, front, last, rfl, hlast⟩ := terminator_eq kind
  have hscan := scan?_mark kind (content ++ (front ++ [last]) ++ rest)
  rw [splitAfter?_terminated hlast ends, ← List.append_assoc] at hscan
  refine next?_of_scan? hscan ?_
  rw [List.head?_append, Skipped.bytes, List.head?_append, hhead]
  rfl

end Tag

namespace Framer

open XmlStream

/-! ### Passing over a part of a stream -/

/-- `f.PassesOver bytes depth`: with any rest behind `bytes`, a call goes on as if it had passed
    them and stood at `depth`. -/
def PassesOver (f : Framer) (bytes : List UInt8) (depth : Nat) : Prop :=
  ∀ rest, { f with ahead := bytes ++ rest }.next =
    { f.pass bytes with ahead := rest, depth }.next

section PassesOver

variable {f : Framer} {a b bytes : List UInt8} {d d' : Nat}

/-- `pass` does not read `ahead` and `depth`, so that setting these in between changes nothing. -/
theorem pass_with (f : Framer) (a b rest : List UInt8) (d d' : Nat) :
    { { f.pass a with depth := d }.pass b with ahead := rest, depth := d' } =
      { f.pass (a ++ b) with ahead := rest, depth := d' } := by
  obtain ⟨level, limit, skipped, captured, ahead, depth⟩ := f
  cases captured with
  | none => simp [pass, Nat.add_assoc]
  | some c => simp [pass]

theorem passesOver_nil (f : Framer) : f.PassesOver [] f.depth := by
  intro rest
  obtain ⟨level, limit, skipped, captured, ahead, depth⟩ := f
  cases captured with
  | none => rfl
  | some c => simp [pass]

/-- Two parts are passed over one after the other. -/
theorem PassesOver.append (ha : f.PassesOver a d)
    (hb : { f.pass a with depth := d }.PassesOver b d') : f.PassesOver (a ++ b) d' := by
  intro rest
  rw [List.append_assoc, ha (b ++ rest), ← pass_with f a b rest d d', ← hb rest]

/-- Text is passed over, whether or not a message is under way. -/
theorem passesOver_text (run : Run) (f : Framer) : f.PassesOver run.bytes f.depth := by
  intro rest
  rw [next_text run.plain]
  congr 1
  obtain ⟨level, limit, skipped, captured, ahead, depth⟩ := f
  cases captured <;> rfl

/-- Markup for which `meet` gives no answer is passed over. -/
theorem passesOver_of_meet {kind : Markup}
    (h : ∀ rest, Tag.next? (bytes ++ rest) = some ⟨[], kind, bytes, rest⟩)
    (hm : ∀ rest, { f with ahead := bytes ++ rest }.meet ⟨[], kind, bytes, rest⟩ =
      (none, { f.pass bytes with ahead := rest, depth := d })) : f.PassesOver bytes d :=
  fun rest => next_goesOn (f := { f with ahead := bytes ++ rest }) (h rest) (hm rest)

/-- `beyond` for markup at the head of what is ahead. -/
theorem beyond_with (f : Framer) (kind : Markup) (bytes rest : List UInt8) (d : Nat) :
    { f with ahead := bytes ++ rest }.beyond ⟨[], kind, bytes, rest⟩ d =
      { f.pass bytes with ahead := rest, depth := d } := by
  obtain ⟨level, limit, skipped, captured, ahead, depth⟩ := f
  cases captured <;> rfl

/-- Skipped markup is passed over at every level. -/
theorem passesOver_skipped (markup : Skipped) (f : Framer) :
    f.PassesOver markup.bytes f.depth := by
  refine passesOver_of_meet (Tag.next?_skipped markup) fun rest => ?_
  rw [meet, beyond_with]

/-- Fillers are passed over, by induction on the list. -/
theorem passesOver_fill (fillers : List Filler) (f : Framer) :
    f.PassesOver (fill fillers) f.depth := by
  induction fillers generalizing f with
  | nil => exact passesOver_nil f
  | cons filler fillers ih =>
    have hfirst : f.PassesOver filler.bytes f.depth := by
      cases filler with
      | text run => exact passesOver_text run f
      | skipped markup => exact passesOver_skipped markup f
    exact hfirst.append (ih { f.pass filler.bytes with depth := f.depth })

/-- Away from the message level, an opening tag is passed over and goes one deeper. -/
theorem passesOver_opening (t : TagText) (h : f.depth ≠ f.level) :
    f.PassesOver t.opening (f.depth + 1) := by
  refine passesOver_of_meet (Tag.next?_opening t) fun rest => ?_
  rw [meet]
  dsimp only
  rw [if_neg h, beyond_with]

/-- Away from the message level, a tag that closes itself is passed over. -/
theorem passesOver_closed (t : TagText) (h : f.depth ≠ f.level) :
    f.PassesOver t.closed f.depth := by
  refine passesOver_of_meet (Tag.next?_closed t) fun rest => ?_
  rw [meet]
  dsimp only
  rw [if_neg h, beyond_with]

/-- A closing tag that does not end a message is passed over and goes one back. -/
theorem passesOver_closing (t : TagText) (after : Space) (h : f.level + 1 < f.depth) :
    f.PassesOver (t.closing after) (f.depth - 1) := by
  refine passesOver_of_meet (Tag.next?_closing t after) fun rest => ?_
  have hpos : f.depth ≠ 0 := by omega
  have hdeep : f.depth - 1 ≠ f.level := by omega
  rw [meet]
  dsimp only
  rw [if_neg hpos, beyond_with]
  cases f.captured with
  | none => rfl
  | some c => exact if_neg hdeep

end PassesOver

/-! ### Elements -/

mutual

/-- **Beneath the message level, an element is passed over** and its depth is restored.  The
    recursion is that of the syntax, shared with `passesOver_content`. -/
theorem passesOver_element (e : Element) (f : Framer) (h : f.level < f.depth) :
    f.PassesOver e.bytes f.depth := by
  match e with
  | .empty tag =>
    rw [Element.bytes]
    exact passesOver_closed tag (by omega)
  | .full tag inside after =>
    -- Inside, the depth is larger by one, and so still beneath the message level.
    have hdeep : f.level < f.depth + 1 := by omega
    have hopening := passesOver_opening (f := f) tag (by omega)
    have hinside := passesOver_content inside { f.pass tag.opening with depth := f.depth + 1 }
      (by simpa using hdeep)
    have hclosing := passesOver_closing tag after
      (f := { f.pass (tag.opening ++ inside.bytes) with depth := f.depth + 1 })
      (by simpa using h)
    rw [Element.bytes]
    exact (hopening.append hinside).append hclosing

/-- The content of an element is passed over. -/
theorem passesOver_content (c : Content) (f : Framer) (h : f.level < f.depth) :
    f.PassesOver c.bytes f.depth := by
  -- The pieces of the content one after the other, each from the depth at which it was found.
  match c with
  | .nothing =>
    rw [Content.bytes]
    exact passesOver_nil f
  | .filler filler rest =>
    have hfiller := passesOver_fill [filler] f
    have hrest := passesOver_content rest { f.pass filler.bytes with depth := f.depth }
      (by simpa using h)
    rw [fill, List.flatMap_singleton] at hfiller
    rw [Content.bytes]
    exact hfiller.append hrest
  | .element e rest =>
    have helement := passesOver_element e f h
    have hrest := passesOver_content rest { f.pass e.bytes with depth := f.depth }
      (by simpa using h)
    rw [Content.bytes]
    exact helement.append hrest

end

/-- The framer behind the opening tag of a message, with that tag captured. -/
def within (f : Framer) (opening : List UInt8) : Framer :=
  { f with captured := some opening, depth := f.depth + 1 }

/-- **An element at the message level is handed out.** A call answers exactly the bytes of the
    element, and leaves what is behind it ahead. -/
theorem next_element (e : Element) {f : Framer} (hc : f.captured = none) (hd : f.depth = f.level)
    (rest : List UInt8) : { f with ahead := e.bytes ++ rest }.next =
      (.ok (some e.bytes), { f with skipped := 0, captured := none, ahead := rest }) := by
  cases e with
  | empty tag =>
    have hmeet : { f with ahead := tag.closed ++ rest }.meet ⟨[], .selfClosing, tag.closed, rest⟩ =
        (some (.ok tag.closed), { f with skipped := 0, captured := none, ahead := rest }) :=
      if_pos hd
    rw [Element.bytes]
    exact next_ends (f := { f with ahead := tag.closed ++ rest }) (Tag.next?_closed tag rest) hmeet
  | full tag inside after =>
    -- The opening tag begins the message, and its closing tag ends it.
    have hopening (behind : List UInt8) : { f with ahead := tag.opening ++ behind }.meet
        ⟨[], .openTag, tag.opening, behind⟩ =
          (none, { f.within tag.opening with ahead := behind }) := by
      refine (if_pos hd).trans ?_
      simp [pass, hc, within]
    -- What stands in the element is beneath the message level, so it is passed over.
    have hinside : { f.within tag.opening with
        ahead := inside.bytes ++ (tag.closing after ++ rest) }.next =
          { (f.within tag.opening).pass inside.bytes with
            ahead := tag.closing after ++ rest }.next :=
      passesOver_content inside (f.within tag.opening) (by simp [within, hd]) _
    have hclosing : { (f.within tag.opening).pass inside.bytes with
        ahead := tag.closing after ++ rest }.meet ⟨[], .closeTag, tag.closing after, rest⟩ =
          (some (.ok (tag.opening ++ inside.bytes ++ tag.closing after)),
            { f with skipped := 0, captured := none, ahead := rest }) := by
      simp [meet, pass, within, hd]
    rw [Element.bytes, List.append_assoc, List.append_assoc,
      next_goesOn (f := { f with ahead := _ }) (Tag.next?_opening tag _) (hopening _), hinside]
    exact next_ends (f := { (f.within tag.opening).pass inside.bytes with ahead := _ })
      (Tag.next?_closing tag after rest) hclosing

/-! ### Streams -/

/-- Draining depends on a framer only through `next`. -/
theorem Drains.congr {f g k : Framer} {out : List (Except FramingError String)}
    (h : f.next = g.next) (hd : g.Drains out k) : f.Drains out k := by
  have hsame : f.nextMessage = g.nextMessage := by rw [nextMessage_eq, nextMessage_eq, h]
  cases hd with
  | done hg => exact .done (hsame.trans hg)
  | answer hg rest => exact .answer (hsame.trans hg) rest

/-- The opening tags of the enclosing elements are passed over, one level for each. -/
theorem passesOver_roots (roots : List (List Filler × TagText)) {f : Framer}
    (hd : f.depth + roots.length ≤ f.level) :
    f.PassesOver (rootBytes roots) (f.depth + roots.length) := by
  induction roots generalizing f with
  | nil => exact passesOver_nil f
  | cons root roots ih =>
    rw [List.length_cons] at hd ⊢
    have hfill := passesOver_fill root.1 f
    have hopening := passesOver_opening root.2
      (f := { f.pass (fill root.1) with depth := f.depth })
      (by simp only [level_pass]; omega)
    have hroots := ih (f := { f.pass (fill root.1 ++ root.2.opening) with depth := f.depth + 1 })
      (by simp only [level_pass]; omega)
    -- Each root adds one to the depth.
    have hsum : f.depth + 1 + roots.length = f.depth + (roots.length + 1) := by omega
    dsimp only at hroots
    rw [hsum] at hroots
    rw [rootBytes, List.flatMap_cons]
    exact (hfill.append hopening).append hroots

/-- Behind the last message there is nothing to answer, and the fillers there are dropped. -/
theorem drains_tail (tail : List Filler) {f : Framer} (hc : f.captured = none) :
    Drains { f with ahead := fill tail } [] { f with skipped := 0, ahead := [] } := by
  have htail := passesOver_fill tail f []
  rw [List.append_nil] at htail
  refine .done (nextMessage_eq_quiet.2 ?_)
  rw [htail, next_of_none rfl, wait_eq]
  simp [waiting, pending, pass, hc]

/-- At the message level, draining answers the elements in their order, by induction on the
    messages. -/
theorem drains_messages (messages : List (List Filler × Element)) (tail : List Filler) {f : Framer}
    (hc : f.captured = none) (hd : f.depth = f.level) :
    Drains { f with ahead := messageBytes messages ++ fill tail }
      (messages.map fun m => .ok (Utf8.decodeText m.2.bytes))
      { f with skipped := 0, ahead := [] } := by
  induction messages generalizing f with
  | nil => exact drains_tail tail hc
  | cons m messages ih =>
    have hfill := passesOver_fill m.1 f (m.2.bytes ++ (messageBytes messages ++ fill tail))
    have hnext := next_element m.2 (f := { f.pass (fill m.1) with depth := f.depth })
      (by simp [captured_pass, hc]) (by simp [hd]) (messageBytes messages ++ fill tail)
    -- The bytes that were passed over belong to no message, and are dropped with this one.
    have hpass : f.pass (fill m.1) = { f with skipped := f.skipped + (fill m.1).length } := by
      simp [pass, hc]
    have hrest := ih (f := { f with skipped := 0 }) hc hd
    rw [hpass] at hfill hnext
    rw [messageBytes, List.flatMap_cons, List.append_assoc, List.append_assoc]
    refine Drains.congr hfill (.answer (a := .ok (Utf8.decodeText m.2.bytes)) ?_ hrest)
    rw [nextMessage_eq, hnext]
    simp [Except.map, hc]

/-- A whole stream, given at once, is drained of its elements. -/
theorem drains_stream (s : XmlStream) (limit : Nat) :
    ((start s.roots.length limit).extend s.bytes).Drains
      (s.messages.map fun m => .ok (Utf8.decodeText m.2.bytes))
      { start s.roots.length limit with depth := s.roots.length } := by
  have hroots := passesOver_roots s.roots (f := start s.roots.length limit) (by simp [start])
    (messageBytes s.messages ++ fill s.tail)
  have hmessages := drains_messages s.messages s.tail
    (f := { (start s.roots.length limit).pass (rootBytes s.roots) with depth := s.roots.length })
    rfl rfl
  have hdepth : (start s.roots.length limit).depth + s.roots.length = s.roots.length :=
    Nat.zero_add _
  rw [hdepth] at hroots
  exact Drains.congr hroots hmessages

/-- **A framer hands out the elements of a well-formed stream.** However the bytes of the stream
    are cut, reading ends and answers its elements at the message level, in order and without an
    error.  An element that is the UTF-8 of some text is answered by this text.  In the end nothing
    stays in the buffer. -/
theorem reads_stream (s : XmlStream) (limit : Nat) (chunks : List (List UInt8))
    (h : chunks.flatten = s.bytes) (hlimit : s.bytes.length ≤ limit) :
    (∃ out f, (start s.roots.length limit).Reads chunks out f) ∧
      ∀ out f, (start s.roots.length limit).Reads chunks out f →
        out = s.messages.map (fun m => .ok (Utf8.decodeText m.2.bytes)) ∧ f.buffered = 0 ∧
          ∀ texts : List String, texts.map Utf8.encodeText = s.messages.map (fun m => m.2.bytes) →
            out = texts.map .ok := by
  have hle : (start s.roots.length limit).pending + chunks.flatten.length ≤
      (start s.roots.length limit).limit := by
    rw [h]
    simpa [start, pending] using hlimit
  refine ⟨exists_reads (settled_start _ limit) hle, ?_⟩
  intro out f hf
  -- Reading the chunks is draining all of the bytes at once, up to bytes that count as skipped.
  obtain ⟨k, hk, n, hn, rfl⟩ := hf.flatten (drains_start _ limit) hle
  rw [h] at hk
  obtain ⟨rfl, hend⟩ := hk.unique (drains_stream s limit)
  refine ⟨rfl, ?_, ?_⟩
  · have hnone : f.captured = none := congrArg Framer.captured hend
    have hahead : f.ahead = [] := congrArg Framer.ahead hend
    have hskipped : n = 0 := congrArg Framer.skipped hend
    have hzero : f.skipped = 0 := by omega
    simp [buffered, hnone, hahead, hzero]
  · intro texts htexts
    have hdecode := congrArg (List.map fun bytes => (.ok (Utf8.decodeText bytes) :
      Except FramingError String)) htexts
    simpa [Function.comp_def, Utf8.decodeText_encodeText] using hdecode.symm

end Framer

namespace XmlStream

def letter (c : Char) (h : c.toNat.toUInt8 ∉ nameEnds) : Name :=
  ⟨c.toNat.toUInt8, [], List.forall_mem_singleton.2 h⟩

/-- A blank. -/
def blank : Space := ⟨asciiBytes [' '], List.forall_mem_singleton.2 (by decide)⟩

/-- No white space. -/
def noSpace : Space := ⟨[], nofun⟩

/-- A stream with one message in a root element: an attribute of it holds a bracket, and it has a
    comment that looks like a tag, an element that closes itself, and text. -/
def bracketed : XmlStream where
  roots := [([], ⟨letter 'r' (by decide), [], noSpace⟩)]
  messages :=
    [([.text ⟨asciiBytes [' '], by decide⟩],
      .full
        ⟨letter 'a' (by decide),
          [⟨blank, letter 'x' (by decide), noSpace, noSpace, 0x27, asciiBytes ['>'], by decide,
            by decide⟩], noSpace⟩
        (.filler (.skipped ⟨asciiBytes ['<', '!', '-', '-'], asciiBytes ['-', '-', '>'],
            asciiBytes ['<', 'b', '>'], by decide, by decide⟩)
          (.element (.empty ⟨letter 'c' (by decide), [], noSpace⟩)
            (.filler (.text ⟨asciiBytes ['t'], by decide⟩) .nothing)))
        noSpace)]
  tail := [.text ⟨asciiBytes ['\n'], by decide⟩]

end XmlStream

namespace Framer

/-- `reads_stream` on the stream `bracketed`, cut inside the quoted value of the attribute: the one
    message is answered whole, though the second chunk begins with a bracket. -/
theorem reads_stream_bracketed :
    let chunks := [asciiBytes "<r> <a x='".toList, asciiBytes ">'><!--<b>--><c/>t</a>\n".toList]
    (∃ out f, (start 1 64).Reads chunks out f) ∧ ∀ out f, (start 1 64).Reads chunks out f →
      out = [.ok "<a x='>'><!--<b>--><c/>t</a>"] ∧ f.buffered = 0 := by
  intro chunks
  have hstream := reads_stream XmlStream.bracketed 64 chunks (by decide) (by decide)
  refine ⟨hstream.1, ?_⟩
  intro out f hf
  obtain ⟨-, hempty, hout⟩ := hstream.2 out f hf
  have helement : ["<a x='>'><!--<b>--><c/>t</a>"].map Utf8.encodeText =
      XmlStream.bracketed.messages.map fun m => m.2.bytes := by
    rw [List.map_singleton, Utf8.encodeText_eq]
    decide
  exact ⟨hout _ helement, hempty⟩

end Framer

end Observatory
