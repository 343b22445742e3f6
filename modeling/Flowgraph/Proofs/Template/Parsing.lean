import Flowgraph.Proofs.Template.Filling
import Flowgraph.Proofs.Text.Separated
import Mathlib.Data.List.Chain

/-! Parsing a text and writing its segments down again. No character is lost or doubled, what is refused
is what the grammar of references excludes, and segments written down plainly are read as they were. -/

namespace Flowgraph

def Segment.IsText : Segment → Prop
  | .text _ => True
  | .reference _ => False

instance : DecidablePred Segment.IsText
  | .text _ => .isTrue trivial
  | .reference _ => .isFalse id

def Segment.reference? : Segment → Option Reference
  | .text _ => none
  | .reference r => some r

namespace Template

variable {cs body before rest : List Char} {found : List (List Char)}

section Scanning

/-- Going through a text from the left: the first placeholder, and then those that follow it. None of
them begins within another one. -/
inductive Scan : List Char → List (List Char) → Prop
  | clear {cs : List Char} :
    (∀ body, Braceless body → ¬ braced body <:+: cs) → Scan cs []
  | found {before body rest : List Char} {found : List (List Char)} : Braceless body →
    (∀ start, start ≠ [] → start <:+ before → ∀ other, Braceless other →
      ¬ braced other <+: start ++ (braced body ++ rest)) →
    Scan rest found → Scan (before ++ (braced body ++ rest)) (body :: found)

theorem placeholder?_eq_none :
    placeholder? cs = none ↔ ∀ body, Braceless body → ¬ braced body <+: cs := by
  constructor
  · rintro h body hbody ⟨rest, rfl⟩
    have hsome : placeholder? (braced body ++ rest) = some (body, rest) :=
      placeholder?_eq_some.2 ⟨hbody, rfl⟩
    rw [h] at hsome
    cases hsome
  · intro h
    by_contra hne
    obtain ⟨⟨body, rest⟩, hsome⟩ := Option.ne_none_iff_exists'.1 hne
    obtain ⟨hbody, rfl⟩ := placeholder?_eq_some.1 hsome
    exact h body hbody (List.prefix_append _ _)

/-- Where no placeholder begins none is found. -/
theorem bodies_append_of_none
    (h : ∀ start, start ≠ [] → start <:+ before → placeholder? (start ++ cs) = none) :
    bodies (before ++ cs) = bodies cs := by
  induction before with
  | nil => rfl
  | cons c before ih =>
    have hnone := h (c :: before) (by simp) (List.suffix_refl _)
    rw [List.cons_append] at hnone
    rw [List.cons_append, bodies_cons, hnone,
      ih fun start hne hsuffix => h start hne (hsuffix.trans (List.suffix_cons c before))]
    rfl

theorem Scan.eq_bodies (h : Scan cs found) : found = bodies cs := by
  induction h with
  | clear hclear =>
    symm
    rw [List.eq_nil_iff_forall_not_mem]
    intro body hbody
    obtain ⟨hbraceless, hinfix⟩ := mem_bodies_iff.1 hbody
    exact hclear body hbraceless hinfix
  | found hbody hfirst _ ih =>
    rw [bodies_append_of_none fun start hne hsuffix =>
      placeholder?_eq_none.2 (hfirst start hne hsuffix), bodies_braced hbody, ← ih]

theorem scan_bodies (cs : List Char) : Scan cs (bodies cs) := by
  induction cs using pieces.induct with
  | case1 =>
    refine .clear fun body _ hinfix => ?_
    simpa [braced] using List.infix_nil.1 hinfix
  | case2 c cs body rest h _ ih =>
    obtain ⟨hbody, htext⟩ := placeholder?_eq_some.1 h
    rw [htext, bodies_braced hbody]
    refine @Scan.found [] body rest _ hbody (fun start hne hsuffix => ?_) ih
    exact absurd (List.suffix_nil.1 hsuffix) hne
  | case3 c cs h ih =>
    have hnone := placeholder?_eq_none.1 h
    have hbodies : bodies (c :: cs) = bodies cs := by
      rw [bodies_cons, h]
      rfl
    rw [hbodies]
    generalize bodies cs = found at ih
    cases ih with
    | clear hclear =>
      refine .clear fun body hbody hinfix => ?_
      rcases List.infix_cons_iff.1 hinfix with hstarts | hinfix
      · exact hnone body hbody hstarts
      · exact hclear body hbody hinfix
    | @found before body rest found hbody hfirst hrest =>
      refine @Scan.found (c :: before) body rest _ hbody (fun start hne hsuffix => ?_) hrest
      rcases List.suffix_cons_iff.1 hsuffix with rfl | hsuffix
      · exact hnone
      · exact hfirst start hne hsuffix

/-- A text is gone through in one way only. -/
theorem scan_iff : Scan cs found ↔ found = bodies cs :=
  ⟨Scan.eq_bodies, fun h => h ▸ scan_bodies cs⟩

end Scanning

section Grammar

/-- The grammar of references: blanks aside, a name and one or more segments, each with a dot in front.
A name or a segment holds no dot, and something other than blanks. -/
def Reads (body : List Char) (r : Reference) : Prop :=
  ∃ name segments, segments ≠ [] ∧
    Text.trimChars body = name ++ segments.flatMap ('.' :: ·) ∧
    (∀ part ∈ name :: segments, '.' ∉ part ∧ Text.trimChars part ≠ []) ∧
    r = ⟨String.ofList (Text.trimChars name),
      ⟨segments.map fun segment => String.ofList (Text.trimChars segment)⟩,
      String.ofList (braced body)⟩

theorem parseChars_eq_some {path : List Char} {p : Path} :
    Path.parseChars path = some p ↔
      (∀ segment ∈ Text.splitAt '.' path, Text.trimChars segment ≠ []) ∧
        p = ⟨(Text.splitAt '.' path).map fun segment => String.ofList (Text.trimChars segment)⟩ := by
  have hany : ((Text.splitAt '.' path).map Text.trimChars).any List.isEmpty = true ↔
      ¬ ∀ segment ∈ Text.splitAt '.' path, Text.trimChars segment ≠ [] := by
    simp
  rw [Path.parseChars]
  split
  · next hempty =>
    simp [hany.1 hempty]
  · next hempty =>
    rw [hany, not_not] at hempty
    rw [and_iff_right hempty, Option.some.injEq, List.map_map, eq_comm]
    rfl

theorem reference?_eq_some_iff_reads {r : Reference} :
    reference? body = some r ↔ Reads body r := by
  rw [reference?_eq_some]
  constructor
  · rintro ⟨name, path, p, htrim, hdot, hname, hpath, rfl⟩
    obtain ⟨hsegments, rfl⟩ := parseChars_eq_some.1 hpath
    obtain ⟨first, more, hsplit⟩ := List.exists_cons_of_ne_nil (Text.splitAt_ne_nil '.' path)
    obtain ⟨hjoined, hfree⟩ := Text.splitAt_eq_cons_iff.1 hsplit
    rw [hsplit] at hsegments ⊢
    refine ⟨name, first :: more, by simp, ?_, ?_, rfl⟩
    · rw [htrim, hjoined, List.flatMap_cons, List.cons_append]
    · intro part hpart
      rcases List.mem_cons.1 hpart with rfl | hpart
      · exact ⟨hdot, hname⟩
      · exact ⟨hfree part hpart, hsegments part hpart⟩
  · rintro ⟨name, segments, hne, htrim, hparts, rfl⟩
    obtain ⟨first, more, rfl⟩ := List.exists_cons_of_ne_nil hne
    have hsplit : Text.splitAt '.' (first ++ more.flatMap ('.' :: ·)) = first :: more :=
      Text.splitAt_eq_cons_iff.2 ⟨rfl, fun p hp => (hparts p (List.mem_cons_of_mem _ hp)).1⟩
    obtain ⟨hdot, hname⟩ := hparts name (by simp)
    refine ⟨name, first ++ more.flatMap ('.' :: ·), _, ?_, hdot, hname, parseChars_eq_some.2 ⟨?_, rfl⟩,
      by rw [hsplit]⟩
    · rw [htrim, List.flatMap_cons, List.cons_append]
    · rw [hsplit]
      exact fun p hp => (hparts p (List.mem_cons_of_mem _ hp)).2

end Grammar

section Splitting

def Piece.IsText : Piece → Prop
  | .text _ => True
  | .placeholder _ => False

/-- Texts are as long as they can be. -/
def Apart (found : List Piece) : Prop := found.IsChain fun p q => ¬ (p.IsText ∧ q.IsText)

/-- The pieces of a text are the text. -/
theorem flatMap_source (cs : List Char) : (pieces cs).flatMap Piece.source = cs := by
  have hsource : Piece.source = Piece.filled braced := by
    funext piece
    cases piece <;> rfl
  rw [hsource, ← fill_eq, fill_braced]

/-- A character is put in front of the text that stands first, or makes a text of its own. -/
theorem push_cases (c : Char) (found : List Piece) :
    (∃ t rest, found = .text t :: rest ∧ push c found = .text (c :: t) :: rest) ∨
      push c found = .text [c] :: found ∧ ∀ piece ∈ found.head?, ¬ piece.IsText := by
  cases found with
  | nil => exact Or.inr ⟨rfl, by simp⟩
  | cons piece rest =>
    cases piece with
    | text t => exact Or.inl ⟨t, rest, rfl, rfl⟩
    | placeholder body => exact Or.inr ⟨rfl, by simp [Piece.IsText]⟩

theorem apart_pieces (cs : List Char) : Apart (pieces cs) := by
  unfold Apart
  induction cs using pieces.induct with
  | case1 =>
    rw [pieces]
    exact List.isChain_nil
  | case2 c cs body rest h _ ih =>
    rw [pieces_of_some h, List.isChain_cons]
    exact ⟨fun piece _ htexts => htexts.1, ih⟩
  | case3 c cs h ih =>
    rw [pieces_of_none h]
    rcases push_cases c (pieces cs) with ⟨t, rest, hpieces, hpush⟩ | ⟨hpush, hhead⟩
    · rw [hpieces, List.isChain_cons] at ih
      rw [hpush, List.isChain_cons]
      exact ih
    · rw [hpush, List.isChain_cons]
      exact ⟨fun piece hpiece htexts => hhead piece hpiece htexts.2, ih⟩

/-- A text among the pieces is not empty, and no placeholder stands in it. -/
theorem clear_of_mem_pieces {t : List Char} (h : .text t ∈ pieces cs) :
    t ≠ [] ∧ ∀ body, Braceless body → ¬ braced body <:+: t := by
  induction cs using pieces.induct generalizing t with
  | case1 => simp [pieces] at h
  | case2 c cs body rest hsome _ ih =>
    rw [pieces_of_some hsome] at h
    exact ih (by simpa using h)
  | case3 c cs hnone ih =>
    -- What begins with the character begins the whole text, where no placeholder begins.
    have hfresh : ∀ u, u <+: cs → (∀ body, Braceless body → ¬ braced body <:+: u) →
        ∀ body, Braceless body → ¬ braced body <:+: c :: u := by
      intro u hu hclear body hbody hinfix
      rcases List.infix_cons_iff.1 hinfix with hstarts | hinfix
      · exact placeholder?_eq_none.1 hnone body hbody
          (hstarts.trans ((List.prefix_cons_inj c).2 hu))
      · exact hclear body hbody hinfix
    rw [pieces_of_none hnone] at h
    rcases push_cases c (pieces cs) with ⟨u, rest, hpieces, hpush⟩ | ⟨hpush, -⟩
    · rw [hpush] at h
      rcases List.mem_cons.1 h with ht | ht
      · obtain rfl := Piece.text.inj ht
        have hstarts : u <+: cs := by
          rw [← flatMap_source cs, hpieces, List.flatMap_cons]
          exact List.prefix_append _ _
        exact ⟨by simp, hfresh u hstarts (ih (by simp [hpieces])).2⟩
      · exact ih (by simp [hpieces, ht])
    · rw [hpush] at h
      rcases List.mem_cons.1 h with ht | ht
      · obtain rfl := Piece.text.inj ht
        refine ⟨by simp, hfresh [] List.nil_prefix fun body _ hinfix => ?_⟩
        simpa [braced] using List.infix_nil.1 hinfix
      · exact ih ht

theorem pieces_braced_append (hbody : Braceless body) (cs : List Char) :
    pieces (braced body ++ cs) = .placeholder body :: pieces cs := by
  have hsome : placeholder? (braced body ++ cs) = some (body, cs) :=
    placeholder?_eq_some.2 ⟨hbody, rfl⟩
  exact pieces_of_some hsome

theorem pieces_text_append {t : List Char} (hne : t ≠ []) (hfree : Braceless t)
    (hnext : ∀ piece ∈ (pieces cs).head?, ¬ piece.IsText) :
    pieces (t ++ cs) = .text t :: pieces cs := by
  induction t with
  | nil => exact absurd rfl hne
  | cons c t ih =>
    have hnone : placeholder? (c :: (t ++ cs)) = none := by
      rw [placeholder?_eq_none]
      intro body _ hstarts
      obtain rfl := (List.cons_prefix_cons.1 hstarts).1
      exact absurd (hfree '{' (by simp)) (by decide)
    rw [List.cons_append, pieces_of_none hnone]
    cases t with
    | nil =>
      rcases push_cases c (pieces cs) with ⟨u, rest, hpieces, -⟩ | ⟨hpush, -⟩
      · exact absurd trivial (hnext (.text u) (by simp [hpieces]))
      · exact hpush
    | cons d t =>
      rw [ih (by simp) fun x hx => hfree x (List.mem_cons_of_mem c hx)]
      rfl

/-- Placeholders and texts without braces, put together, come apart again. -/
theorem pieces_flatMap_source {found : List Piece} (hapart : Apart found)
    (htext : ∀ t, .text t ∈ found → t ≠ [] ∧ Braceless t)
    (hbody : ∀ body, .placeholder body ∈ found → Braceless body) :
    pieces (found.flatMap Piece.source) = found := by
  induction found with
  | nil => simp [pieces]
  | cons piece rest ih =>
    obtain ⟨hnext, hrest⟩ := List.isChain_cons.1 hapart
    have ih := ih hrest (fun t ht => htext t (List.mem_cons_of_mem piece ht))
      fun body hb => hbody body (List.mem_cons_of_mem piece hb)
    rw [List.flatMap_cons]
    cases piece with
    | placeholder body =>
      have hfirst := hbody body List.mem_cons_self
      exact (pieces_braced_append hfirst _).trans (by rw [ih])
    | text t =>
      obtain ⟨hne, hfree⟩ := htext t List.mem_cons_self
      refine (pieces_text_append hne hfree ?_).trans (by rw [ih])
      rw [ih]
      exact fun piece hpiece htext => hnext piece hpiece ⟨trivial, htext⟩

end Splitting

section Segments

/-- A reference that cannot be read. -/
def Malformed (body : List Char) : Prop := ∀ r, ¬ Reads body r

theorem malformed_iff : Malformed body ↔ (called body).isNone = true := by
  unfold Malformed
  rw [called, Option.isNone_map, Option.isNone_iff_eq_none, Option.eq_none_iff_forall_ne_some]
  exact forall_congr' fun r => not_congr reference?_eq_some_iff_reads.symm

instance (body : List Char) : Decidable (Malformed body) :=
  decidable_of_iff _ malformed_iff.symm

theorem segment_eq_ok_iff {piece : Piece} {s : Segment} :
    segment piece = .ok s ↔ (∃ t, piece = .text t ∧ s = .text (String.ofList t)) ∨
      ∃ body r, piece = .placeholder body ∧ Reads body r ∧ s = .reference r := by
  cases piece with
  | text t => simp [segment, eq_comm]
  | placeholder body =>
    simp only [segment, ← reference?_eq_some_iff_reads]
    cases h : reference? body with
    | none => simp [h]
    | some r => simp [h, eq_comm]

theorem malformed_eq_nil_iff {read : List (Except String Segment)} :
    malformed read = [] ↔ read = (read.filterMap Except.toOption).map .ok := by
  induction read with
  | nil => simp [malformed]
  | cons e read ih =>
    cases e with
    | error raw =>
      refine iff_of_false (by simp [malformed]) fun h => ?_
      have hmem : (Except.error raw : Except String Segment) ∈ (Except.error raw :: read) := by simp
      rw [h] at hmem
      simp at hmem
    | ok s => simpa [malformed, Except.toOption] using ih

theorem parse_eq_ok_iff {text : String} {segments : List Segment} :
    parse text = .ok segments ↔ (pieces text.toList).map segment = segments.map .ok := by
  unfold parse
  dsimp only
  generalize (pieces text.toList).map segment = read
  constructor
  · intro h
    split at h
    · next hnil =>
      obtain rfl := Except.ok.inj h
      exact malformed_eq_nil_iff.1 hnil
    · cases h
  · rintro rfl
    have hall : (segments.map .ok : List (Except String Segment)).filterMap Except.toOption =
        segments := by
      simp [List.filterMap_map, Function.comp_def, Except.toOption]
    rw [malformed_eq_nil_iff.2 (by rw [hall]), hall]

/-- The malformed placeholders of a text, as they were written. -/
theorem malformed_pieces (text : String) :
    malformed ((pieces text.toList).map segment) = ((bodies text.toList).filter
      fun body => Malformed body).map fun body => String.ofList (braced body) := by
  rw [malformed_eq, filterMap_pieces]
  congr 1
  refine List.filter_congr fun body _ => ?_
  rw [Bool.eq_iff_iff, decide_eq_true_iff, malformed_iff]

theorem parse_eq_error_iff {text : String} {raws : List String} :
    parse text = .error raws ↔ raws ≠ [] ∧ raws = ((bodies text.toList).filter
      fun body => Malformed body).map fun body => String.ofList (braced body) := by
  rw [← malformed_pieces]
  unfold parse
  dsimp only
  generalize (pieces text.toList).map segment = read
  cases malformed read with
  | nil => simp
  | cons raw rest =>
    constructor
    · intro h
      obtain rfl := Except.error.inj h
      exact ⟨by simp, rfl⟩
    · rintro ⟨-, rfl⟩
      rfl

theorem forall₂_of_parse {text : String} {segments : List Segment} (h : parse text = .ok segments) :
    List.Forall₂ (fun piece s => segment piece = .ok s) (pieces text.toList) segments := by
  have heq : List.Forall₂ (· = ·) ((pieces text.toList).map segment) (segments.map .ok) := by
    rw [List.forall₂_eq_eq_eq]
    exact parse_eq_ok_iff.1 h
  exact List.forall₂_map_right_iff.1 (List.forall₂_map_left_iff.1 heq)

/-- What pieces have in common with their segments, the whole text has. -/
theorem map_eq_of_parse {α : Type} {f : Piece → α} {g : Segment → α} {text : String}
    {segments : List Segment} (h : parse text = .ok segments)
    (hfg : ∀ piece s, segment piece = .ok s → f piece = g s) :
    (pieces text.toList).map f = segments.map g := by
  have heq : List.Forall₂ (· = ·) ((pieces text.toList).map f) (segments.map g) :=
    List.forall₂_map_left_iff.2 (List.forall₂_map_right_iff.2 ((forall₂_of_parse h).imp hfg))
  rwa [List.forall₂_eq_eq_eq] at heq

theorem exists_piece_of_parse {text : String} {segments : List Segment} {s : Segment}
    (h : parse text = .ok segments) (hs : s ∈ segments) :
    ∃ piece ∈ pieces text.toList, segment piece = .ok s := by
  have hmem : Except.ok s ∈ (pieces text.toList).map segment := by
    rw [parse_eq_ok_iff.1 h]
    exact List.mem_map_of_mem hs
  exact List.mem_map.1 hmem

end Segments

section Written

/-- A name as it stands in a reference: no blanks at its ends, no dots and no braces. -/
structure Tidy (name : String) : Prop where
  ne_empty : name ≠ ""
  trimmed : Text.trim name = name
  free : ∀ c ∈ name.toList, c ≠ '.' ∧ isBrace c = false

/-- The reference is written as `{{Name.path}}`. -/
structure Named (r : Reference) : Prop where
  node : Tidy r.node
  path_ne_nil : r.path.segments ≠ []
  path : ∀ segment ∈ r.path.segments, Tidy segment
  raw : r.raw = "\x7b\x7b" ++ r.node ++ "." ++ r.path.text ++ "\x7d\x7d"

/-- No text follows another one. -/
def Alternate (segments : List Segment) : Prop :=
  segments.IsChain fun s t => ¬ (s.IsText ∧ t.IsText)

/-- Texts without braces, and references as they are named. -/
structure Written (segments : List Segment) : Prop where
  alternate : Alternate segments
  texts : ∀ t, .text t ∈ segments → t ≠ "" ∧ Braceless t.toList
  references : ∀ r, .reference r ∈ segments → Named r

def sourceOf (segments : List Segment) : String := String.join (segments.map Segment.source)

/-- The text is cut into these segments at these placeholders. -/
structure Cuts (text : String) (found : List (List Char)) (segments : List Segment) : Prop where
  source : sourceOf segments = text
  alternate : Alternate segments
  texts : ∀ t, .text t ∈ segments → t ≠ "" ∧ Plain t
  references : List.Forall₂ Reads found (segments.filterMap Segment.reference?)
  again : ∀ r, .reference r ∈ segments → parse r.raw = .ok [.reference r]

/-- What parsing makes of a text in which these placeholders stand. -/
structure Parses (text : String) (found : List (List Char)) : Prop where
  scan : ∀ other, Scan text.toList other ↔ other = found
  fails_iff : (∃ raws, parse text = .error raws) ↔ ∃ body ∈ found, Malformed body
  fails : ∀ raws, parse text = .error raws →
    raws = (found.filter fun body => Malformed body).map fun body => String.ofList (braced body)
  cuts : ∀ segments, parse text = .ok segments → Cuts text found segments
  plain_iff : hasPlaceholder text = false ↔
    ∃ segments, parse text = .ok segments ∧ ∀ s ∈ segments, s.IsText
  written : ∀ segments, Written segments → sourceOf segments = text → parse text = .ok segments

variable {text : String} {segments : List Segment}

theorem Tidy.toList {name : String} (h : Tidy name) :
    name.toList ≠ [] ∧ Text.trimChars name.toList = name.toList := by
  refine ⟨by simpa using h.ne_empty, ?_⟩
  have htrim := congrArg String.toList h.trimmed
  rwa [Text.trim, String.toList_ofList] at htrim

/-- What stands between the braces of a reference as it is named. -/
def inner (r : Reference) : List Char :=
  r.node.toList ++ (r.path.segments.map String.toList).flatMap ('.' :: ·)

theorem Named.raw_eq {r : Reference} (h : Named r) : r.raw = String.ofList (braced (inner r)) := by
  obtain ⟨first, more, hsegments⟩ := List.exists_cons_of_ne_nil h.path_ne_nil
  have htext : r.path.text.toList =
      first.toList ++ (more.map String.toList).flatMap ('.' :: ·) := by
    rw [Path.text, hsegments, String.toList_intercalate, List.map_cons]
    exact Text.intercalate_cons '.' _ _
  apply String.toList_injective
  rw [h.raw, inner, hsegments]
  simp [htext, braced]

theorem Named.braceless {r : Reference} (h : Named r) : Braceless (inner r) := by
  intro c hc
  rcases List.mem_append.1 hc with hc | hc
  · exact (h.node.free c hc).2
  · obtain ⟨segment, hsegment, hc⟩ := List.mem_flatMap.1 hc
    obtain ⟨name, hname, rfl⟩ := List.mem_map.1 hsegment
    rcases List.mem_cons.1 hc with rfl | hc
    · decide
    · exact ((h.path name hname).free c hc).2

/-- The ends of a reference are the ends of its first and its last name. -/
theorem Named.trimChars_inner {r : Reference} (h : Named r) :
    Text.trimChars (inner r) = inner r := by
  rw [Text.trimChars_eq_self_iff, inner]
  constructor
  · obtain ⟨hne, htrim⟩ := h.node.toList
    rw [List.head?_append_of_ne_nil _ hne]
    exact (Text.trimChars_eq_self_iff.1 htrim).1
  · obtain ⟨before, last, hsegments⟩ :=
      (List.eq_nil_or_concat r.path.segments).resolve_left h.path_ne_nil
    obtain ⟨hne, htrim⟩ := (h.path last (by simp [hsegments])).toList
    have hlast : r.node.toList ++ (r.path.segments.map String.toList).flatMap ('.' :: ·) =
        (r.node.toList ++ (before.map String.toList).flatMap ('.' :: ·) ++ ['.']) ++ last.toList := by
      simp [hsegments]
    rw [hlast, List.getLast?_append_of_ne_nil _ hne]
    exact (Text.trimChars_eq_self_iff.1 htrim).2

theorem Named.reads {r : Reference} (h : Named r) : Reads (inner r) r := by
  have htrimmed : r.path.segments.map (fun s => String.ofList (Text.trimChars s.toList)) =
      r.path.segments := by
    conv_rhs => rw [← List.map_id r.path.segments]
    refine List.map_congr_left fun s hs => ?_
    rw [(h.path s hs).toList.2, String.ofList_toList, id]
  refine ⟨r.node.toList, r.path.segments.map String.toList, by simpa using h.path_ne_nil,
    h.trimChars_inner, ?_, ?_⟩
  · intro part hpart
    have htidy : ∃ name, Tidy name ∧ name.toList = part := by
      rcases List.mem_cons.1 hpart with rfl | hpart
      · exact ⟨_, h.node, rfl⟩
      · obtain ⟨name, hname, rfl⟩ := List.mem_map.1 hpart
        exact ⟨name, h.path name hname, rfl⟩
    obtain ⟨name, hname, rfl⟩ := htidy
    refine ⟨fun hdot => (hname.free '.' hdot).1 rfl, ?_⟩
    rw [hname.toList.2]
    exact hname.toList.1
  · rw [List.map_map, h.node.toList.2, String.ofList_toList, ← h.raw_eq]
    exact congrArg (fun segments => (⟨r.node, ⟨segments⟩, r.raw⟩ : Reference)) htrimmed.symm

/-- The piece that a segment was read from, if it is written plainly. -/
def pieceOf : Segment → Piece
  | .text t => .text t.toList
  | .reference r => .placeholder (inner r)

theorem source_pieceOf {s : Segment} (h : ∀ r, s = .reference r → Named r) :
    s.source.toList = (pieceOf s).source := by
  cases s with
  | text t => rfl
  | reference r => simp [Segment.source, pieceOf, Piece.source, (h r rfl).raw_eq]

theorem segment_pieceOf {s : Segment} (h : ∀ r, s = .reference r → Named r) :
    segment (pieceOf s) = .ok s := by
  rw [segment_eq_ok_iff]
  cases s with
  | text t => exact Or.inl ⟨t.toList, rfl, by simp⟩
  | reference r => exact Or.inr ⟨inner r, r, rfl, (h r rfl).reads, rfl⟩

theorem parse_sourceOf (h : Written segments) : parse (sourceOf segments) = .ok segments := by
  have hnamed : ∀ s ∈ segments, ∀ r, s = .reference r → Named r := by
    rintro _ hs r rfl
    exact h.references r hs
  have hsource : (sourceOf segments).toList = (segments.map pieceOf).flatMap Piece.source := by
    rw [sourceOf, String.toList_join, List.flatMap_map, List.flatMap_map]
    exact List.flatMap_congr fun s hs => source_pieceOf (hnamed s hs)
  have happart : Apart (segments.map pieceOf) := by
    have hkind : ∀ s, (pieceOf s).IsText ↔ s.IsText := fun s => by cases s <;> rfl
    apply (List.isChain_map pieceOf).2
    simp only [hkind]
    exact h.alternate
  have hpieces : pieces (sourceOf segments).toList = segments.map pieceOf := by
    rw [hsource]
    apply pieces_flatMap_source happart
    · intro t ht
      obtain ⟨s, hs, hpiece⟩ := List.mem_map.1 ht
      cases s with
      | text u =>
        obtain rfl := Piece.text.inj hpiece
        exact ⟨by simpa using (h.texts u hs).1, (h.texts u hs).2⟩
      | reference r => cases hpiece
    · intro body hbody
      obtain ⟨s, hs, hpiece⟩ := List.mem_map.1 hbody
      cases s with
      | text u => cases hpiece
      | reference r =>
        obtain rfl := Piece.placeholder.inj hpiece
        exact (h.references r hs).braceless
  rw [parse_eq_ok_iff, hpieces, List.map_map]
  exact List.map_congr_left fun s hs => segment_pieceOf (hnamed s hs)

theorem parse_raw {r : Reference} (hbody : Braceless body) (hr : Reads body r) :
    parse r.raw = .ok [.reference r] := by
  obtain ⟨_, _, -, -, -, rfl⟩ := id hr
  rw [parse_eq_ok_iff, String.toList_ofList, pieces_braced hbody]
  simpa using segment_eq_ok_iff.2 (Or.inr ⟨body, _, rfl, hr, rfl⟩)

theorem cuts_of_parse (h : parse text = .ok segments) : Cuts text (bodies text.toList) segments where
  source := by
    have hsources : (pieces text.toList).map Piece.source =
        segments.map fun s => s.source.toList := by
      refine map_eq_of_parse h fun piece s hs => ?_
      rcases segment_eq_ok_iff.1 hs with ⟨t, rfl, rfl⟩ | ⟨body, r, rfl, hr, rfl⟩
      · simp [Piece.source, Segment.source]
      · obtain ⟨_, _, -, -, -, rfl⟩ := hr
        simp [Piece.source, Segment.source]
    apply String.toList_injective
    rw [sourceOf, String.toList_join, List.flatMap_map, List.flatMap_def, ← hsources,
      ← List.flatMap_def, flatMap_source]
  alternate := by
    have hkinds : (pieces text.toList).map Piece.IsText = segments.map Segment.IsText := by
      refine map_eq_of_parse h fun piece s hs => ?_
      rcases segment_eq_ok_iff.1 hs with ⟨t, rfl, rfl⟩ | ⟨body, r, rfl, -, rfl⟩ <;> rfl
    have hapart := apart_pieces text.toList
    unfold Apart at hapart
    unfold Alternate
    rw [← List.isChain_map (R := fun p q => ¬ (p ∧ q))] at hapart ⊢
    rwa [← hkinds]
  texts := by
    intro t ht
    obtain ⟨piece, hpiece, hs⟩ := exists_piece_of_parse h ht
    rcases segment_eq_ok_iff.1 hs with ⟨u, rfl, hu⟩ | ⟨_, _, -, -, hr⟩
    · obtain rfl := Segment.text.inj hu
      obtain ⟨hne, hclear⟩ := clear_of_mem_pieces hpiece
      refine ⟨by simpa using hne, ?_⟩
      rwa [Plain, String.toList_ofList]
    · cases hr
  references := by
    have hread := forall₂_of_parse h
    rw [← filterMap_pieces]
    generalize pieces text.toList = found at hread
    clear h
    induction hread with
    | nil => exact .nil
    | @cons piece s found segments hs _ ih =>
      rcases segment_eq_ok_iff.1 hs with ⟨t, rfl, rfl⟩ | ⟨body, r, rfl, hr, rfl⟩
      · exact ih
      · exact .cons hr ih
  again := by
    intro r hr
    obtain ⟨piece, hpiece, hs⟩ := exists_piece_of_parse h hr
    rcases segment_eq_ok_iff.1 hs with ⟨_, -, ht⟩ | ⟨body, _, rfl, hbody, hr⟩
    · cases ht
    · obtain rfl := Segment.reference.inj hr
      exact parse_raw (mem_bodies_iff.1 (mem_bodies_of_mem_pieces hpiece)).1 hbody

theorem filterMap_reference?_eq_nil_iff :
    segments.filterMap Segment.reference? = [] ↔ ∀ s ∈ segments, s.IsText := by
  rw [List.filterMap_eq_nil_iff]
  refine forall₂_congr fun s _ => ?_
  cases s <;> simp [Segment.reference?, Segment.IsText]

theorem parse_fails_iff :
    (∃ raws, parse text = .error raws) ↔ ∃ body ∈ bodies text.toList, Malformed body := by
  constructor
  · rintro ⟨raws, h⟩
    obtain ⟨hne, rfl⟩ := parse_eq_error_iff.1 h
    obtain ⟨raw, hraw⟩ := List.exists_mem_of_ne_nil _ hne
    obtain ⟨body, hbody, -⟩ := List.mem_map.1 hraw
    obtain ⟨hfound, hbad⟩ := List.mem_filter.1 hbody
    exact ⟨body, hfound, by simpa using hbad⟩
  · rintro ⟨body, hfound, hbad⟩
    have hmem : body ∈ (bodies text.toList).filter fun body => Malformed body :=
      List.mem_filter.2 ⟨hfound, decide_eq_true hbad⟩
    exact ⟨_, parse_eq_error_iff.2 ⟨List.ne_nil_of_mem (List.mem_map_of_mem hmem), rfl⟩⟩

/-- A text without placeholders is parsed to texts, and no other text is. -/
theorem bodies_eq_nil_iff_parse : bodies text.toList = [] ↔
    ∃ segments, parse text = .ok segments ∧ ∀ s ∈ segments, s.IsText := by
  constructor
  · intro hnil
    cases h : parse text with
    | error raws =>
      obtain ⟨hne, rfl⟩ := parse_eq_error_iff.1 h
      simp [hnil] at hne
    | ok segments =>
      have hrefs := (cuts_of_parse h).references
      rw [hnil, List.forall₂_nil_left_iff] at hrefs
      exact ⟨segments, rfl, filterMap_reference?_eq_nil_iff.1 hrefs⟩
  · rintro ⟨segments, h, htexts⟩
    have hrefs := (cuts_of_parse h).references
    rwa [filterMap_reference?_eq_nil_iff.2 htexts, List.forall₂_nil_right_iff] at hrefs

/-- Parsing finds every placeholder, refuses a text for the malformed ones only, and otherwise cuts it
into its segments. -/
theorem parse_lossless (text : String) : ∃ found, Parses text found := by
  refine ⟨bodies text.toList, ?_⟩
  constructor
  · intro other
    exact scan_iff
  · exact parse_fails_iff
  · intro raws h
    exact (parse_eq_error_iff.1 h).2
  · intro segments h
    exact cuts_of_parse h
  · rw [← bodies_eq_nil_iff]
    exact bodies_eq_nil_iff_parse
  · rintro segments h rfl
    exact parse_sourceOf h

/-- Blanks within the braces, a brace too many and a brace alone. -/
example : parse "\x7b\x7b\x7b User . links.0 \x7d\x7d\x7d \x7b" = .ok [.text "\x7b",
    .reference ⟨"User", ⟨["links", "0"]⟩, "\x7b\x7b User . links.0 \x7d\x7d"⟩, .text "\x7d \x7b"] := by
  cbv

/-- A text, two references side by side, and a text. -/
def greeting : List Segment := [.text "Hi ",
  .reference ⟨"User", ⟨["name"]⟩, "\x7b\x7bUser.name\x7d\x7d"⟩,
  .reference ⟨"Fetch Draft", ⟨["links", "0"]⟩, "\x7b\x7bFetch Draft.links.0\x7d\x7d"⟩, .text "!"]

theorem greeting_written : Written greeting where
  alternate := by
    unfold Alternate greeting
    decide
  texts := by
    have hall : ∀ t ∈ ["Hi ", "!"], t ≠ "" ∧ t.toList.all (!isBrace ·) = true := by decide
    intro t ht
    simpa [Braceless] using hall t (by simpa [greeting] using ht)
  references := by
    have htidy : ∀ name ∈ ["User", "name", "Fetch Draft", "links", "0"], Tidy name := by
      have hall : ∀ name ∈ ["User", "name", "Fetch Draft", "links", "0"],
          name.toList.all (fun c => c != '.' && !isBrace c) = true := by decide
      intro name hname
      refine ⟨?_, ?_, fun c hc => ?_⟩
      · revert name
        decide
      · revert name
        decide
      · simpa using List.all_eq_true.1 (hall name hname) c hc
    intro r hr
    have hr : r = ⟨"User", ⟨["name"]⟩, "\x7b\x7bUser.name\x7d\x7d"⟩ ∨
        r = ⟨"Fetch Draft", ⟨["links", "0"]⟩, "\x7b\x7bFetch Draft.links.0\x7d\x7d"⟩ := by
      simpa [greeting] using hr
    rcases hr with rfl | rfl
    · exact ⟨htidy _ (by simp), by simp, fun s hs => htidy s (by simp_all), by decide⟩
    · refine ⟨htidy _ (by simp), by simp, fun s hs => htidy s ?_, by decide⟩
      rcases List.mem_cons.1 hs with rfl | hs
      · simp
      · simp_all

theorem greeting_parsed : Written greeting ∧ ∃ found, Parses (sourceOf greeting) found ∧
    parse (sourceOf greeting) = .ok greeting := by
  obtain ⟨found, hparses⟩ := parse_lossless (sourceOf greeting)
  exact ⟨greeting_written, found, hparses, hparses.written greeting greeting_written rfl⟩

end Written

end Template

end Flowgraph
