import Flowgraph.Proofs.Redaction.Rules

/-! Tokens when the other two rules go first. A header or a pair takes a token as a whole or leaves it as a
whole, so the rule for tokens still finds whatever they have left of it. -/

namespace Flowgraph.Redaction

variable {c : Char} {cs xs ys ys' m m' rest rest' : List Char} {l k k' t : List Chunk} {h : Hit}
  {w w' v : Bool} {rule : Rule}

section Unique

/-- There is one way to split a text. -/
theorem Splits.unique {l' : List Chunk} (sound : rule.Sound) (split : Splits rule w cs l)
    (split' : Splits rule w cs l') : l = l' := by
  induction split generalizing l' with
  | nil =>
    generalize htext : [] = text at split'
    cases split' with
    | nil => rfl
    | plain => cases htext
    | hit found _ => exact absurd (List.append_eq_nil_iff.1 htext.symm).1 (sound found).1
  | @plain w c cs l free _ ih =>
    generalize htext : c :: cs = text at split'
    cases split' with
    | nil => cases htext
    | plain _ rest' =>
      obtain ⟨rfl, rfl⟩ := List.cons.inj htext
      rw [ih rest']
    | hit found _ => simp [← htext, free rfl] at found
  | @hit h cs l found _ ih =>
    obtain ⟨_, l', htext, rfl, rest'⟩ := split'.of_found sound found
    obtain rfl := List.append_cancel_left htext
    rw [ih rest']

/-- What stands at the start of a text is one token at most. -/
theorem TokenStands.unique (stands : TokenStands m rest) (stands' : TokenStands m' rest')
    (htext : m ++ rest = m' ++ rest') : m = m' := by
  cases stands with
  | secret _ all stops =>
    cases stands' with
    | secret _ all' stops' =>
      simp only [List.append_assoc, List.append_cancel_left_eq] at htext
      rw [(eq_of_append_stops all stops all' stops' htext).1]
    | _ => simp at htext
  | web _ _ _ head_all body_all signature_all stops =>
    cases stands' with
    | web _ _ _ head_all' body_all' signature_all' stops' =>
      simp only [List.append_assoc, List.cons_append, List.append_cancel_left_eq] at htext
      have dot : ∀ cs, Stops isKeyChar ('.' :: cs) := fun cs => by simp [isKeyChar]
      obtain ⟨rfl, hbody⟩ := eq_of_append_stops head_all (dot _) head_all' (dot _) htext
      obtain ⟨rfl, hsign⟩ :=
        eq_of_append_stops body_all (dot _) body_all' (dot _) (List.cons.inj hbody).2
      rw [(eq_of_append_stops signature_all stops signature_all' stops' (List.cons.inj hsign).2).1]
    | _ => simp at htext
  | hub _ _ all stops =>
    cases stands' with
    | hub _ _ all' stops' =>
      simp only [List.cons_append, List.nil_append, List.cons.injEq, true_and] at htext
      obtain ⟨rfl, hbody⟩ := htext
      rw [(eq_of_append_stops all stops all' stops' hbody).1]
    | _ => simp at htext
  | chat _ _ all stops =>
    cases stands' with
    | chat _ _ all' stops' =>
      simp only [List.cons_append, List.nil_append, List.cons.injEq, true_and] at htext
      obtain ⟨rfl, hbody⟩ := htext
      rw [(eq_of_append_stops all stops all' stops' hbody).1]
    | _ => simp at htext
  | access length _ _ =>
    cases stands' with
    | access length' _ _ =>
      simp only [List.append_assoc, List.append_cancel_left_eq] at htext
      rw [(List.append_inj htext (length.trans length'.symm)).1]
    | _ => simp at htext

theorem tokenRule_of_stands (stands : TokenStands m rest) :
    tokenRule (m ++ rest) = some ⟨m, redacted⟩ := by
  obtain ⟨m', hm'⟩ := Option.ne_none_iff_exists'.1 (stands.ne_none fun _ => id)
  obtain ⟨rest', htext, stands'⟩ := token?_stands hm'
  obtain rfl := stands.unique stands' htext
  rw [tokenRule, hm', Option.map_some]

end Unique

section Signs

/-- The characters of tokens. -/
def isTokenChar (c : Char) : Bool := isKeyChar c || c == '.'

/-- The characters of tokens and of words. All others are signs. -/
def isInner (c : Char) : Bool := isTokenChar c || Text.isWord c

theorem Stops.token (stops : Stops isInner cs) : Stops isTokenChar cs :=
  stops.mono fun c hc => by simp [isInner, hc]

theorem TokenStands.isTokenChar (stands : TokenStands m rest) (hc : c ∈ m) : isTokenChar c = true := by
  simpa [Redaction.isTokenChar] using stands.char hc

theorem isTokenChar_of_found (found : tokenRule cs = some h) (hc : c ∈ h.matched) :
    isTokenChar c = true := by
  obtain ⟨m, _, rfl, -, stands⟩ := tokenRule_stands found
  exact stands.isTokenChar hc

/-- A token stands before any text that goes on with it as little. -/
theorem TokenStands.before (stands : TokenStands m rest)
    (le : ∀ p : Char → Bool, (∀ c, p c = true → isInner c = true) → Stops p rest → Stops p rest') :
    TokenStands m rest' := by
  cases stands with
  | secret length all stops =>
    exact .secret length all (le _ (fun c hc => by simp [isInner, Redaction.isTokenChar, hc]) stops)
  | web head_ne body_ne signature_ne head_all body_all signature_all stops =>
    exact .web head_ne body_ne signature_ne head_all body_all signature_all
      (le _ (fun c hc => by simp [isInner, Redaction.isTokenChar, hc]) stops)
  | hub isKind length all stops =>
    refine .hub isKind length all (le _ (fun c hc => ?_) stops)
    simp [isInner, isWord_of_isAlphanum hc]
  | chat isKind length all stops =>
    refine .chat isKind length all (le _ (fun c hc => ?_) stops)
    rcases Bool.or_eq_true_iff.1 hc with hc | hc <;> simp [isInner, Redaction.isTokenChar, isKeyChar, hc]
  | access length all stops =>
    exact .access length all (le _ (fun c hc => by simp [isInner, hc]) stops)

theorem stops_append_of_stops {p : Char → Bool} (le : ∀ c, p c = true → isInner c = true)
    (stops' : Stops isInner ys') (stops : Stops p (xs ++ ys)) : Stops p (xs ++ ys') := by
  cases xs with
  | nil => exact stops'.mono le
  | cons x xs => simpa using stops

theorem tokenRule_before (stops : Stops isInner ys) (stops' : Stops isInner ys')
    (found : tokenRule (xs ++ ys) = some h) : tokenRule (xs ++ ys') = some h := by
  obtain ⟨m, rest, rfl, htext, stands⟩ := tokenRule_stands found
  obtain ⟨xs, rfl, rfl⟩ : ∃ xs', xs = m ++ xs' ∧ rest = xs' ++ ys := by
    rcases List.append_eq_append_iff.1 htext with ⟨as, rfl, rfl⟩ | ⟨as, rfl, rfl⟩
    · cases as with
      | nil => exact ⟨[], by simp⟩
      | cons a as =>
        have ha := stands.isTokenChar (c := a) (by simp)
        simp [isInner, ha] at stops
    · exact ⟨as, rfl, rfl⟩
  rw [List.append_assoc]
  exact tokenRule_of_stands (stands.before fun p le => stops_append_of_stops le stops')

/-- Which token stands at the start is told by the text up to the next sign. -/
theorem tokenRule_congr (stops : Stops isInner ys) (stops' : Stops isInner ys') :
    tokenRule (xs ++ ys) = tokenRule (xs ++ ys') :=
  Option.ext fun _ => ⟨tokenRule_before stops stops', tokenRule_before stops' stops⟩

end Signs

section Cuts

/-- No token reaches over the cut of a text where one side has no character for it. -/
theorem Splits.parts (split : Splits tokenRule w (xs ++ ys) l)
    (ends : Stops isTokenChar ys ∨ ∀ c ∈ xs.getLast?, isTokenChar c = false) :
    ∃ before after, l = before ++ after ∧ sources before = xs ∧
      Splits tokenRule (endsInWord w xs) ys after := by
  rcases split.of_append with parted | ⟨k, -⟩
  · exact parted
  have inside : ∀ c ∈ k.first ++ k.second, isTokenChar c = true := fun c hc =>
    isTokenChar_of_found k.found (k.matched_eq ▸ hc)
  rcases ends with stops | last
  · obtain ⟨a, second, hsecond⟩ := List.exists_cons_of_ne_nil k.second_ne
    have ha := inside a (by simp [hsecond])
    simp [k.ys_eq, hsecond, ha] at stops
  · obtain ⟨first, a, hfirst⟩ := List.eq_nil_or_concat k.first |>.resolve_left k.first_ne
    have ha := inside a (by simp [hfirst])
    have hlast := last a (by simp [k.xs_eq, hfirst])
    simp [ha] at hlast

theorem Splits.of_plain (split : Splits rule w cs (.plain c :: l)) : ∃ tail, cs = c :: tail ∧
    (w = false → rule cs = none) ∧ Splits rule (Text.isWord c) tail l := by
  cases split with
  | plain free tail => exact ⟨_, rfl, free, tail⟩

theorem Splits.of_hit (split : Splits rule w cs (.hit h :: l)) : w = false ∧ rule cs = some h ∧
    ∃ tail, cs = h.matched ++ tail ∧ Splits rule (endsInWord false h.matched) tail l := by
  cases split with
  | hit found tail => exact ⟨rfl, found, _, rfl, tail⟩

/-- Before a sign, what comes after it does not matter. -/
theorem Splits.change_after (split : Splits tokenRule w (xs ++ ys) (l ++ k)) (hl : sources l = xs)
    (stops : Stops isInner ys) (stops' : Stops isInner ys')
    (after : Splits tokenRule (endsInWord w xs) ys' k') :
    Splits tokenRule w (xs ++ ys') (l ++ k') := by
  induction l generalizing w xs with
  | nil =>
    obtain rfl : [] = xs := hl
    exact after
  | cons chunk l ih =>
    subst hl
    cases chunk with
    | plain c =>
      obtain ⟨tail, htext, free, rest⟩ := split.of_plain
      obtain rfl : sources l ++ ys = tail := (List.cons.inj htext).2
      have same : tokenRule (c :: sources l ++ ys) = tokenRule (c :: sources l ++ ys') :=
        tokenRule_congr stops stops'
      exact .plain (fun hw => same.symm.trans (free hw)) (ih rest rfl after)
    | hit h =>
      obtain ⟨rfl, found, tail, htext, rest⟩ := split.of_hit
      rw [sources_hit, List.append_assoc] at htext ⊢
      obtain rfl : sources l ++ ys = tail := List.append_cancel_left htext
      have same : tokenRule (h.matched ++ sources l ++ ys) = tokenRule (h.matched ++ sources l ++ ys') :=
        tokenRule_congr stops stops'
      refine .hit ?_ (ih rest rfl (by simpa using after))
      rw [← List.append_assoc, ← same]
      exact found

/-- Where no token can start, it does not matter whether a word is going on. -/
theorem Splits.change_word (split : Splits tokenRule w cs l) (stops : Stops isTokenChar cs) :
    Splits tokenRule w' cs l := by
  have free : ∀ h, tokenRule cs ≠ some h := by
    intro h found
    obtain ⟨m, _, rfl, rfl, stands⟩ := tokenRule_stands found
    obtain ⟨a, tail, rfl, -⟩ := stands.head
    have ha := stands.isTokenChar (c := a) (by simp)
    simp [ha] at stops
  cases split with
  | nil => exact .nil
  | plain _ tail => exact .plain (fun _ => Option.eq_none_iff_forall_ne_some.2 free) tail
  | hit found _ => exact absurd found (free _)

end Cuts

section Rules

/-- A hit keeps a word and masks what follows it, from a sign on and not within a token. -/
inductive Hit.Spares : Hit → List Char → Prop
  | intro {word masked : List Char} {first sign : Char} {rest : List Char}
    (isSign_first : isInner first = false) (isSign : isInner sign = false)
    (known : sign ∈ marks ∨ sign ∈ first :: masked)
    (ends : Stops isTokenChar rest ∨ ∀ c ∈ (first :: masked).getLast?, isInner c = false) :
    Spares ⟨word ++ first :: masked, word ++ sign :: redacted⟩ rest

/-- No hit of the rule cuts through a token. -/
def Rule.Spares (rule : Rule) : Prop :=
  ∀ ⦃h : Hit⦄ ⦃cs : List Char⦄, rule (h.matched ++ cs) = some h → h.Spares cs

/-- Only the characters of tokens are hidden with them. -/
theorem FoundBy.mem_showns_of_sign (found : FoundBy tokenRule l) (hc : c ∈ sources l)
    (sign : isInner c = false) : c ∈ showns l := by
  obtain ⟨chunk, hchunk, hmem⟩ := List.mem_flatMap.1 hc
  refine List.mem_flatMap.2 ⟨chunk, hchunk, ?_⟩
  cases chunk with
  | plain a => exact hmem
  | hit h =>
    obtain ⟨_, hrule⟩ := found h hchunk
    simp [isInner, isTokenChar_of_found hrule hmem] at sign

/-- Behind what was masked, the rest is judged as if no word were going on. -/
theorem Splits.afresh (split : Splits tokenRule (endsInWord w xs) cs l) (ne : xs ≠ [])
    (ends : Stops isTokenChar cs ∨ ∀ c ∈ xs.getLast?, isInner c = false) :
    Splits tokenRule false cs l := by
  rcases ends with stops | last
  · exact split.change_word stops
  · obtain ⟨init, a, rfl⟩ := List.eq_nil_or_concat xs |>.resolve_left ne
    have ha := Bool.or_eq_false_iff.1 (last a (by simp))
    simpa [ha.2] using split

/-- The signs for a secret are chunks of their own. -/
theorem Splits.behind_signs (split : Splits tokenRule false cs l) (w : Bool) (sign : Char) :
    ∃ signs, sources signs = sign :: redacted ∧
      Splits tokenRule w (sign :: redacted ++ cs) (signs ++ l) := by
  have whole := splits_scan tokenRule_sound w (sign :: redacted ++ cs)
  have hlast : ∀ c ∈ (sign :: redacted).getLast?, isTokenChar c = false := by
    rintro _ ⟨⟩
    rfl
  obtain ⟨signs, l', hl, hsigns, split'⟩ := whole.parts (.inr hlast)
  obtain rfl : l = l' := split.unique tokenRule_sound (by simpa using split')
  exact ⟨signs, hsigns, hl ▸ whole⟩

/-- What the tokens of a text cover is covered also when the rule has gone first. -/
theorem Splits.covers (spares : rule.Spares) (split : Splits rule w cs l)
    (tokens : Splits tokenRule v (xs ++ cs) t) : ∃ t', Splits tokenRule v (xs ++ showns l) t' ∧
      ∀ c ∈ showns t', c ∈ showns t ∨ c ∈ marks := by
  -- the characters between the hits gather in `xs`
  induction split generalizing v xs t with
  | nil => exact ⟨t, tokens, fun c => .inl⟩
  | @plain _ c cs l _ _ ih =>
    have gathered : Splits tokenRule v ((xs ++ [c]) ++ cs) t := by simpa using tokens
    obtain ⟨t', tokens', covered⟩ := ih gathered
    exact ⟨t', by simpa using tokens', covered⟩
  | @hit h cs l found _ ih =>
    obtain @⟨word, masked, first, sign, _, isSign_first, isSign, known, ends⟩ := spares found
    have stops : ∀ {a : Char} cs, isInner a = false → Stops isInner (a :: cs) := fun cs ha => by simpa
    have htext : xs ++ (word ++ first :: masked ++ cs) = (xs ++ word) ++ (first :: masked ++ cs) := by
      simp
    have hshown : xs ++ (word ++ sign :: redacted ++ showns l) =
        (xs ++ word) ++ (sign :: redacted ++ showns l) := by simp
    rw [htext] at tokens
    rw [showns_hit, hshown]
    -- the text before the sign, what is masked, and the rest
    obtain ⟨t₀, t₁, rfl, ht₀, tokens₁⟩ := tokens.parts (.inl (stops _ isSign_first).token)
    obtain ⟨t₁, t₂, rfl, ht₁, tokens₂⟩ := tokens₁.parts
      (ends.imp_right fun last c hc => (Bool.or_eq_false_iff.1 (last c hc)).1)
    have behind : Splits tokenRule false ([] ++ cs) t₂ := tokens₂.afresh (by simp) ends
    obtain ⟨t₃, tokens₃, covered⟩ := ih behind
    obtain ⟨signs, hsigns, shown⟩ := tokens₃.behind_signs (endsInWord v (xs ++ word)) sign
    refine ⟨_, tokens.change_after ht₀ (stops _ isSign_first) (stops _ isSign) shown, fun c hc => ?_⟩
    simp only [showns_append, List.mem_append] at hc ⊢
    rcases hc with hc | hc | hc
    · exact .inl (.inl hc)
    · rcases (shown.foundBy.subset (by simp)).mem_showns tokenRule_marks hc with hc | hc
      · rw [hsigns] at hc
        rcases List.mem_cons.1 hc with rfl | hc
        · refine known.symm.imp_left fun hc => .inr (.inl ?_)
          exact (tokens.foundBy.subset (by simp)).mem_showns_of_sign (ht₁ ▸ hc) isSign
        · exact .inr (.tail _ hc)
      · exact .inr hc
    · exact (covered c hc).imp_left fun hc => .inr (.inr hc)

theorem mem_mask_token (sound : rule.Sound) (spares : rule.Spares)
    (hc : c ∈ mask tokenRule (mask rule cs)) : c ∈ mask tokenRule cs ∨ c ∈ marks := by
  have tokens : Splits tokenRule false ([] ++ cs) (chunks tokenRule cs) :=
    splits_chunks tokenRule_sound cs
  obtain ⟨t', tokens', covered⟩ := (splits_chunks sound cs).covers spares tokens
  have same : chunks tokenRule (mask rule cs) = t' :=
    (splits_chunks tokenRule_sound _).unique tokenRule_sound tokens'
  rw [mask_eq, same] at hc
  exact covered c hc

end Rules

section Classes

theorem isAuthChar_of_isTokenChar (hc : isTokenChar c = true) : isAuthChar c = true := by
  simp only [isTokenChar, isKeyChar, isAuthChar, Bool.or_eq_true] at hc ⊢
  rcases hc with ((hc | hc) | hc) | hc <;> simp [hc]

theorem isValueChar_of_isTokenChar (hc : isTokenChar c = true) : isValueChar c = true := by
  simp only [isTokenChar, isKeyChar, Bool.or_eq_true, beq_iff_eq] at hc
  rcases hc with ((hc | rfl) | rfl) | rfl
  · exact isValueChar_of_isAlphanum hc
  all_goals rfl

/-- Where the blanks stand among all characters. -/
def blankCodes : List Nat :=
  [9, 10, 11, 12, 13, 0x20, 0x85, 0xa0, 0x1680, 0x2000, 0x2001, 0x2002, 0x2003, 0x2004, 0x2005, 0x2006,
    0x2007, 0x2008, 0x2009, 0x200a, 0x2028, 0x2029, 0x202f, 0x205f, 0x3000]

theorem isWord_of_isBlank (hc : Text.isBlank c = true) : Text.isWord c = false := by
  have known : c.toNat ∈ blankCodes := by
    simp only [Text.isBlank, Bool.or_eq_true, Bool.and_eq_true, decide_eq_true_eq, beq_iff_eq] at hc
    simp only [blankCodes, List.mem_cons, List.not_mem_nil, or_false]
    rcases hc with (((((((((hc | hc) | hc) | hc) | hc) | hc) | hc) | hc) | hc) | hc) | hc <;> omega
  have ascii : ∀ n ∈ blankCodes, n < 128 → Text.isAsciiWord (Char.ofNat n) = false := by decide
  have outside : (Text.wordRanges.all fun r => blankCodes.all fun n => !(r.1.ble n && n.ble r.2)) =
      true := by decide +kernel
  rw [Text.isWord]
  split
  · next small => simpa using ascii _ known small
  · rw [Bool.eq_false_iff, Ne, Text.Ranges.has_iff]
    rintro ⟨r, hr, low, high⟩
    have := List.all_eq_true.1 (List.all_eq_true.1 outside r hr) _ known
    simp [Nat.ble_eq_true_of_le low, Nat.ble_eq_true_of_le high] at this

theorem isInner_of_isBlank (hc : Text.isBlank c = true) : isInner c = false := by
  refine Bool.or_eq_false_iff.2 ⟨Bool.eq_false_iff.2 fun htoken => ?_, isWord_of_isBlank hc⟩
  simp [isBlank_of_isAuthChar (isAuthChar_of_isTokenChar htoken)] at hc

end Classes

theorem authRule_spares : Rule.Spares authRule := by
  intro h cs found
  obtain ⟨a, rfl, stands⟩ := authRule_stands_before found
  obtain ⟨b, blanks, hblanks⟩ := List.exists_cons_of_ne_nil stands.blanks_ne
  have hit : a.hit =
      ⟨a.scheme ++ b :: (blanks ++ a.credentials ++ a.padding), a.scheme ++ ' ' :: redacted⟩ := by
    simp [AuthHeader.hit, hblanks]
  rw [hit]
  have isSign : isInner b = false := isInner_of_isBlank (stands.blanks b (by simp [hblanks]))
  refine .intro isSign (by decide) (.inl (by decide)) ?_
  rcases List.eq_nil_or_concat a.padding with hpad | ⟨padding, p, hpad⟩
  · have stops := stands.stops
    rw [hpad, List.nil_append] at stops
    exact .inl (stops.mono fun c => isAuthChar_of_isTokenChar)
  · have hp : p = '=' := stands.padding p (by simp [hpad])
    have hlast : (b :: (blanks ++ a.credentials ++ a.padding)).getLast? = some p := by
      rw [hpad, List.concat_eq_append, ← List.append_assoc, ← List.cons_append, List.getLast?_concat]
    refine .inr fun c hc => ?_
    rw [hlast] at hc
    rw [← Option.some.inj hc, hp]
    decide

theorem pairRule_spares : Rule.Spares pairRule := by
  intro h cs found
  obtain ⟨p, rfl, stands⟩ := pairRule_stands_before found
  exact .intro (by decide) (by decide) (.inr (by simp))
    (.inl (stands.stops.mono fun c => isValueChar_of_isTokenChar))

/-- Whatever the token rule hides by itself stays hidden. -/
theorem mem_mask_token_of_redacted (hc : c ∈ redactChars cs) : c ∈ mask tokenRule cs ∨ c ∈ marks := by
  rcases mem_mask_token pairRule_sound pairRule_spares hc with hc | hc
  · exact mem_mask_token authRule_sound authRule_spares hc
  · exact .inr hc

/-- No character of a token survives. -/
theorem redactText_hides_token {text : String} {before after : List Chunk}
    (found : chunks tokenRule text.toList = before ++ .hit h :: after)
    (elsewhere : c ∉ sources before ++ sources after) (unmarked : c ∉ marks) :
    c ∉ (redactText text).toList := by
  have split := splits_chunks tokenRule_sound text.toList
  rw [found] at split
  intro hc
  rw [redactText, String.toList_ofList] at hc
  rcases mem_mask_token_of_redacted hc with hc | hc
  · rw [mask_eq, found, showns_append, showns_hit, List.mem_append, List.mem_append] at hc
    rcases hc with hc | hc | hc
    · rcases (split.foundBy.subset (by simp)).mem_showns tokenRule_marks hc with hc | hc
      · exact elsewhere (List.mem_append_left _ hc)
      · exact unmarked hc
    · obtain ⟨_, hrule⟩ := split.foundBy h (by simp)
      obtain ⟨_, _, rfl, -, -⟩ := tokenRule_stands hrule
      exact unmarked (.tail _ hc)
    · rcases (split.foundBy.subset (by simp)).mem_showns tokenRule_marks hc with hc | hc
      · exact elsewhere (List.mem_append_right _ hc)
      · exact unmarked hc
  · exact unmarked hc

/-- A header begins in the token, and a pair reaches over it. -/
theorem redactText_hides_token_within :
    '5' ∉ (redactText "token=sk-abcdefgh12345678-bearer zyxwvutsr").toList := by
  have found : chunks tokenRule "token=sk-abcdefgh12345678-bearer zyxwvutsr".toList =
      "token=".toList.map .plain ++ Chunk.hit ⟨"sk-abcdefgh12345678-bearer".toList, redacted⟩ ::
        " zyxwvutsr".toList.map .plain := by decide +kernel
  exact redactText_hides_token found (by decide +kernel) (by decide +kernel)

end Flowgraph.Redaction
