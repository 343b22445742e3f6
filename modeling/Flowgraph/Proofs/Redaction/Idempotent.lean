import Flowgraph.Proofs.Redaction.Starts
import Flowgraph.Redaction.Value

/-! Redacting twice. Each rule leaves nothing for itself to find, and the rules after it bring
nothing back, but for one place: a token can end in a word that a pair goes on with, and the signs
shown for the token set the pair free. -/

namespace Flowgraph.Redaction

variable {w : Bool} {cs cs' : List Char}

theorem prefix_of_not_mem {c : Char} {m xs ys : List Char} (h : m <+: xs ++ c :: ys)
    (not : c ∉ m) : m <+: xs := by
  have hsep : xs ++ [c] <+: xs ++ c :: ys := ⟨ys, by simp⟩
  rcases List.prefix_or_prefix_of_prefix h hsep with h | h
  · rcases List.prefix_concat_iff.1 h with rfl | h
    · simp at not
    · exact h
  · exact absurd (h.subset (by simp)) not

theorem prefix_of_signs {m xs ys : List Char} (h : m <+: xs ++ (redacted ++ ys)) (not : '[' ∉ m) :
    m <+: xs := by
  rw [redacted_eq] at h
  exact prefix_of_not_mem h not

theorem AuthHeader.scheme_prefix (a : AuthHeader) (rest : List Char) :
    a.scheme <+: a.hit.matched ++ rest :=
  ⟨a.blanks ++ a.credentials ++ a.padding ++ rest, by simp [AuthHeader.hit]⟩

theorem KeyValue.key_prefix (p : KeyValue) (rest : List Char) : p.key <+: p.hit.matched ++ rest :=
  ⟨'=' :: p.value ++ rest, by simp [KeyValue.hit]⟩

section Auth

theorem AuthShape.char {m : List Char} (shape : AuthShape m) {c : Char} (hc : c ∈ m) :
    Text.isWord c = true ∨ Text.isBlank c = true ∨ isAuthChar c = true := by
  obtain ⟨isScheme, -, isBlank, -, isAuth⟩ := shape
  simp only [List.mem_append] at hc
  rcases hc with (hc | hc) | hc
  · exact .inl (isScheme.isWord hc)
  · exact .inr (.inl (isBlank c hc))
  · exact .inr (.inr (isAuth c hc))

theorem AuthShape.not_mem {m : List Char} (shape : AuthShape m) : '=' ∉ m ∧ '[' ∉ m :=
  ⟨fun hc => absurd (shape.char hc) (by decide), fun hc => absurd (shape.char hc) (by decide)⟩

theorem AuthShape.blank {m : List Char} (shape : AuthShape m) : ∃ b, Text.isBlank b = true ∧ b ∈ m := by
  obtain ⟨-, blanks_ne, isBlank, -, -⟩ := shape
  obtain ⟨b, blanks, rfl⟩ := List.exists_cons_of_ne_nil blanks_ne
  exact ⟨b, isBlank b (by simp), by simp⟩

theorem AuthShape.ne_concat {m : List Char} (shape : AuthShape m) (xs : List Char) :
    m ≠ xs ++ [' '] := by
  obtain ⟨-, -, -, length, isAuth⟩ := shape
  rename_i credentials
  have hne : credentials ≠ [] := by
    rintro rfl
    simp at length
  intro h
  have hlast := congrArg List.getLast? h
  rw [List.getLast?_append_of_ne_nil _ hne, List.getLast?_concat] at hlast
  exact absurd (isAuth ' ' (List.mem_of_getLast? hlast)) (by decide)

theorem authRule_eq_none_of_stops {p : Char → Bool} (small : p 'b' = true) (capital : p 'B' = true)
    (stops : Stops p cs) : authRule cs = none := by
  by_contra hne
  obtain ⟨h, found⟩ := Option.ne_none_iff_exists'.1 hne
  obtain ⟨a, rest, rfl, rfl, stands⟩ := authRule_stands found
  obtain ⟨c, tail, hscheme, hc⟩ := stands.scheme.head
  have : p c = false := by simpa [AuthHeader.hit, hscheme] using stops
  simp at hc
  grind

theorem auth_alike_auth (alike : Alike authRule w cs cs') (free : authRule cs = none) :
    authRule cs' = none := by
  rw [authRule_eq_none_iff] at free ⊢
  cases alike with
  | same => exact free
  | @hit xs ys ys' _ found _ =>
    obtain ⟨a, _, rfl, -, -⟩ := authRule_stands found
    rintro m shape hm
    have hm : m <+: (xs ++ a.scheme ++ [' ']) ++ (redacted ++ ys') := by
      simpa [AuthHeader.hit] using hm
    refine free m shape ?_
    rcases List.prefix_concat_iff.1 (prefix_of_signs hm shape.not_mem.2) with rfl | hm
    · exact absurd rfl (shape.ne_concat _)
    · exact hm.trans ((List.prefix_append_right_inj xs).2 (a.scheme_prefix ys))

theorem auth_alike_pair (alike : Alike pairRule w cs cs') (free : authRule cs = none) :
    authRule cs' = none := by
  rw [authRule_eq_none_iff] at free ⊢
  cases alike with
  | same => exact free
  | @hit xs ys ys' _ found _ =>
    obtain ⟨p, _, rfl, -, -⟩ := pairRule_stands found
    rintro m shape hm
    have hm : m <+: (xs ++ p.key) ++ '=' :: (redacted ++ ys') := by
      simpa [KeyValue.hit] using hm
    exact free m shape ((prefix_of_not_mem hm shape.not_mem.1).trans
      ((List.prefix_append_right_inj xs).2 (p.key_prefix ys)))

theorem auth_alike_token (alike : Alike tokenRule w cs cs') (free : authRule cs = none) :
    authRule cs' = none := by
  rw [authRule_eq_none_iff] at free ⊢
  cases alike with
  | same => exact free
  | hit _ found _ =>
    obtain ⟨t, _, rfl, -, -⟩ := tokenRule_stands found
    exact fun m shape hm =>
      free m shape ((prefix_of_signs hm shape.not_mem.2).trans (List.prefix_append _ _))

end Auth

section Pairs

/-- A pair found there is masked already. -/
def Masked (cs : List Char) : Prop := ∀ h, pairRule cs = some h → h.shown = h.matched

theorem masked_of_eq_none (free : pairRule cs = none) : Masked cs := by simp [Masked, free]

theorem pairRule_eq_none_of_stops (stops : Stops isValueChar cs) : pairRule cs = none := by
  by_contra hne
  obtain ⟨h, found⟩ := Option.ne_none_iff_exists'.1 hne
  obtain ⟨p, rest, rfl, rfl, stands⟩ := pairRule_stands found
  obtain ⟨c, key, hkey⟩ := List.exists_cons_of_ne_nil stands.key.ne_nil
  simp [KeyValue.hit, hkey, stands.key.isValueChar (c := c) (by simp [hkey])] at stops

theorem pairRule_ne_none {key : List Char} (isKey : IsKey key) (ne : cs ≠ [])
    (value : ¬ Stops isValueChar cs) : pairRule (key ++ '=' :: cs) ≠ none := by
  obtain ⟨c, cs, rfl⟩ := List.exists_cons_of_ne_nil ne
  have := keyValue?_ne_none isKey (by simpa using value) cs
  simpa [pairRule] using this

theorem not_stops_append {p : Char → Bool} {cs : List Char} (ne : cs ≠ []) (all : ∀ c ∈ cs, p c = true)
    (rest : List Char) : ¬ Stops p (cs ++ rest) := by
  obtain ⟨c, cs, rfl⟩ := List.exists_cons_of_ne_nil ne
  simp [all c (by simp)]

theorem pair_alike_pair (alike : Alike pairRule w cs cs') (free : pairRule cs = none) :
    pairRule cs' = none := by
  cases alike with
  | same => exact free
  | @hit xs ys ys' _ found _ =>
    obtain ⟨p, rest, rfl, htext, stands⟩ := pairRule_stands found
    by_contra hne
    obtain ⟨h, found'⟩ := Option.ne_none_iff_exists'.1 hne
    obtain ⟨q, rest', rfl, htext', stands'⟩ := pairRule_stands found'
    have hvalue := not_stops_append stands'.value_ne stands'.value rest'
    simp only [KeyValue.hit, List.append_assoc, List.cons_append] at htext' free
    by_cases hsign : '=' ∈ xs ++ p.key
    -- the first equals sign is before the one of the hit
    · obtain ⟨key, tail, hkey, hnot⟩ := List.eq_append_cons_of_mem hsign
      have hcut : ∀ us, xs ++ (p.key ++ '=' :: us) = key ++ '=' :: (tail ++ '=' :: us) := fun us => by
        rw [← List.append_assoc, hkey]
        simp
      rw [hcut] at htext' free
      obtain ⟨rfl, hrest⟩ := eq_of_append_sep hnot stands'.key.not_mem htext'
      refine pairRule_ne_none stands'.key (by simp) ?_ free
      rw [← hrest] at hvalue
      cases tail <;> simpa using hvalue
    · rw [← List.append_assoc] at htext' free
      obtain ⟨hkey, -⟩ := eq_of_append_sep hsign stands'.key.not_mem htext'
      rw [hkey] at free
      exact pairRule_ne_none stands'.key (by simp [stands.value_ne])
        (not_stops_append stands.value_ne stands.value _) free

theorem redacted_ne_nil : redacted ≠ [] := by decide

theorem redacted_value : ∀ c ∈ redacted, isValueChar c = true := List.all_eq_true.1 (by decide)

/-- No pair begins where a value ends. -/
theorem pair_alike_stops (alike : Alike pairRule w cs cs') (stops : Stops isValueChar cs) :
    Stops isValueChar cs' := by
  cases alike with
  | same => exact stops
  | @hit xs ys ys' _ found _ =>
    obtain ⟨q, _, rfl, -, stands⟩ := pairRule_stands found
    cases xs with
    | nil =>
      have := not_stops_append stands.key.ne_nil (fun c hc => stands.key.isValueChar hc)
      simp [KeyValue.hit, this] at stops
    | cons x xs => simpa using stops

theorem masked_pair {h : Hit} {ys ys' : List Char} (found : pairRule (h.matched ++ ys) = some h)
    (alike : Alike pairRule w ys ys') : Masked (h.shown ++ ys') := by
  obtain ⟨p, rfl, stands⟩ := pairRule_stands_before found
  have stops := pair_alike_stops alike stands.stops
  have masked : pairRule (p.hit.shown ++ ys') = some (KeyValue.hit ⟨p.key, redacted⟩) := by
    refine Option.map_eq_some_iff.2 ⟨_, keyValue?_eq_some.2 ⟨ys', rfl, ?_⟩, rfl⟩
    exact ⟨stands.key, redacted_ne_nil, redacted_value, stops⟩
  intro h hh
  rw [masked] at hh
  obtain rfl := Option.some.inj hh
  rfl

/-- Inside the signs no token begins where no word is going on. -/
theorem endsInWord_of_redacted {c : Char} {before after : List Char}
    (h : redacted = before ++ c :: after) (hc : c ∈ ['s', 'e', 'g', 'x', 'A']) :
    endsInWord false before = true := by
  have places : ∀ n < redacted.length, redacted[n]?.all (· ∈ ['s', 'e', 'g', 'x', 'A']) = true →
      endsInWord false (redacted.take n) = true := by decide
  have := places before.length (by simp [h]) (by simpa [h] using hc)
  simpa [h] using this

/-- A key that stands before signs shown for a token stands before the token. -/
theorem KeyValue.Stands.before_signs {q : KeyValue} {xs ys rest : List Char} (stands : q.Stands rest)
    (htext : xs ++ (redacted ++ ys) = q.hit.matched ++ rest) :
    ∃ tail, xs = q.key ++ '=' :: tail ∧ tail ++ (redacted ++ ys) = q.value ++ rest := by
  have hkey : '[' ∉ q.key ++ ['='] := by
    have hword := fun hc => stands.key.isWord (c := '[') hc
    simpa using fun hc => absurd (hword hc) (by decide)
  obtain ⟨tail, rfl⟩ : q.key ++ ['='] <+: xs :=
    prefix_of_signs ⟨q.value ++ rest, by simpa [KeyValue.hit] using htext.symm⟩ hkey
  exact ⟨tail, by simp, by simpa [KeyValue.hit] using htext⟩

/-- Where a pair is masked, its value is the signs. -/
theorem Masked.value {key us : List Char} (masked : Masked (key ++ '=' :: us)) (isKey : IsKey key)
    (value : ¬ Stops isValueChar us) : ∃ rest, us = redacted ++ rest ∧ Stops isValueChar rest := by
  have hne : us ≠ [] := by
    rintro rfl
    exact value stops_nil
  obtain ⟨h, found⟩ := Option.ne_none_iff_exists'.1 (pairRule_ne_none isKey hne value)
  have hshown := masked h found
  obtain ⟨p, rest, rfl, htext, stands⟩ := pairRule_stands found
  simp only [KeyValue.hit, List.append_assoc, List.cons_append] at htext hshown
  obtain ⟨-, hus⟩ := eq_of_append_sep isKey.not_mem stands.key.not_mem htext
  obtain hp : redacted = p.value := by simpa using hshown
  exact ⟨rest, by rw [hus, hp], stands.stops⟩

theorem masked_alike_token (alike : Alike tokenRule w cs cs') (masked : Masked cs) :
    Masked cs' := by
  cases alike with
  | same => exact masked
  | @hit xs ys ys' _ found starts =>
    obtain ⟨m, _, rfl, -, token⟩ := tokenRule_stands found
    obtain ⟨c, m, rfl, hc⟩ := token.head
    have hletter : isValueChar c = true := by
      have letters : ∀ c ∈ ['s', 'e', 'g', 'x', 'A'], isValueChar c = true :=
        List.all_eq_true.1 (by decide)
      exact letters c hc
    intro h found'
    obtain ⟨q, rest, rfl, htext, stands⟩ := pairRule_stands found'
    obtain ⟨tail, rfl, hrest⟩ := stands.before_signs htext
    simp only [List.append_assoc, List.cons_append] at masked
    have hvalue : ¬ Stops isValueChar (tail ++ (c :: m ++ ys)) := by
      have hsigns := not_stops_append stands.value_ne stands.value rest
      rw [← hrest] at hsigns
      cases tail with
      | nil => simp [hletter]
      | cons x tail => simpa using hsigns
    obtain ⟨rest', hrest', hstops⟩ := masked.value stands.key hvalue
    have hnext : rest' ≠ c :: m ++ ys := by
      rintro rfl
      simp [hletter] at hstops
    rcases List.append_eq_append_iff.1 hrest' with ⟨t, ht, hys⟩ | ⟨t, rfl, hys⟩
    -- the token cannot begin inside the signs
    · cases t with
      | nil => exact absurd hys.symm hnext
      | cons x t =>
        obtain rfl : c = x := (List.cons.inj hys).1
        have hword := endsInWord_of_redacted ht hc
        have hsep : Text.isWord '=' = false := by decide
        simp [hsep, hword] at starts
    -- so the value ends before it, and is the signs as before
    · cases t with
      | nil => exact absurd hys hnext
      | cons x t =>
        have hstops' : Stops isValueChar (x :: t ++ (redacted ++ ys')) := by
          simpa [hys] using hstops
        rw [List.append_assoc] at hrest
        obtain ⟨hq, -⟩ :=
          eq_of_append_stops redacted_value hstops' stands.value stands.stops hrest
        simp [KeyValue.hit, hq]

end Pairs

section Tokens

theorem tokenRule_eq_none_of_stops (stops : Stops Char.isAlphanum cs) : tokenRule cs = none := by
  by_contra hne
  obtain ⟨h, found⟩ := Option.ne_none_iff_exists'.1 hne
  obtain ⟨m, rest, rfl, rfl, stands⟩ := tokenRule_stands found
  obtain ⟨c, tail, rfl, hc⟩ := stands.head
  have letters : ∀ c ∈ ['s', 'e', 'g', 'x', 'A'], c.isAlphanum = true :=
    List.all_eq_true.1 (by decide)
  simp [letters c hc] at stops

theorem token_alike_token (alike : Alike tokenRule w cs cs') (free : tokenRule cs = none) :
    tokenRule cs' = none := by
  cases alike with
  | same => exact free
  | @hit xs ys ys' _ found starts =>
    obtain ⟨m, rest, rfl, -, -⟩ := tokenRule_stands found
    by_contra hne
    obtain ⟨h, found'⟩ := Option.ne_none_iff_exists'.1 hne
    obtain ⟨m', rest', rfl, htext, stands⟩ := tokenRule_stands found'
    obtain ⟨tail, rfl⟩ : m' <+: xs := prefix_of_signs ⟨rest', htext.symm⟩ stands.not_mem.2
    obtain rfl : tail ++ (redacted ++ ys') = rest' := by simpa using htext
    have hne' : token? (m' ++ (tail ++ (m ++ ys))) ≠ none := by
      refine stands.ne_none fun hword stops => ?_
      cases tail with
      -- the other token ends where this one begins, and no word is going on there
      | nil =>
        obtain ⟨c, m', rfl, -⟩ := stands.head
        simp_all
      | cons c tail => simpa using stops
    simp [tokenRule] at free
    exact hne' free

/-- A token stands before the equals sign of a pair or begins after it, and takes no part of it. -/
theorem token_alike_pair (alike : Alike pairRule w cs cs') (free : tokenRule cs = none) :
    tokenRule cs' = none := by
  cases alike with
  | same => exact free
  | @hit xs ys ys' _ found _ =>
    obtain ⟨p, _, rfl, -, -⟩ := pairRule_stands found
    by_contra hne
    obtain ⟨h, found'⟩ := Option.ne_none_iff_exists'.1 hne
    obtain ⟨m, rest, rfl, htext, stands⟩ := tokenRule_stands found'
    simp only [KeyValue.hit, List.append_assoc, List.cons_append] at htext free
    rw [← List.append_assoc] at htext free
    obtain ⟨tail, htail⟩ : m <+: xs ++ p.key :=
      prefix_of_not_mem ⟨rest, htext.symm⟩ stands.not_mem.1
    rw [← htail, List.append_assoc] at htext free
    obtain rfl := List.append_cancel_left htext
    have hne' : token? (m ++ (tail ++ '=' :: (p.value ++ ys))) ≠ none :=
      stands.ne_none fun _ stops => by cases tail <;> simpa using stops
    simp [tokenRule] at free
    exact hne' free

/-- Behind the signs shown for a token, no pair is left to mask. -/
def apart : List Chunk → Bool
  | [] => true
  | .plain _ :: l => apart l
  | .hit _ :: l => (pairRule (showns l)).all (fun h => h.shown = h.matched) && apart l

theorem apart_iff {l : List Chunk} :
    apart l = true ↔ ∀ h l', .hit h :: l' <:+ l → Masked (showns l') := by
  induction l with
  | nil => simp [apart]
  | cons chunk l ih =>
    cases chunk with
    | plain c => simp [apart, ih, List.suffix_cons_iff]
    | hit h =>
      have signs : (pairRule (showns l)).all (fun h => h.shown = h.matched) = true ↔
          Masked (showns l) := by
        rw [Masked]
        cases pairRule (showns l) <;> simp
      simp [apart, ih, signs, List.suffix_cons_iff, or_imp, forall_and]

end Tokens

section Masks

theorem authRule_shows {h : Hit} (found : authRule cs = some h) : Shows h.shown := by
  obtain ⟨a, _, rfl, -, stands⟩ := authRule_stands found
  obtain ⟨c, tail, hscheme, -⟩ := stands.scheme.head
  refine .inr ⟨c, tail, ' ', fun x hx => stands.scheme.isWord (hscheme ▸ hx), by decide, ?_⟩
  simp [AuthHeader.hit, hscheme]

theorem pairRule_shows {h : Hit} (found : pairRule cs = some h) : Shows h.shown := by
  obtain ⟨p, _, rfl, -, stands⟩ := pairRule_stands found
  obtain ⟨c, tail, hkey⟩ := List.exists_cons_of_ne_nil stands.key.ne_nil
  refine .inr ⟨c, tail, '=', fun x hx => stands.key.isWord (hkey ▸ hx), by decide, ?_⟩
  simp [KeyValue.hit, hkey]

theorem tokenRule_shows {h : Hit} (found : tokenRule cs = some h) : Shows h.shown := by
  obtain ⟨m, _, rfl, -, -⟩ := tokenRule_stands found
  exact .inl rfl

theorem signs_free (cs : List Char) :
    (authRule (redacted ++ cs) = none ∧ authRule (redacted.tail ++ cs) = none) ∧
      (pairRule (redacted ++ cs) = none ∧ pairRule (redacted.tail ++ cs) = none) ∧
      tokenRule (redacted ++ cs) = none ∧ tokenRule (redacted.tail ++ cs) = none :=
  ⟨⟨rfl, rfl⟩, ⟨rfl, rfl⟩, rfl, rfl⟩

/-- Nothing is left for the first rule, for it shows no eight credentials. -/
theorem noAuth_mask_auth (cs : List Char) :
    AtStarts (authRule · = none) false (mask authRule cs) := by
  refine (splits_chunks authRule_sound cs).atStarts_showns atStarts_true authRule_sound
    (fun _ _ => authRule_shows) (fun cs => (signs_free cs).1)
    (fun _ _ _ alike free _ => auth_alike_auth alike free) ?_ ?_
  · intro h ys ys' found _ _
    obtain ⟨a, _, rfl, -, stands⟩ := authRule_stands found
    refine authRule_eq_none_iff.2 fun m shape hm => ?_
    have hm : m <+: (a.scheme ++ [' ']) ++ (redacted ++ ys') := by
      simpa [AuthHeader.hit] using hm
    rcases List.prefix_concat_iff.1 (prefix_of_signs hm shape.not_mem.2) with rfl | hm
    · exact shape.ne_concat _ rfl
    · -- a header has blanks, and its scheme alone has none
      obtain ⟨b, hb, hmem⟩ := shape.blank
      have := stands.scheme.isValueChar (hm.subset hmem)
      simp [isBlank_of_isValueChar this] at hb
  · intro _ h l₂ _ found ends alike
    obtain ⟨a, rfl, stands⟩ := authRule_stands_before found
    have hpad : a.padding = [] := by
      by_contra hne
      obtain ⟨cs, c, hcs⟩ := List.eq_nil_or_concat a.padding |>.resolve_left hne
      have hsign : Text.isWord '=' = false := by decide
      simp [AuthHeader.hit, hcs, stands.padding c (by simp [hcs]), hsign] at ends
    have stops := stands.stops
    rw [hpad, List.nil_append] at stops
    exact authRule_eq_none_of_stops rfl rfl (alike.stops stops)

theorem noAuth_mask_pair (free : AtStarts (authRule · = none) false cs) :
    AtStarts (authRule · = none) false (mask pairRule cs) := by
  refine (splits_chunks pairRule_sound cs).atStarts_showns free pairRule_sound
    (fun _ _ => pairRule_shows) (fun cs => (signs_free cs).1)
    (fun _ _ _ alike _ free => auth_alike_pair alike free)
    (fun _ _ _ found _ free => auth_alike_pair (.hit [] found rfl) free) ?_
  intro _ h l₂ _ found _ alike
  obtain ⟨p, rfl, stands⟩ := pairRule_stands_before found
  exact authRule_eq_none_of_stops rfl rfl (alike.stops stands.stops)

theorem noAuth_mask_token (free : AtStarts (authRule · = none) false cs) :
    AtStarts (authRule · = none) false (mask tokenRule cs) := by
  refine (splits_chunks tokenRule_sound cs).atStarts_showns free tokenRule_sound
    (fun _ _ => tokenRule_shows) (fun cs => (signs_free cs).1)
    (fun _ _ _ alike _ free => auth_alike_token alike free)
    (fun _ _ _ found _ free => auth_alike_token (.hit [] found rfl) free) ?_
  intro _ h l₂ _ found _ alike
  obtain ⟨m, rfl, stands⟩ := tokenRule_stands_before found
  exact authRule_eq_none_of_stops rfl rfl (alike.stops stands.stops)

theorem masked_mask_pair (cs : List Char) : AtStarts Masked false (mask pairRule cs) := by
  refine (splits_chunks pairRule_sound cs).atStarts_showns atStarts_true pairRule_sound
    (fun _ _ => pairRule_shows)
    (fun cs => (signs_free cs).2.1.imp masked_of_eq_none masked_of_eq_none)
    (fun _ _ _ alike free _ => masked_of_eq_none (pair_alike_pair alike free))
    (fun _ _ _ found alike _ => masked_pair found alike) ?_
  intro _ h l₂ _ found _ alike
  obtain ⟨p, rfl, stands⟩ := pairRule_stands_before found
  exact masked_of_eq_none (pairRule_eq_none_of_stops (alike.stops stands.stops))

theorem masked_mask_token (masked : AtStarts Masked false cs)
    (ok : apart (chunks tokenRule cs) = true) : AtStarts Masked false (mask tokenRule cs) := by
  refine (splits_chunks tokenRule_sound cs).atStarts_showns masked tokenRule_sound
    (fun _ _ => tokenRule_shows)
    (fun cs => (signs_free cs).2.1.imp masked_of_eq_none masked_of_eq_none)
    (fun _ _ _ alike _ masked => masked_alike_token alike masked)
    (fun _ _ _ found _ masked => masked_alike_token (.hit [] found rfl) masked) ?_
  intro l₁ h l₂ hl _ _ _
  exact apart_iff.1 ok h l₂ ⟨l₁, hl.symm⟩

theorem noToken_mask_token (cs : List Char) :
    AtStarts (tokenRule · = none) false (mask tokenRule cs) := by
  refine (splits_chunks tokenRule_sound cs).atStarts_showns atStarts_true tokenRule_sound
    (fun _ _ => tokenRule_shows) (fun cs => (signs_free cs).2.2)
    (fun _ _ _ alike free _ => token_alike_token alike free) ?_ ?_
  · intro h ys ys' found _ _
    obtain ⟨m, _, rfl, -, -⟩ := tokenRule_stands found
    exact (signs_free ys').2.2.1
  · intro _ h l₂ _ found _ alike
    obtain ⟨m, rfl, stands⟩ := tokenRule_stands_before found
    exact tokenRule_eq_none_of_stops (alike.stops stands.stops)

theorem noToken_mask_pair (free : AtStarts (tokenRule · = none) false cs) :
    AtStarts (tokenRule · = none) false (mask pairRule cs) := by
  refine (splits_chunks pairRule_sound cs).atStarts_showns free pairRule_sound
    (fun _ _ => pairRule_shows) (fun cs => (signs_free cs).2.2)
    (fun _ _ _ alike _ free => token_alike_pair alike free)
    (fun _ _ _ found _ free => token_alike_pair (.hit [] found rfl) free) ?_
  intro _ h l₂ _ found _ alike
  obtain ⟨p, rfl, stands⟩ := pairRule_stands_before found
  refine tokenRule_eq_none_of_stops ?_
  exact (alike.stops stands.stops).mono fun _ hc => isValueChar_of_isAlphanum hc

end Masks

section Fixed

variable {xs ys : List Char} {l : List Chunk}

/-- A text that the second rule leaves as it is has only masked pairs. -/
theorem Splits.masked_of_showns_eq (split : Splits pairRule w cs l) (same : showns l = cs) :
    ∀ h, .hit h ∈ l → h.shown = h.matched := by
  induction split with
  | nil => simp
  | plain _ _ ih => simpa using ih (by simpa using same)
  | @hit k cs l found rest ih =>
    obtain ⟨p, rfl, stands⟩ := pairRule_stands_before found
    have hvalue : redacted ++ showns l = p.value ++ cs := by simpa [KeyValue.hit] using same
    obtain ⟨hp, hsame⟩ := eq_of_append_stops redacted_value (pair_alike_stops rest.alike stands.stops)
      stands.value stands.stops hvalue
    intro h hh
    rcases List.mem_cons.1 hh with heq | hh
    · cases heq
      simp [KeyValue.hit, hp]
    · exact ih hsame h hh

/-- A masked pair has the last of the signs at its end only. -/
theorem getLast?_ne_of_append {key : List Char} (isKey : IsKey key) (ne : ys ≠ [])
    (h : xs ++ ys = key ++ '=' :: redacted) : xs.getLast? ≠ redacted.getLast? := by
  intro hlast
  have hsigns : redacted = "[REDACTED".toList ++ [']'] := by decide
  obtain ⟨ys, y, rfl⟩ := List.eq_nil_or_concat ys |>.resolve_left ne
  have hinit : xs ++ ys = key ++ '=' :: "[REDACTED".toList := by
    have hall : (xs ++ ys) ++ [y] = (key ++ '=' :: "[REDACTED".toList) ++ [']'] := by
      simpa [hsigns] using h
    exact (List.append_inj' hall rfl).1
  have hmem : ']' ∈ key ++ '=' :: "[REDACTED".toList := by
    rw [← hinit]
    exact List.mem_append_left _ (List.mem_of_getLast? hlast)
  rcases List.mem_append.1 hmem with hmem | hmem
  · exact absurd (isKey.isWord hmem) (by decide)
  · exact absurd hmem (by decide)

/-- Whatever the signs follow, no pair is left to mask after them. -/
theorem masked_of_mask_eq
    (same : mask pairRule (xs ++ redacted ++ ys) = xs ++ redacted ++ ys) : Masked ys := by
  have split := splits_chunks pairRule_sound (xs ++ redacted ++ ys)
  have masked := split.masked_of_showns_eq same
  intro h found
  rcases split.of_append with ⟨before, after, hl, -, rest⟩ | ⟨k, before, after, hl, -, -⟩ <;>
    rw [hl] at masked
  · rw [endsInWord_append, endsInWord_redacted] at rest
    obtain ⟨_, _, -, rfl, -⟩ := rest.of_found pairRule_sound found
    exact masked h (by simp)
  -- a pair across the end of the signs would have them in its middle
  · obtain ⟨p, hp, stands⟩ := pairRule_stands_before k.found
    have hsplit : k.first ++ k.second = p.key ++ '=' :: redacted := by
      rw [← k.matched_eq, ← masked k.hit (by simp), hp, KeyValue.hit]
    refine absurd ?_ (getLast?_ne_of_append stands.key k.second_ne hsplit)
    calc k.first.getLast?
        = (k.skipped ++ k.first).getLast? := (List.getLast?_append_of_ne_nil _ k.first_ne).symm
      _ = (xs ++ redacted).getLast? := congrArg List.getLast? k.xs_eq.symm
      _ = redacted.getLast? := List.getLast?_append_of_ne_nil _ redacted_ne_nil

end Fixed

/-- Whether the text, once it is redacted, has no pair left to mask behind a token. -/
def Apart (text : String) : Prop :=
  apart (chunks tokenRule (mask pairRule (mask authRule text.toList))) = true

instance : DecidablePred Apart := fun _ => inferInstanceAs (Decidable (_ = _))

theorem redactChars_redactChars_iff : redactChars (redactChars cs) = redactChars cs ↔
    apart (chunks tokenRule (mask pairRule (mask authRule cs))) = true := by
  have noAuth := noAuth_mask_token (noAuth_mask_pair (noAuth_mask_auth cs))
  have noToken := noToken_mask_token (mask pairRule (mask authRule cs))
  have hchars : redactChars cs = mask tokenRule (mask pairRule (mask authRule cs)) := rfl
  rw [← hchars] at noAuth noToken
  have htwice : redactChars (redactChars cs) = mask pairRule (redactChars cs) := by
    calc redactChars (redactChars cs)
        = mask tokenRule (mask pairRule (mask authRule (redactChars cs))) := rfl
      _ = mask tokenRule (mask pairRule (redactChars cs)) := by
        rw [mask_of_free authRule_sound noAuth]
      _ = mask pairRule (redactChars cs) := mask_of_free tokenRule_sound (noToken_mask_pair noToken)
  rw [htwice]
  constructor
  · intro same
    refine apart_iff.2 fun h l₂ ⟨l₁, hl⟩ => ?_
    have found := (splits_chunks tokenRule_sound (mask pairRule (mask authRule cs))).foundBy
    rw [← hl] at found
    obtain ⟨_, hrule⟩ := found h (by simp)
    obtain ⟨m, _, rfl, -, -⟩ := tokenRule_stands hrule
    rw [hchars, mask_eq tokenRule, ← hl, showns_append, showns_hit, ← List.append_assoc] at same
    exact masked_of_mask_eq same
  · intro ok
    exact mask_eq_self pairRule_sound (masked_mask_token (masked_mask_pair (mask authRule cs)) ok)

theorem redactText_redactText_iff {text : String} :
    redactText (redactText text) = redactText text ↔ Apart text := by
  rw [redactText, redactText, String.toList_ofList, String.ofList_inj, redactChars_redactChars_iff,
    Apart]

section Values

mutual

/-- The texts that stand under no secret field. -/
def openTexts : Json → List String
  | .string s => [s]
  | .array items => openTextsOfItems items
  | .object fields => openTextsOfFields fields
  | _ => []

def openTextsOfItems : List Json → List String
  | [] => []
  | v :: rest => openTexts v ++ openTextsOfItems rest

def openTextsOfFields : List (String × Json) → List String
  | [] => []
  | (key, v) :: rest =>
    (if isSensitiveKey key then [] else openTexts v) ++ openTextsOfFields rest

end

theorem redact_isNull (v : Json) : (redact v).isNull = v.isNull := by
  cases v <;> simp [redact, Json.isNull]

mutual

theorem redact_redact_iff (v : Json) :
    redact (redact v) = redact v ↔ ∀ s ∈ openTexts v, Apart s := by
  cases v with
  | string s => simp [redact, openTexts, redactText_redactText_iff]
  | array items => simp [redact, openTexts, redactItems_redactItems_iff items]
  | object fields => simp [redact, openTexts, redactFields_redactFields_iff fields]
  | _ => simp [redact, openTexts]

theorem redactItems_redactItems_iff (items : List Json) :
    redactItems (redactItems items) = redactItems items ↔
      ∀ s ∈ openTextsOfItems items, Apart s := by
  cases items with
  | nil => simp [redactItems, openTextsOfItems]
  | cons v rest =>
    simp only [redactItems, openTextsOfItems, List.cons.injEq, List.forall_mem_append,
      redact_redact_iff v, redactItems_redactItems_iff rest]

theorem redactFields_redactFields_iff (fields : List (String × Json)) :
    redactFields (redactFields fields) = redactFields fields ↔
      ∀ s ∈ openTextsOfFields fields, Apart s := by
  cases fields with
  | nil => simp [redactFields, openTextsOfFields]
  | cons kv rest =>
    obtain ⟨key, v⟩ := kv
    simp only [redactFields, openTextsOfFields, List.cons.injEq, Prod.mk.injEq, true_and,
      List.forall_mem_append, redactFields_redactFields_iff rest]
    refine and_congr_left' ?_
    cases hnull : v.isNull with
    | true =>
      have hnone : openTexts v = [] := by cases v <;> simp_all [Json.isNull, openTexts]
      simp [Json.isNull, hnone]
    | false =>
      cases isSensitiveKey key with
      | true => simp [Json.isNull]
      | false => simp [redact_isNull, hnull, redact_redact_iff v]

end

end Values

/-- Redacting twice is redacting once, if and only if the signs shown for tokens set no pair free. -/
theorem redact_idempotent_iff (v : Json) (text : String) :
    (redact (redact v) = redact v ↔ ∀ s ∈ openTexts v, Apart s) ∧
      (redactText (redactText text) = redactText text ↔ Apart text) :=
  ⟨redact_redact_iff v, redactText_redactText_iff⟩

/-- A header, a pair and a token beside one another, in a text and in a value. -/
theorem redact_idempotent_each :
    redact (redact (.object [("note", .array [.string "sk-abcdefgh12345678 sig=x"])])) =
        redact (.object [("note", .array [.string "sk-abcdefgh12345678 sig=x"])]) ∧
      redactText (redactText "Bearer abcdefgh1 key=v&AKIA0123456789ABCDEF") =
        redactText "Bearer abcdefgh1 key=v&AKIA0123456789ABCDEF" :=
  (redact_idempotent_iff _ _).imp (·.2 (by decide +kernel)) (·.2 (by decide +kernel))

/-- The long s ends no token and begins a key. -/
theorem token_frees_pair :
    redactText (redactText "ghp_aaaaaaaaaaaaaaaaaaaaſig=hunter2") ≠
      redactText "ghp_aaaaaaaaaaaaaaaaaaaaſig=hunter2" := by
  decide +kernel

end Flowgraph.Redaction
