import Flowgraph.Proofs.Redaction.Runs

/-! What each of the three rules finds, and which characters at the start of a text are enough for
it to find something. -/

namespace Flowgraph.Redaction

/-- The signs that stand for a secret. -/
def marks : List Char := ' ' :: redacted

@[simp] theorem endsInWord_redacted (w : Bool) : endsInWord w redacted = false := rfl

/-- A hit shows its own characters and signs. -/
def Rule.Marks (rule : Rule) : Prop :=
  ∀ ⦃cs : List Char⦄ ⦃h : Hit⦄, rule cs = some h → ∀ c ∈ h.shown, c ∈ h.matched ∨ c ∈ marks

/-- Masking brings in no characters but the signs. -/
theorem FoundBy.mem_showns {rule : Rule} {l : List Chunk} (found : FoundBy rule l)
    (marked : rule.Marks) {c : Char} (hc : c ∈ showns l) : c ∈ sources l ∨ c ∈ marks := by
  obtain ⟨chunk, hchunk, hmem⟩ := List.mem_flatMap.1 hc
  cases chunk with
  | plain x => exact .inl (List.mem_flatMap.2 ⟨_, hchunk, hmem⟩)
  | hit h =>
    obtain ⟨rest, hrule⟩ := found h hchunk
    exact (marked hrule c hmem).imp_left (mem_sources hchunk)

theorem Splits.mem_showns {rule : Rule} {w : Bool} {cs : List Char} {l : List Chunk}
    (split : Splits rule w cs l) (marked : rule.Marks) {c : Char} (hc : c ∈ showns l) :
    c ∈ cs ∨ c ∈ marks := by
  simpa [split.sources_eq] using split.foundBy.mem_showns marked hc

section Auth

variable {cs rest : List Char} {h : Hit}

def IsScheme (found : List Char) : Prop := ∃ name ∈ schemes, Spells name.toList found

theorem IsScheme.forall {P : Char → Prop} {found : List Char} (h : IsScheme found)
    (all : ∀ name ∈ schemes, ∀ letter ∈ name.toList, ∀ c ∈ forms letter, P c) :
    ∀ c ∈ found, P c := by
  obtain ⟨name, hname, spells⟩ := h
  exact spells.forall (all name hname)

theorem schemeLetters : ∀ name ∈ schemes, ∀ letter ∈ name.toList, ∀ c ∈ forms letter,
    Text.isWord c = true ∧ isValueChar c = true ∧ c ≠ '=' := by
  have checked : (schemes.all fun name => name.toList.all fun letter => (forms letter).all fun c =>
      Text.isWord c && isValueChar c && c != '=') = true := by decide +kernel
  simpa only [List.all_eq_true, Bool.and_eq_true, bne_iff_ne, and_assoc] using checked

theorem IsScheme.isWord {found : List Char} (h : IsScheme found) {c : Char} (hc : c ∈ found) :
    Text.isWord c = true :=
  (h.forall schemeLetters c hc).1

theorem IsScheme.isValueChar {found : List Char} (h : IsScheme found) {c : Char}
    (hc : c ∈ found) : isValueChar c = true :=
  (h.forall schemeLetters c hc).2.1

theorem IsScheme.head {found : List Char} (h : IsScheme found) :
    ∃ c tail, found = c :: tail ∧ c ∈ ['b', 'B'] := by
  obtain ⟨name, hname, spells⟩ := h
  have hletter : ∀ name ∈ schemes, name.toList = 'b' :: name.toList.tail := by decide +kernel
  rw [hletter name hname] at spells
  obtain ⟨c, tail, form, -, rfl⟩ := List.forall₂_cons_left_iff.1 spells
  exact ⟨c, tail, rfl, by simpa [isForm] using form⟩

/-- A header at the start of a text, given the text after it. -/
structure AuthHeader.Stands (a : AuthHeader) (rest : List Char) : Prop where
  scheme : IsScheme a.scheme
  blanks_ne : a.blanks ≠ []
  blanks : ∀ c ∈ a.blanks, Text.isBlank c = true
  length : 8 ≤ a.credentials.length
  credentials : ∀ c ∈ a.credentials, isAuthChar c = true
  padding : ∀ c ∈ a.padding, c = '='
  stops : Stops isAuthChar (a.padding ++ rest)
  ends : Stops (· == '=') rest

theorem authRule_stands (found : authRule cs = some h) :
    ∃ (a : AuthHeader) (rest : List Char), h = a.hit ∧ cs = a.hit.matched ++ rest ∧ a.Stands rest := by
  obtain ⟨a, ha, rfl⟩ := Option.map_eq_some_iff.1 found
  obtain ⟨name, hname, hstep⟩ := List.exists_of_findSome?_eq_some ha
  simp only [Option.bind_eq_bind, Option.bind_eq_some_iff, Option.pure_def, Option.some.injEq,
    Prod.exists, spelling?_eq_some, run?_eq_some] at hstep
  obtain ⟨scheme, _, ⟨rfl, hscheme⟩, blanks, _, ⟨rfl, hne, hblanks, -⟩, credentials, _,
    ⟨rfl, hlen, hcred, hstops⟩, padding, rest, ⟨rfl, -, hpad, hends⟩, rfl⟩ := hstep
  exact ⟨_, rest, rfl, by simp [AuthHeader.hit], ⟨name, hname, hscheme⟩,
    List.length_pos_iff.1 hne, hblanks, hlen, hcred, by simpa using hpad, hstops,
    hends⟩

/-- A hit at the start of a text is a header that stands before the rest. -/
theorem authRule_stands_before (found : authRule (h.matched ++ cs) = some h) :
    ∃ a : AuthHeader, h = a.hit ∧ a.Stands cs := by
  obtain ⟨a, rest, rfl, htext, stands⟩ := authRule_stands found
  exact ⟨a, rfl, List.append_cancel_left htext ▸ stands⟩

/-- A scheme, blanks and eight characters are enough. -/
inductive AuthShape : List Char → Prop
  | intro {scheme blanks credentials} (isScheme : IsScheme scheme) (blanks_ne : blanks ≠ [])
      (isBlank : ∀ c ∈ blanks, Text.isBlank c = true) (length : 8 ≤ credentials.length)
      (isAuth : ∀ c ∈ credentials, isAuthChar c = true) :
      AuthShape (scheme ++ blanks ++ credentials)

theorem AuthHeader.Stands.shape {a : AuthHeader} (stands : a.Stands rest) :
    AuthShape (a.scheme ++ a.blanks ++ a.credentials) :=
  ⟨stands.scheme, stands.blanks_ne, stands.blanks, stands.length, stands.credentials⟩

theorem authRule_ne_none {m : List Char} (shape : AuthShape m) (tail : List Char) :
    authRule (m ++ tail) ≠ none := by
  obtain ⟨⟨name, hname, spells⟩, blanks_ne, isBlank, length, isAuth⟩ := shape
  rename_i scheme blanks credentials
  intro hnone
  have hstep := List.findSome?_eq_none_iff.1 (Option.map_eq_none_iff.1 hnone) name hname
  have hspell : spelling? name.toList (scheme ++ blanks ++ credentials ++ tail) =
      some (scheme, blanks ++ credentials ++ tail) :=
    spelling?_eq_some.2 ⟨by simp, spells⟩
  have hstops : Stops Text.isBlank (credentials ++ tail) := by
    cases credentials with
    | nil => simp at length
    | cons c credentials => simpa using isBlank_of_isAuthChar (isAuth c (by simp))
  have hblank : run? Text.isBlank 1 (blanks ++ credentials ++ tail) =
      some (blanks, credentials ++ tail) :=
    run?_eq_some.2 ⟨by simp, List.length_pos_iff.2 blanks_ne, isBlank, hstops⟩
  obtain ⟨more, rest, hcred⟩ := run?_of_append length isAuth tail
  simp only [Option.bind_eq_bind, hspell, hblank, hcred, run?_zero,
    Option.bind_some] at hstep
  cases hstep

theorem authRule_eq_none_iff :
    authRule cs = none ↔ ∀ m, AuthShape m → ¬ m <+: cs := by
  constructor
  · rintro hnone m shape ⟨tail, rfl⟩
    exact authRule_ne_none shape tail hnone
  · intro free
    by_contra hne
    obtain ⟨h, hh⟩ := Option.ne_none_iff_exists'.1 hne
    obtain ⟨a, rest, rfl, rfl, stands⟩ := authRule_stands hh
    exact free _ stands.shape ⟨a.padding ++ rest, by simp [AuthHeader.hit]⟩

theorem authRule_sound : Rule.Sound authRule := by
  intro cs h found
  obtain ⟨a, rest, rfl, rfl, stands⟩ := authRule_stands found
  refine ⟨?_, List.prefix_append _ _⟩
  have := stands.blanks_ne
  simp [AuthHeader.hit, this]

theorem authRule_marks : Rule.Marks authRule := by
  intro cs h found c hc
  obtain ⟨a, rest, rfl, -, -⟩ := authRule_stands found
  simp only [AuthHeader.hit, List.mem_append] at hc ⊢
  exact hc.imp_left fun hc => .inl (.inl (.inl hc))

end Auth

section Pairs

variable {cs rest : List Char} {p : KeyValue} {h : Hit}

def IsKey (found : List Char) : Prop := ∃ name ∈ pairKeys, Spells name.toList found

theorem IsKey.forall {P : Char → Prop} {found : List Char} (h : IsKey found)
    (all : ∀ name ∈ pairKeys, ∀ letter ∈ name.toList, ∀ c ∈ forms letter, P c) :
    ∀ c ∈ found, P c := by
  obtain ⟨name, hname, spells⟩ := h
  exact spells.forall (all name hname)

/-- A pair at the start of a text, given the text after it. -/
structure KeyValue.Stands (p : KeyValue) (rest : List Char) : Prop where
  key : IsKey p.key
  value_ne : p.value ≠ []
  value : ∀ c ∈ p.value, isValueChar c = true
  stops : Stops isValueChar rest

theorem keyValue?_stands (found : keyValue? cs = some p) :
    ∃ rest, cs = p.hit.matched ++ rest ∧ p.Stands rest := by
  obtain ⟨name, hname, hstep⟩ := List.exists_of_findSome?_eq_some found
  simp only [Option.bind_eq_bind, Option.bind_eq_some_iff, Option.pure_def, Option.some.injEq,
    Prod.exists, spelling?_eq_some, literal?_eq_some, run?_eq_some] at hstep
  obtain ⟨key, _, ⟨rfl, hkey⟩, _, rfl, value, rest, ⟨rfl, hne, hvalue, hstops⟩, rfl⟩ := hstep
  exact ⟨rest, by simp [KeyValue.hit], ⟨name, hname, hkey⟩, List.length_pos_iff.1 hne, hvalue,
    hstops⟩

theorem keyValue?_ne_none {key : List Char} {c : Char} (isKey : IsKey key)
    (isValue : isValueChar c = true) (tail : List Char) :
    keyValue? (key ++ '=' :: c :: tail) ≠ none := by
  obtain ⟨name, hname, spells⟩ := isKey
  intro hnone
  have hstep := List.findSome?_eq_none_iff.1 hnone name hname
  have hspell : spelling? name.toList (key ++ '=' :: c :: tail) = some (key, '=' :: c :: tail) :=
    spelling?_eq_some.2 ⟨rfl, spells⟩
  have hsign : literal? ['='] ('=' :: c :: tail) = some (c :: tail) := literal?_eq_some.2 rfl
  obtain ⟨more, rest, hvalue⟩ :
      ∃ more rest, run? isValueChar 1 ([c] ++ tail) = some ([c] ++ more, rest) :=
    run?_of_append le_rfl (fun x hx => by rwa [List.mem_singleton.1 hx]) tail
  rw [List.singleton_append] at hvalue
  simp only [Option.bind_eq_bind, hspell, hsign, hvalue, Option.bind_some] at hstep
  cases hstep

theorem keyLetters : ∀ name ∈ pairKeys, ∀ letter ∈ name.toList, ∀ c ∈ forms letter,
    Text.isWord c = true ∧ isValueChar c = true ∧ isAuthChar c = true ∧ c ≠ '=' := by
  have checked : (pairKeys.all fun name => name.toList.all fun letter => (forms letter).all fun c =>
      Text.isWord c && isValueChar c && isAuthChar c && c != '=') = true := by decide +kernel
  simpa only [List.all_eq_true, Bool.and_eq_true, bne_iff_ne, and_assoc] using checked

theorem IsKey.isWord {key : List Char} (h : IsKey key) {c : Char} (hc : c ∈ key) :
    Text.isWord c = true :=
  (h.forall keyLetters c hc).1

theorem IsKey.isValueChar {key : List Char} (h : IsKey key) {c : Char} (hc : c ∈ key) :
    isValueChar c = true :=
  (h.forall keyLetters c hc).2.1

theorem IsKey.isAuthChar {key : List Char} (h : IsKey key) {c : Char} (hc : c ∈ key) :
    isAuthChar c = true :=
  (h.forall keyLetters c hc).2.2.1

theorem IsKey.not_mem {key : List Char} (h : IsKey key) : '=' ∉ key :=
  fun hc => (h.forall keyLetters _ hc).2.2.2 rfl

theorem IsKey.ne_nil {key : List Char} (h : IsKey key) : key ≠ [] := by
  obtain ⟨name, hname, spells⟩ := h
  have : ∀ name ∈ pairKeys, name.toList ≠ [] := by decide +kernel
  rintro rfl
  exact this name hname (List.forall₂_nil_right_iff.1 spells)

/-- The first sign of its kind tells where a text ends. -/
theorem eq_of_append_sep {sep : Char} {xs ys us vs : List Char} (hx : sep ∉ xs) (hy : sep ∉ ys)
    (h : xs ++ sep :: us = ys ++ sep :: vs) : xs = ys ∧ us = vs := by
  rcases List.append_eq_append_iff.1 h with ⟨ws, rfl, hws⟩ | ⟨ws, rfl, hws⟩ <;>
    cases ws <;> simp_all

theorem KeyValue.Stands.matched (stands : p.Stands rest) {c : Char} (hc : c ∈ p.hit.matched) :
    isValueChar c = true := by
  rcases List.mem_append.1 hc with hc | hc
  · exact stands.key.isValueChar hc
  · rcases List.mem_cons.1 hc with rfl | hc
    · rfl
    · exact stands.value c hc

theorem keyValue?_eq_some :
    keyValue? cs = some p ↔ ∃ rest, cs = p.hit.matched ++ rest ∧ p.Stands rest := by
  refine ⟨keyValue?_stands, ?_⟩
  rintro ⟨rest, rfl, stands⟩
  obtain ⟨c, value, hvalue⟩ := List.exists_cons_of_ne_nil stands.value_ne
  have hne : keyValue? (p.hit.matched ++ rest) ≠ none := by
    have := keyValue?_ne_none stands.key (stands.value c (by simp [hvalue])) (value ++ rest)
    simpa [KeyValue.hit, hvalue] using this
  obtain ⟨q, hq⟩ := Option.ne_none_iff_exists'.1 hne
  obtain ⟨rest', heq, stands'⟩ := keyValue?_stands hq
  simp only [KeyValue.hit, List.append_assoc, List.cons_append] at heq
  obtain ⟨hkey, hrest⟩ := eq_of_append_sep stands.key.not_mem stands'.key.not_mem heq
  obtain ⟨hval, -⟩ := eq_of_append_stops stands.value stands.stops stands'.value stands'.stops hrest
  rw [hq]
  cases p
  cases q
  simp_all

theorem pairRule_stands (found : pairRule cs = some h) :
    ∃ (p : KeyValue) (rest : List Char), h = p.hit ∧ cs = p.hit.matched ++ rest ∧ p.Stands rest := by
  obtain ⟨p, hp, rfl⟩ := Option.map_eq_some_iff.1 found
  obtain ⟨rest, hcs, stands⟩ := keyValue?_stands hp
  exact ⟨p, rest, rfl, hcs, stands⟩

theorem pairRule_stands_before (found : pairRule (h.matched ++ cs) = some h) :
    ∃ p : KeyValue, h = p.hit ∧ p.Stands cs := by
  obtain ⟨p, rest, rfl, htext, stands⟩ := pairRule_stands found
  exact ⟨p, rfl, List.append_cancel_left htext ▸ stands⟩

theorem pairRule_sound : Rule.Sound pairRule := by
  intro cs h found
  obtain ⟨p, rest, rfl, rfl, -⟩ := pairRule_stands found
  exact ⟨by simp [KeyValue.hit], List.prefix_append _ _⟩

theorem pairRule_marks : Rule.Marks pairRule := by
  intro cs h found c hc
  obtain ⟨p, rest, rfl, -, -⟩ := pairRule_stands found
  simp only [KeyValue.hit, List.mem_append, List.mem_cons, marks] at hc ⊢
  rcases hc with hc | hc | hc
  · exact .inl (.inl hc)
  · exact .inl (.inr (.inl hc))
  · exact .inr (.inr hc)

end Pairs

section Tokens

variable {cs m rest rest' : List Char} {h : Hit}

/-- A token, given the text after it. -/
inductive TokenStands : List Char → List Char → Prop
  | secret {body rest} (length : 16 ≤ body.length) (all : ∀ c ∈ body, isKeyChar c = true)
      (stops : Stops isKeyChar rest) : TokenStands ("sk-".toList ++ body) rest
  | web {head body signature rest} (head_ne : 1 ≤ head.length) (body_ne : 1 ≤ body.length)
      (signature_ne : 1 ≤ signature.length) (head_all : ∀ c ∈ head, isKeyChar c = true)
      (body_all : ∀ c ∈ body, isKeyChar c = true)
      (signature_all : ∀ c ∈ signature, isKeyChar c = true) (stops : Stops isKeyChar rest) :
      TokenStands ("eyJ".toList ++ head ++ '.' :: body ++ '.' :: signature) rest
  | hub {kind body rest} (isKind : kind ∈ ['p', 'o', 'u', 's', 'r']) (length : 20 ≤ body.length)
      (all : ∀ c ∈ body, c.isAlphanum = true) (stops : Stops Char.isAlphanum rest) :
      TokenStands (['g', 'h', kind, '_'] ++ body) rest
  | chat {kind body rest} (isKind : kind ∈ ['a', 'b', 'p', 'r', 's']) (length : 10 ≤ body.length)
      (all : ∀ c ∈ body, (c.isAlphanum || c == '-') = true)
      (stops : Stops (fun c => c.isAlphanum || c == '-') rest) :
      TokenStands (['x', 'o', 'x', kind, '-'] ++ body) rest
  | access {body rest} (length : body.length = 16)
      (all : ∀ c ∈ body, (c.isDigit || c.isUpper) = true) (stops : Stops Text.isWord rest) :
      TokenStands ("AKIA".toList ++ body) rest

theorem secretKey?_stands (found : secretKey? cs = some m) :
    ∃ rest, cs = m ++ rest ∧ TokenStands m rest := by
  simp only [secretKey?, Option.bind_eq_bind, Option.bind_eq_some_iff, Option.pure_def,
    Option.some.injEq, Prod.exists, literal?_eq_some, run?_eq_some] at found
  obtain ⟨_, rfl, body, rest, ⟨rfl, len, all, stops⟩, rfl⟩ := found
  exact ⟨rest, by simp, .secret len all stops⟩

theorem webToken?_stands (found : webToken? cs = some m) :
    ∃ rest, cs = m ++ rest ∧ TokenStands m rest := by
  simp only [webToken?, Option.bind_eq_bind, Option.bind_eq_some_iff, Option.pure_def,
    Option.some.injEq, Prod.exists, literal?_eq_some, run?_eq_some] at found
  obtain ⟨_, rfl, head, _, ⟨rfl, head_ne, head_all, -⟩, _, rfl, body, _,
    ⟨rfl, body_ne, body_all, -⟩, _, rfl, signature, rest, ⟨rfl, sign_ne, sign_all, stops⟩, rfl⟩ := found
  exact ⟨rest, by simp, .web head_ne body_ne sign_ne head_all body_all sign_all stops⟩

theorem hubToken?_stands (found : hubToken? cs = some m) :
    ∃ rest, cs = m ++ rest ∧ TokenStands m rest := by
  obtain ⟨kind, isKind, hstep⟩ := List.exists_of_findSome?_eq_some found
  simp only [Option.bind_eq_bind, Option.bind_eq_some_iff, Option.pure_def,
    Option.some.injEq, Prod.exists, literal?_eq_some, run?_eq_some] at hstep
  obtain ⟨_, rfl, body, rest, ⟨rfl, len, all, stops⟩, rfl⟩ := hstep
  exact ⟨rest, by simp, .hub isKind len all stops⟩

theorem chatToken?_stands (found : chatToken? cs = some m) :
    ∃ rest, cs = m ++ rest ∧ TokenStands m rest := by
  obtain ⟨kind, isKind, hstep⟩ := List.exists_of_findSome?_eq_some found
  simp only [Option.bind_eq_bind, Option.bind_eq_some_iff, Option.pure_def,
    Option.some.injEq, Prod.exists, literal?_eq_some, run?_eq_some] at hstep
  obtain ⟨_, rfl, body, rest, ⟨rfl, len, all, stops⟩, rfl⟩ := hstep
  exact ⟨rest, by simp, .chat isKind len all stops⟩

theorem startsWord_eq_false : startsWord cs = false ↔ Stops Text.isWord cs := by
  cases cs <;> simp [startsWord]

theorem accessKey?_stands (found : accessKey? cs = some m) :
    ∃ rest, cs = m ++ rest ∧ TokenStands m rest := by
  simp only [accessKey?, Option.bind_eq_bind, Option.bind_eq_some_iff, literal?_eq_some] at found
  obtain ⟨tail, rfl, hbody⟩ := found
  split at hbody
  · next hcond =>
    obtain rfl : "AKIA".toList ++ tail.take 16 = m := by simpa using hbody
    simp only [Bool.and_eq_true, decide_eq_true_eq, List.all_eq_true, Bool.not_eq_true'] at hcond
    obtain ⟨⟨len, all⟩, ends⟩ := hcond
    exact ⟨tail.drop 16, by simp, .access len all (startsWord_eq_false.1 ends)⟩
  · cases hbody

theorem token?_stands (found : token? cs = some m) :
    ∃ rest, cs = m ++ rest ∧ TokenStands m rest := by
  simp only [token?, Option.or_eq_some_iff] at found
  rcases found with ((h | ⟨-, h⟩) | ⟨-, h⟩) | ⟨-, h | ⟨-, h⟩⟩
  · exact secretKey?_stands h
  · exact webToken?_stands h
  · exact hubToken?_stands h
  · exact chatToken?_stands h
  · exact accessKey?_stands h

theorem tokenRule_stands (found : tokenRule cs = some h) :
    ∃ m rest, h = ⟨m, redacted⟩ ∧ cs = m ++ rest ∧ TokenStands m rest := by
  obtain ⟨m, hm, rfl⟩ := Option.map_eq_some_iff.1 found
  obtain ⟨rest, hcs, stands⟩ := token?_stands hm
  exact ⟨m, rest, rfl, hcs, stands⟩

theorem tokenRule_stands_before (found : tokenRule (h.matched ++ cs) = some h) :
    ∃ m, h = ⟨m, redacted⟩ ∧ TokenStands m cs := by
  obtain ⟨m, rest, rfl, htext, stands⟩ := tokenRule_stands found
  exact ⟨m, rfl, List.append_cancel_left htext ▸ stands⟩

namespace TokenStands

/-- A token is found also before another text, if a word goes on there no sooner. -/
theorem ne_none (stands : TokenStands m rest)
    (ends : endsInWord false m = true → Stops Text.isWord rest → Stops Text.isWord rest') :
    token? (m ++ rest') ≠ none := by
  intro hnone
  simp only [token?, Option.or_eq_none_iff] at hnone
  obtain ⟨⟨⟨hsecret, hweb⟩, hhub⟩, hchat, haccess⟩ := hnone
  cases stands with
  | secret length all _ =>
    obtain ⟨more, r, hrun⟩ := run?_of_append length all rest'
    rw [List.append_assoc] at hsecret
    simp only [secretKey?, Option.bind_eq_bind, literal?_append, hrun, Option.bind_some] at hsecret
    cases hsecret
  | @web head body signature _ head_ne body_ne signature_ne head_all body_all signature_all _ =>
    obtain ⟨more, r, hrun⟩ := run?_of_append signature_ne signature_all rest'
    have part : ∀ {cs rest : List Char}, 1 ≤ cs.length → (∀ c ∈ cs, isKeyChar c = true) →
        run? isKeyChar 1 (cs ++ (['.'] ++ rest)) = some (cs, ['.'] ++ rest) := fun ne all =>
      run?_eq_some.2 ⟨rfl, ne, all, by simp [isKeyChar]⟩
    have htext : "eyJ".toList ++ head ++ '.' :: body ++ '.' :: signature ++ rest' =
        "eyJ".toList ++ (head ++ (['.'] ++ (body ++ (['.'] ++ (signature ++ rest'))))) := by simp
    rw [htext] at hweb
    simp only [webToken?, Option.bind_eq_bind, literal?_append, part head_ne head_all,
      part body_ne body_all, hrun, Option.bind_some] at hweb
    cases hweb
  | hub isKind length all _ =>
    obtain ⟨more, r, hrun⟩ := run?_of_append length all rest'
    have hstep := List.findSome?_eq_none_iff.1 hhub _ isKind
    rw [List.append_assoc] at hstep
    simp only [Option.bind_eq_bind, literal?_append, hrun, Option.bind_some] at hstep
    cases hstep
  | chat isKind length all _ =>
    obtain ⟨more, r, hrun⟩ := run?_of_append length all rest'
    have hstep := List.findSome?_eq_none_iff.1 hchat _ isKind
    rw [List.append_assoc] at hstep
    simp only [Option.bind_eq_bind, literal?_append, hrun, Option.bind_some] at hstep
    cases hstep
  | @access body _ length all stops =>
    have word : ∀ c ∈ "AKIA".toList ++ body, Text.isWord c = true := by
      intro c hc
      refine isWord_of_isAlphanum ?_
      rcases List.mem_append.1 hc with hc | hc
      · have : ∀ c ∈ "AKIA".toList, c.isAlphanum = true := List.all_eq_true.1 (by decide)
        exact this c hc
      · exact isAlphanum_of_isDigit_or_isUpper (all c hc)
    have hends := startsWord_eq_false.2 (ends (endsInWord_of_forall (by simp) word _) stops)
    have hbody : body.all (fun c => c.isDigit || c.isUpper) = true := by simpa using all
    rw [List.append_assoc] at haccess
    simp only [accessKey?, Option.bind_eq_bind, literal?_append, Option.bind_some, ← length,
      List.take_left, List.drop_left, hends, hbody] at haccess
    simp at haccess

theorem char (stands : TokenStands m rest) {c : Char} (hc : c ∈ m) :
    isKeyChar c = true ∨ c = '.' := by
  cases stands with
  | secret _ all _ =>
    have start : ∀ c ∈ "sk-".toList, isKeyChar c = true := List.all_eq_true.1 (by decide)
    exact .inl ((List.mem_append.1 hc).elim (start c) (all c))
  | web _ _ _ head_all body_all signature_all _ =>
    have start : ∀ c ∈ "eyJ".toList, isKeyChar c = true := List.all_eq_true.1 (by decide)
    simp only [List.mem_append, List.mem_cons] at hc
    rcases hc with ((hc | hc) | hc | hc) | hc | hc
    · exact .inl (start c hc)
    · exact .inl (head_all c hc)
    · exact .inr hc
    · exact .inl (body_all c hc)
    · exact .inr hc
    · exact .inl (signature_all c hc)
  | @hub kind _ _ isKind _ all _ =>
    have kinds : ∀ kind ∈ ['p', 'o', 'u', 's', 'r'], isKeyChar kind = true :=
      List.all_eq_true.1 (by decide)
    have start : ['g', 'h', kind, '_'].all isKeyChar = true := by
      simp only [List.all_cons, kinds kind isKind]
      decide
    refine .inl ((List.mem_append.1 hc).elim (List.all_eq_true.1 start c) fun hc => ?_)
    simp [isKeyChar, all c hc]
  | @chat kind _ _ isKind _ all _ =>
    have kinds : ∀ kind ∈ ['a', 'b', 'p', 'r', 's'], isKeyChar kind = true :=
      List.all_eq_true.1 (by decide)
    have start : ['x', 'o', 'x', kind, '-'].all isKeyChar = true := by
      simp only [List.all_cons, kinds kind isKind]
      decide
    refine .inl ((List.mem_append.1 hc).elim (List.all_eq_true.1 start c) fun hc => ?_)
    rcases Bool.or_eq_true_iff.1 (all c hc) with h | h <;> simp [isKeyChar, h]
  | access _ all _ =>
    have start : ∀ c ∈ "AKIA".toList, isKeyChar c = true := List.all_eq_true.1 (by decide)
    refine .inl ((List.mem_append.1 hc).elim (start c) fun hc => ?_)
    simp [isKeyChar, isAlphanum_of_isDigit_or_isUpper (all c hc)]

theorem not_mem (stands : TokenStands m rest) : '=' ∉ m ∧ '[' ∉ m :=
  ⟨fun hc => absurd (stands.char hc) (by decide), fun hc => absurd (stands.char hc) (by decide)⟩

theorem head (stands : TokenStands m rest) :
    ∃ c tail, m = c :: tail ∧ c ∈ ['s', 'e', 'g', 'x', 'A'] := by
  cases stands <;> simp

theorem stops (stands : TokenStands m rest) : Stops Char.isAlphanum rest := by
  cases stands with
  | secret _ _ stops => exact stops.mono fun c hc => by simp [isKeyChar, hc]
  | web _ _ _ _ _ _ stops => exact stops.mono fun c hc => by simp [isKeyChar, hc]
  | hub _ _ _ stops => exact stops
  | chat _ _ _ stops => exact stops.mono fun c hc => by simp [hc]
  | access _ _ stops => exact stops.mono fun c hc => isWord_of_isAlphanum hc

end TokenStands

theorem tokenRule_sound : Rule.Sound tokenRule := by
  intro cs h found
  obtain ⟨m, rest, rfl, rfl, stands⟩ := tokenRule_stands found
  obtain ⟨c, tail, rfl, -⟩ := stands.head
  exact ⟨by simp, List.prefix_append _ _⟩

theorem tokenRule_marks : Rule.Marks tokenRule := by
  intro cs h found c hc
  obtain ⟨m, rest, rfl, -, -⟩ := tokenRule_stands found
  exact .inr (.tail _ hc)

end Tokens

end Flowgraph.Redaction
