import Flowgraph.Proofs.Redaction.Secrecy
import Flowgraph.Redaction.Value

/-! Keys of pairs in text as names of fields. The rule for pairs finds its keys wherever a word
begins, while of a field's name the short keys have to be the whole. -/

namespace Flowgraph.Redaction

variable {cs name key : List Char} {k v : String}

section Names

/-- What counts of a name. -/
def counted (cs : List Char) : List Char := (cs.filter fun c => c ≠ '_' && c ≠ '-').flatMap lowered

theorem normalized_eq (k : String) : normalized k = counted k.toList := rfl

theorem counted_cons (c : Char) (cs : List Char) : counted (c :: cs) = counted [c] ++ counted cs := by
  unfold counted
  rw [← List.flatMap_append, ← List.filter_append, List.singleton_append]

theorem counted_append (xs ys : List Char) : counted (xs ++ ys) = counted xs ++ counted ys := by
  simp [counted]

theorem lowered_ne_nil (c : Char) : lowered c ≠ [] := by
  unfold lowered
  split_ifs <;> simp

/-- Low lines and hyphens count for nothing, and nothing else does. -/
theorem counted_eq_nil : counted cs = [] ↔ ∀ c ∈ cs, c = '_' ∨ c = '-' := by
  simp [counted, lowered_ne_nil, imp_iff_not_or, or_comm]

theorem occursIn_iff {part : List Char} : occursIn part cs = true ↔ part <:+: cs := by
  induction cs with
  | nil => simp [occursIn]
  | cons c cs ih =>
    rw [occursIn, Bool.or_eq_true, List.isPrefixOf_iff_prefix, ih, List.infix_cons_iff]

theorem isSensitiveKey_iff :
    isSensitiveKey k = true ↔
      (∃ whole ∈ wholeKeys, whole.toList = normalized k) ∨
        ∃ fragment ∈ keyFragments, fragment.toList <:+: normalized k := by
  simp [isSensitiveKey, occursIn_iff]

theorem isSensitiveKey_of_fragment {fragment : String} (h : fragment ∈ keyFragments)
    (inName : fragment.toList <:+: normalized k) : isSensitiveKey k = true :=
  isSensitiveKey_iff.2 (.inr ⟨fragment, h, inName⟩)

end Names

section Pairs

/-- The keys of pairs that are not secret as parts of a name: `pwd`, `key`, `sig`, `signature`. -/
def shortKeys : List String := pairKeys.filter (wholeKeys.contains ·)

theorem shortKey_counted : ∀ short ∈ shortKeys, counted short.toList = short.toList := by
  decide +kernel

/-- Short keys end no other name that is secret as a whole. -/
theorem shortKey_suffix : ∀ short ∈ shortKeys, ∀ whole ∈ wholeKeys,
    short.toList <:+ whole.toList → whole = short := by
  decide +kernel

theorem fragment_of_not_short : ∀ name ∈ pairKeys, name ∉ shortKeys →
    ∃ fragment ∈ keyFragments, fragment.toList <:+: counted name.toList := by
  decide +kernel

theorem keyForms : ∀ name ∈ pairKeys, ∀ letter ∈ name.toList, ∀ c ∈ forms letter, c ≠ '\u017f' →
    isForm letter c = true → counted [c] = counted [letter] := by
  have checked : (pairKeys.all fun name => name.toList.all fun letter => (forms letter).all fun c =>
      c == '\u017f' || !isForm letter c || counted [c] == counted [letter]) = true := by decide +kernel
  simp only [List.all_eq_true, Bool.or_eq_true, beq_iff_eq, Bool.not_eq_true'] at checked
  intro name hname letter hletter c hc notLong form
  rcases checked name hname letter hletter c hc with (long | notForm) | same
  · exact absurd long notLong
  · simp [notForm] at form
  · exact same

/-- However a key is spelled without the long s, the same counts of it. -/
theorem Spells.counted (spells : Spells name key) (plain : '\u017f' ∉ key)
    (letters : ∀ letter ∈ name, ∀ c ∈ forms letter, c ≠ '\u017f' → isForm letter c = true →
      counted [c] = counted [letter]) : Redaction.counted key = Redaction.counted name := by
  induction spells with
  | nil => rfl
  | @cons letter c name key form _ ih =>
    obtain ⟨hc, plain⟩ := not_or.1 (List.mem_cons.not.1 plain)
    rw [counted_cons c, counted_cons letter,
      letters letter (.head _) c (mem_forms form) (Ne.symm hc) form,
      ih plain fun letter h => letters letter (.tail _ h)]

/-- A pair that ends the text `k=v` with all of the value ends the name `k` with its key. -/
theorem key_at_end
    (masked : (chunks pairRule (k.toList ++ '=' :: v.toList)).getLast? =
      some (.hit (KeyValue.hit ⟨key, v.toList⟩))) :
    (∃ start, k.toList = start ++ key) ∧ IsKey key := by
  obtain ⟨before, hchunks⟩ := List.getLast?_eq_some_iff.1 masked
  have split := splits_chunks pairRule_sound (k.toList ++ '=' :: v.toList)
  rw [hchunks] at split
  obtain ⟨p, hp, stands⟩ := pairRule_stands_before split.at_hit.1
  obtain rfl := KeyValue.hit_injective hp
  have htext := split.sources_eq
  rw [sources_append, sources_hit, sources_nil, List.append_nil, KeyValue.hit,
    ← List.append_assoc] at htext
  exact ⟨⟨sources before, (List.append_cancel_right htext).symm⟩, stands.key⟩

/-- A short key behind characters that count, in a name that holds no fragment. -/
structure Overlooked (k : String) (key : List Char) : Prop where
  isShort : ∃ short ∈ shortKeys, Spells short.toList key
  behind : ∃ start, k.toList = start ++ key ∧ ∃ c ∈ start, c ≠ '_' ∧ c ≠ '-'
  noFragment : ∀ fragment ∈ keyFragments, ¬ fragment.toList <:+: normalized k

/-- A key with the long s in a name that holds no fragment. -/
structure Disguised (k : String) (key : List Char) : Prop where
  long : '\u017f' ∈ key
  noFragment : ∀ fragment ∈ keyFragments, ¬ fragment.toList <:+: normalized k

theorem normalized_of_key {start : List Char} (ends : k.toList = start ++ key)
    (spells : Spells name key) (plain : '\u017f' ∉ key) (isKey : String.ofList name ∈ pairKeys) :
    normalized k = counted start ++ counted name := by
  have hkey := spells.counted plain fun letter h => keyForms _ isKey letter (by simpa using h)
  rw [normalized_eq, ends, counted_append, hkey]

theorem isSensitiveKey_of_not_overlooked {start : List Char} (ends : k.toList = start ++ key)
    (isKey : IsKey key) (plain : ¬ Disguised k key) (seen : ¬ Overlooked k key) :
    isSensitiveKey k = true := by
  obtain ⟨name, hname, spells⟩ := isKey
  by_contra hnot
  have noFragment : ∀ fragment ∈ keyFragments, ¬ fragment.toList <:+: normalized k :=
    fun fragment hfragment inName => hnot (isSensitiveKey_of_fragment hfragment inName)
  have plain : '\u017f' ∉ key := fun long => plain ⟨long, noFragment⟩
  have hk := normalized_of_key ends spells plain (by simpa using hname)
  by_cases hshort : name ∈ shortKeys
  · refine seen ⟨⟨name, hshort, spells⟩, ⟨start, ends, ?_⟩, noFragment⟩
    by_contra! hstart
    have hnil : counted start = [] :=
      counted_eq_nil.2 fun c hc => or_iff_not_imp_left.2 (hstart c hc)
    refine hnot (isSensitiveKey_iff.2 (.inl ⟨name, by simpa using (List.mem_filter.1 hshort).2, ?_⟩))
    rw [hk, hnil, shortKey_counted name hshort, List.nil_append]
  · obtain ⟨fragment, hfragment, inName⟩ := fragment_of_not_short name hname hshort
    refine noFragment fragment hfragment ?_
    rw [hk]
    exact inName.trans (List.suffix_append _ _).isInfix

theorem Overlooked.not_isSensitiveKey (overlooked : Overlooked k key) (plain : ¬ Disguised k key) :
    isSensitiveKey k = false := by
  obtain ⟨⟨short, hshort, spells⟩, ⟨start, ends, c, hc, counts⟩, noFragment⟩ := overlooked
  have plain : '\u017f' ∉ key := fun long => plain ⟨long, noFragment⟩
  have hk := normalized_of_key ends spells plain (by simpa using (List.mem_filter.1 hshort).1)
  rw [shortKey_counted short hshort] at hk
  refine Bool.eq_false_iff.2 fun sensitive => ?_
  rcases isSensitiveKey_iff.1 sensitive with ⟨whole, hwhole, heq⟩ | ⟨fragment, hfragment, inName⟩
  · have hsuffix : short.toList <:+ whole.toList := by
      rw [heq, hk]
      exact List.suffix_append _ _
    obtain rfl := shortKey_suffix short hshort whole hwhole hsuffix
    have hnil : counted start = [] := List.append_left_eq_self.1 (hk.symm.trans heq.symm)
    exact (counted_eq_nil.1 hnil c hc).elim counts.1 counts.2
  · exact noFragment fragment hfragment inName

/-- A name that the rule for pairs takes in `k=v`, or takes the end of, is the name of a secret
field, unless all it takes is a short key that does not stand for itself. Nothing is said of a key
with the long s in a name that holds no fragment. -/
theorem isSensitiveKey_of_masked_pair
    (masked : (chunks pairRule (k.toList ++ '=' :: v.toList)).getLast? =
      some (.hit (KeyValue.hit ⟨key, v.toList⟩)))
    (plain : ¬ Disguised k key) :
    (¬ Overlooked k key → isSensitiveKey k = true ∧
        redact (.object [(k, .string v)]) = .object [(k, .string redactedText)]) ∧
      (Overlooked k key → isSensitiveKey k = false) := by
  obtain ⟨⟨start, ends⟩, isKey⟩ := key_at_end masked
  refine ⟨fun seen => ?_, fun overlooked => overlooked.not_isSensitiveKey plain⟩
  have sensitive := isSensitiveKey_of_not_overlooked ends isKey plain seen
  exact ⟨sensitive, by simp [redact, redactFields, Json.isNull, sensitive]⟩

/-- The key behind a point, where it holds a fragment and where it does not, and behind a hyphen; and
a key with the long s beside a fragment. -/
theorem isSensitiveKey_of_masked_pair_behind_sign :
    isSensitiveKey "my.api_KEY" = true ∧ isSensitiveKey "-key" = true ∧
      isSensitiveKey "x.key" = false ∧ isSensitiveKey "acce\u017fs_token" = true := by
  have fragment : (chunks pairRule ("my.api_KEY".toList ++ '=' :: "v".toList)).getLast? =
      some (.hit (KeyValue.hit ⟨"api_KEY".toList, "v".toList⟩)) := by decide +kernel
  have hyphen : (chunks pairRule ("-key".toList ++ '=' :: "v".toList)).getLast? =
      some (.hit (KeyValue.hit ⟨"key".toList, "v".toList⟩)) := by decide +kernel
  have point : (chunks pairRule ("x.key".toList ++ '=' :: "v".toList)).getLast? =
      some (.hit (KeyValue.hit ⟨"key".toList, "v".toList⟩)) := by decide +kernel
  have long : (chunks pairRule ("acce\u017fs_token".toList ++ '=' :: "v".toList)).getLast? =
      some (.hit (KeyValue.hit ⟨"acce\u017fs_token".toList, "v".toList⟩)) := by decide +kernel
  have short : '\u017f' ∉ "key".toList := by decide +kernel
  have token : "token".toList <:+: normalized "acce\u017fs_token" := by decide +kernel
  have apikey : "apikey".toList <:+: normalized "my.api_KEY" := by decide +kernel
  refine ⟨((isSensitiveKey_of_masked_pair fragment fun h => ?_).1 fun h => ?_).1,
    ((isSensitiveKey_of_masked_pair hyphen fun h => short h.long).1 fun h => ?_).1,
    (isSensitiveKey_of_masked_pair point fun h => short h.long).2 ⟨?_, ?_, by decide +kernel⟩,
    ((isSensitiveKey_of_masked_pair long fun h => ?_).1 fun h => ?_).1⟩
  · exact h.noFragment "apikey" (by decide +kernel) apikey
  · exact h.noFragment "apikey" (by decide +kernel) apikey
  · obtain ⟨start, hstart, c, hc, counts⟩ := h.behind
    obtain rfl : ['-'] = start := List.append_cancel_right hstart
    exact counts.2 (List.mem_singleton.1 hc)
  · exact ⟨"key", by decide +kernel, by unfold Spells; decide +kernel⟩
  · exact ⟨['x', '.'], by decide +kernel, 'x', by decide +kernel, by decide +kernel⟩
  · exact h.noFragment "token" (by decide +kernel) token
  · exact h.noFragment "token" (by decide +kernel) token

/-- In text the short key is enough. -/
theorem masked_pair_of_plain_field :
    ¬ ∀ (k v : String) (key : List Char), v ≠ "" → v.toList.all isValueChar = true →
      (chunks pairRule (k.toList ++ '=' :: v.toList)).getLast? =
        some (.hit (KeyValue.hit ⟨key, v.toList⟩)) →
      isSensitiveKey k = true ∧
        redact (.object [(k, .string v)]) = .object [(k, .string redactedText)] := by
  intro all
  have sensitive := (all "x.key" "v" "key".toList (by decide) (by decide +kernel) (by decide +kernel)).1
  exact absurd sensitive (by decide +kernel)

end Pairs

end Flowgraph.Redaction
