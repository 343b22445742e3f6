import Flowgraph.Proofs.Redaction.Runs
import Flowgraph.Proofs.Text.Unquote

/-! What can be told from a text of several parts. A part that tells where it ends can be followed by
anything; so can any number of such parts, if what closes them begins like none of them. -/

namespace Flowgraph.Text

section Lists

variable {β γ : Type} {write : β → List γ} {valid : β → Prop} {ends : List γ → Prop}
  {as bs : List β} {x y : List γ}

/-- What is written for the value tells it and where it ends, if what stands behind is of a kind. -/
def Tells (write : β → List γ) (valid : β → Prop) (ends : List γ → Prop) (a : β) : Prop :=
  ∀ b, valid b → ∀ q r, ends q → ends r → write a ++ q = write b ++ r → a = b ∧ q = r

/-- May stand behind any number of values, and is none of them. -/
structure Closing (write : β → List γ) (valid : β → Prop) (ends : List γ → Prop) (x : List γ) :
    Prop where
  ends : ∀ l : List β, (∀ a ∈ l, valid a) → ends (l.flatMap write ++ x)
  apart : ∀ a, valid a → ∀ q, write a ++ q ≠ x

/-- A text tells how many values it begins with, and which. -/
theorem eq_of_flatMap (htells : ∀ a ∈ as, Tells write valid ends a) (ha : ∀ a ∈ as, valid a)
    (hb : ∀ b ∈ bs, valid b) (hx : Closing write valid ends x) (hy : Closing write valid ends y)
    (h : as.flatMap write ++ x = bs.flatMap write ++ y) : as = bs ∧ x = y := by
  induction as generalizing bs with
  | nil =>
    cases bs with
    | nil => exact ⟨rfl, h⟩
    | cons b bs =>
      rw [List.flatMap_cons, List.append_assoc] at h
      exact absurd h.symm (hx.apart b (hb b List.mem_cons_self) _)
  | cons a as ih =>
    obtain ⟨htell, htells⟩ := List.forall_mem_cons.1 htells
    obtain ⟨hvalid, ha⟩ := List.forall_mem_cons.1 ha
    cases bs with
    | nil =>
      rw [List.flatMap_cons, List.append_assoc] at h
      exact absurd h (hy.apart a hvalid _)
    | cons b bs =>
      obtain ⟨hhead, htail⟩ := List.forall_mem_cons.1 hb
      rw [List.flatMap_cons, List.flatMap_cons, List.append_assoc, List.append_assoc] at h
      obtain ⟨rfl, hrest⟩ := htell b hhead _ _ (hx.ends as ha) (hy.ends bs htail) h
      obtain ⟨rfl, hxy⟩ := ih htells ha htail hrest
      exact ⟨rfl, hxy⟩

end Lists

section Words

variable {p : Char → Bool} {q r : List Char}

/-- A word ends where a character stands that it has none of. -/
theorem tells_word {s : String} (hs : ∀ c ∈ s.toList, p c = true) :
    Tells String.toList (fun s => ∀ c ∈ s.toList, p c = true) (Redaction.Stops p) s := by
  intro t ht q r hq hr h
  obtain ⟨hst, hqr⟩ := Redaction.eq_of_append_stops hs hq ht hr h
  exact ⟨String.toList_inj.1 hst, hqr⟩

/-- Behind the closing quote nothing is read. -/
theorem eq_nil_of_quote {s t : String} {more : List Char}
    (h : (quote t).toList = (quote s).toList ++ more) : more = [] := by
  have hread := foldlM_quote t
  rw [h, List.foldlM_append, foldlM_quote s] at hread
  cases more with
  | nil => rfl
  | cons c more => cases hread

theorem quote_injective {s t : String} (h : quote s = quote t) : s = t := by
  have hread := congrArg unquote h
  rw [unquote_quote, unquote_quote] at hread
  exact Option.some.inj hread

/-- A quoted text ends at its closing quote. -/
theorem tells_quote (s : String) :
    Tells (fun s => (quote s).toList) (fun _ => True) (fun _ => True) s := by
  rintro t - q r - - h
  have hmore : ∃ more, (quote t).toList = (quote s).toList ++ more ∨
      (quote s).toList = (quote t).toList ++ more := by
    rcases List.append_eq_append_iff.1 h with ⟨more, hmore, -⟩ | ⟨more, hmore, -⟩
    · exact ⟨more, Or.inl hmore⟩
    · exact ⟨more, Or.inr hmore⟩
  obtain ⟨more, hmore⟩ := hmore
  have hnil : more = [] := hmore.elim eq_nil_of_quote eq_nil_of_quote
  rw [hnil, List.append_nil, List.append_nil, String.toList_inj, String.toList_inj] at hmore
  obtain rfl : s = t := quote_injective (hmore.elim Eq.symm id)
  exact ⟨rfl, List.append_cancel_left h⟩

end Words

section Between

variable {β : Type} {write : β → String} {valid : β → Prop} {ends : List Char → Prop} {a : β}

/-- What stands between two fixed texts ends before the second. -/
theorem Tells.between (h : Tells (fun a => (write a).toList) valid ends a) (before behind : String)
    (hends : ∀ q, ends (behind.toList ++ q)) :
    Tells (fun a => (before ++ write a ++ behind).toList) valid (fun _ => True) a := by
  intro b hb q r _ _ he
  simp only [String.toList_append, List.append_assoc] at he
  obtain ⟨rfl, hrest⟩ := h b hb _ _ (hends q) (hends r) (List.append_cancel_left he)
  exact ⟨rfl, List.append_cancel_left hrest⟩

theorem Tells.eq {b : β} (h : Tells (fun a => (write a).toList) valid (fun _ => True) a) (hb : valid b)
    (he : write a = write b) : a = b :=
  (h b hb [] [] trivial trivial (congrArg (String.toList · ++ []) he)).1

end Between

section Separated

variable {β : Type} {write : β → String} {valid : β → Prop} {as bs : List β} {q r : List Char}

theorem toList_intercalate_cons (separator s : String) (l : List String) :
    (separator.intercalate (s :: l)).toList =
      s.toList ++ l.flatMap fun t => separator.toList ++ t.toList := by
  induction l generalizing s with
  | nil => simp
  | cons t l ih => simp [String.intercalate_cons_cons, ih]

/-- A list in brackets tells its items, if none of them begins with a bracket that closes. -/
theorem eq_of_separated
    (htells : ∀ a ∈ as, Tells (fun a => (write a).toList) valid (fun _ => True) a)
    (ha : ∀ a ∈ as, valid a) (hb : ∀ b ∈ bs, valid b)
    (hopen : ∀ a, valid a → ∃ c rest, (write a).toList = c :: rest ∧ c ≠ ']')
    (h : (", ".intercalate (as.map write)).toList ++ ']' :: q =
      (", ".intercalate (bs.map write)).toList ++ ']' :: r) : as = bs ∧ q = r := by
  have hfirst : ∀ {c : β} {rest more : List Char}, valid c →
      ']' :: rest ≠ (write c).toList ++ more := by
    intro c rest more hc he
    obtain ⟨d, others, hwrite, hd⟩ := hopen c hc
    rw [hwrite, List.cons_append] at he
    exact hd (List.cons.inj he).1.symm
  cases as with
  | nil =>
    cases bs with
    | nil => exact ⟨rfl, by simpa using h⟩
    | cons b bs =>
      rw [List.map_cons, toList_intercalate_cons, List.append_assoc] at h
      exact absurd h (hfirst (hb b List.mem_cons_self))
  | cons a as =>
    obtain ⟨htell, htells⟩ := List.forall_mem_cons.1 htells
    obtain ⟨hvalid, ha⟩ := List.forall_mem_cons.1 ha
    cases bs with
    | nil =>
      rw [List.map_cons, toList_intercalate_cons, List.append_assoc] at h
      exact absurd h.symm (hfirst hvalid)
    | cons b bs =>
      obtain ⟨hhead, htail⟩ := List.forall_mem_cons.1 hb
      simp only [List.map_cons, toList_intercalate_cons, List.append_assoc, List.flatMap_map] at h
      obtain ⟨rfl, hrest⟩ := htell b hhead _ _ trivial trivial h
      have hclosing : ∀ q, Closing (fun a => ", ".toList ++ (write a).toList) valid (fun _ => True)
          (']' :: q) := fun q => ⟨fun _ _ => trivial, fun a _ more he => by simp at he⟩
      have htells' : ∀ a ∈ as, Tells (fun a => ", ".toList ++ (write a).toList) valid
          (fun _ => True) a := fun a hmem b hvalid q r hq hr he => by
        rw [List.append_assoc, List.append_assoc] at he
        exact htells a hmem b hvalid q r hq hr (List.append_cancel_left he)
      obtain ⟨rfl, hq⟩ := eq_of_flatMap htells' ha htail (hclosing q) (hclosing r) hrest
      exact ⟨rfl, (List.cons.inj hq).2⟩

end Separated

end Flowgraph.Text
