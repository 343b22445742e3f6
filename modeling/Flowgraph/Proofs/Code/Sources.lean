import Flowgraph.Proofs.Code.Lines
import Flowgraph.Proofs.Text.Delimited

/-! Reading expressions in generated code. The source of an expression begins as that of no other form
does, and it tells where it ends, so it is followed by anything and still comes from one expression
only. Names end at the first character that no name has. -/

namespace Flowgraph.Code

open Text

def Piece.Legible : Piece → Prop
  | text _ => True
  | picked p => IsName p.name

/-- An expression that picks from variables only, and whose literals are read back from their texts. -/
inductive Expr.Legible (parse : String → Option Json) : Expr → Prop
  | text {s} : Legible parse (.text s)
  | scalar {v} : (∀ c ∈ v.text.toList, c ≠ ')') → parse v.text = some v → Legible parse (.scalar v)
  | parsed {v} : parse v.text = some v → Legible parse (.parsed v)
  | pick {p} : IsName p.name → Legible parse (.pick p)
  | concat {pieces} : (∀ p ∈ pieces, Piece.Legible p) → Legible parse (.concat pieces)
  | object {fields} : (∀ field ∈ fields, Legible parse field.2) → Legible parse (.object fields)
  | array {items} : (∀ e ∈ items, Legible parse e) → Legible parse (.array items)

/-- The text goes on with nothing that could belong to a name. -/
abbrev EndsName (q : List Char) : Prop := Redaction.Stops (fun c => decide (NamePart c)) q

theorem tells_name {name : String} (h : IsName name) : Tells String.toList IsName EndsName name :=
  fun _ hb q r => tells_word (fun c hc => decide_eq_true (h.namePart c hc)) _
    (fun c hc => decide_eq_true (hb.namePart c hc)) q r

theorem tells_stringOf (s : String) :
    Tells (fun s => (stringOf s).toList) (fun _ => True) (fun _ => True) s :=
  (tells_quote s).between "String::from(" ")" fun _ => trivial

theorem tells_pick {p : Pick} (hp : IsName p.name) :
    Tells (fun p => p.text.toList) (fun p => IsName p.name) (fun _ => True) p := by
  intro b hb q r _ _ h
  obtain ⟨name, path⟩ := p
  obtain ⟨name', path'⟩ := b
  simp only [Pick.text, String.toList_append, List.append_assoc] at h
  obtain ⟨rfl, hpath⟩ := tells_name hp name' hb _ _ (by simp [NamePart]) (by simp [NamePart])
    (List.append_cancel_left h)
  have hclose : ∀ q, "])".toList ++ q = ']' :: ')' :: q := fun _ => by simp
  rw [List.append_cancel_left_eq, hclose, hclose] at hpath
  obtain ⟨rfl, hqr⟩ := eq_of_separated (fun s _ => tells_quote s) (fun _ _ => trivial)
    (fun _ _ => trivial) (fun s _ => ⟨'"', (escape s).toList ++ ['"'], by simp [quote], by decide⟩) hpath
  exact ⟨rfl, (List.cons.inj hqr).2⟩

theorem tells_piece {p : Piece} (hp : p.Legible) :
    Tells (fun p => p.source.toList) Piece.Legible (fun _ => True) p := by
  intro b hb q r hq hr h
  cases p with
  | text s =>
    cases b with
    | text t =>
      obtain ⟨rfl, hqr⟩ := tells_stringOf s t trivial q r hq hr h
      exact ⟨rfl, hqr⟩
    | picked p => simp [Piece.source, stringOf] at h
  | picked p =>
    cases b with
    | text t => simp [Piece.source, stringOf] at h
    | picked p' =>
      obtain ⟨rfl, hqr⟩ :=
        (tells_pick hp).between "text(&" ")" (fun _ => trivial) p' hb q r hq hr h
      exact ⟨rfl, hqr⟩

/-- What the source of an expression begins with. -/
def Expr.opening : Expr → String
  | .text _ => "Value::from("
  | .scalar _ => "json!("
  | .parsed _ => "lit("
  | .pick _ => "pick("
  | .concat _ => "Value::String(["
  | .object _ => "\x7b let mut m = Map::new(); "
  | .array _ => "Value::Array(vec!["

def openings : List String :=
  ["Value::from(", "json!(", "lit(", "pick(", "Value::String([", "\x7b let mut m = Map::new(); ",
   "Value::Array(vec!["]

theorem opening_mem (e : Expr) : e.opening ∈ openings := by
  cases e <;> simp [Expr.opening, openings]

/-- No form begins as another one does. -/
theorem openings_apart : ∀ a ∈ openings, ∀ b ∈ openings, a.toList <+: b.toList → a = b := by
  decide +kernel

theorem source_begins (e : Expr) : e.opening.toList <+: e.source.toList := by
  have hbetween : ∀ a b c : String, a.toList <+: (a ++ b ++ c).toList := fun a b c => by
    simp only [String.toList_append, List.append_assoc, List.prefix_append]
  cases e with
  | text s => exact hbetween "Value::from(" (quote s) ")"
  | scalar v => exact hbetween "json!(" v.text ")"
  | parsed v => exact hbetween "lit(" (quote v.text) ")"
  | pick p =>
    have hpick : "pick(".toList <+: p.text.toList := by
      simp only [Pick.text, String.toList_append, List.append_assoc, List.prefix_append]
    exact hpick
  | concat pieces =>
    exact hbetween "Value::String([" (", ".intercalate (pieces.map Piece.source)) "].concat())"
  | object fields =>
    exact hbetween "\x7b let mut m = Map::new(); " (String.join (Expr.fieldSources fields))
      "Value::Object(m) \x7d"
  | array items =>
    exact hbetween "Value::Array(vec![" (", ".intercalate (Expr.itemSources items)) "])"

theorem opening_eq {e e' : Expr} {q r : List Char}
    (h : e.source.toList ++ q = e'.source.toList ++ r) : e.opening = e'.opening := by
  have hleft : e.opening.toList <+: e.source.toList ++ q :=
    (source_begins e).trans (List.prefix_append _ _)
  have hright : e'.opening.toList <+: e.source.toList ++ q :=
    h ▸ (source_begins e').trans (List.prefix_append _ _)
  rcases List.prefix_or_prefix_of_prefix hleft hright with hp | hp
  · exact openings_apart _ (opening_mem e) _ (opening_mem e') hp
  · exact (openings_apart _ (opening_mem e') _ (opening_mem e) hp).symm

theorem itemSources_eq_map (items : List Expr) : Expr.itemSources items = items.map Expr.source := by
  induction items with
  | nil => rfl
  | cons e rest ih => rw [Expr.itemSources, ih, List.map_cons]

/-- How a field is put into a map. -/
def fieldSource (field : String × Expr) : String :=
  "m.insert(" ++ stringOf field.1 ++ ", " ++ field.2.source ++ "); "

theorem fieldSources_eq_map (fields : List (String × Expr)) :
    Expr.fieldSources fields = fields.map fieldSource := by
  induction fields with
  | nil => rfl
  | cons field rest ih => rw [fieldSources_cons, ih, List.map_cons, fieldSource]

variable {parse : String → Option Json}

/-- A value with a name before it. -/
theorem tells_field {before behind : String} {field : String × Expr}
    (h : Tells (fun e => e.source.toList) (Expr.Legible parse) (fun _ => True) field.2) :
    Tells (fun field : String × Expr =>
        (before ++ stringOf field.1 ++ ", " ++ field.2.source ++ behind).toList)
      (fun field => field.2.Legible parse) (fun _ => True) field := by
  rintro ⟨key', e'⟩ he' q r - - heq
  obtain ⟨key, e⟩ := field
  simp only [String.toList_append, List.append_assoc, List.append_cancel_left_eq] at heq
  obtain ⟨rfl, hrest⟩ := tells_stringOf key key' trivial _ _ trivial trivial heq
  obtain ⟨rfl, hqr⟩ := h e' he' _ _ trivial trivial (List.append_cancel_left hrest)
  exact ⟨rfl, List.append_cancel_left hqr⟩

theorem tells_parsed {v : Json} (hv : parse v.text = some v) :
    Tells (fun v => (quote v.text).toList) (fun v => parse v.text = some v) (fun _ => True) v := by
  intro w hw q r hq hr h
  obtain ⟨htext, hqr⟩ := tells_quote v.text w.text trivial q r hq hr h
  exact ⟨Option.some.inj (hv.symm.trans (htext ▸ hw)), hqr⟩

theorem tells_scalar {v : Json} (hv : ∀ c ∈ v.text.toList, c ≠ ')') (hparse : parse v.text = some v) :
    Tells (fun v => v.text.toList)
      (fun v => (∀ c ∈ v.text.toList, c ≠ ')') ∧ parse v.text = some v)
      (Redaction.Stops fun c => decide (c ≠ ')')) v := by
  intro w hw q r hq hr h
  obtain ⟨htext, hqr⟩ := tells_word (fun c hc => decide_eq_true (hv c hc)) w.text
    (fun c hc => decide_eq_true (hw.1 c hc)) q r hq hr h
  exact ⟨Option.some.inj (hparse.symm.trans (htext ▸ hw.2)), hqr⟩

theorem source_ne_bracket (e : Expr) : ∃ c rest, e.source.toList = c :: rest ∧ c ≠ ']' := by
  have hopenings : ∀ s ∈ openings, s.toList ≠ [] ∧ s.toList.head? ≠ some ']' := by decide +kernel
  obtain ⟨hne, hhead⟩ := hopenings e.opening (opening_mem e)
  obtain ⟨rest, hrest⟩ := source_begins e
  obtain ⟨c, others, hothers⟩ := List.exists_cons_of_ne_nil hne
  rw [hothers] at hhead
  exact ⟨c, others ++ rest, by rw [← hrest, hothers, List.cons_append], by simpa using hhead⟩

theorem piece_ne_bracket {p : Piece} (_ : p.Legible) :
    ∃ c rest, p.source.toList = c :: rest ∧ c ≠ ']' := by
  cases p with
  | text s =>
    exact ⟨'S', ("tring::from(" ++ quote s ++ ")").toList, by simp [Piece.source, stringOf], by decide⟩
  | picked p => exact ⟨'t', ("ext(&" ++ p.text ++ ")").toList, by simp [Piece.source], by decide⟩

/-- Expressions of one form tell what they are if nothing else has that form. -/
theorem tells_form {β : Type} {f : β → Expr} {valid : β → Prop} {a : β}
    (h : Tells (fun a => (f a).source.toList) valid (fun _ => True) a)
    (hform : ∀ e : Expr, e.Legible parse → (f a).opening = e.opening → ∃ b, valid b ∧ e = f b) :
    Tells (fun e => e.source.toList) (Expr.Legible parse) (fun _ => True) (f a) := by
  intro e he q r hq hr heq
  obtain ⟨b, hb, rfl⟩ := hform e he (opening_eq heq)
  obtain ⟨rfl, hqr⟩ := h b hb q r hq hr heq
  exact ⟨rfl, hqr⟩

/-- A list in brackets, between two fixed texts. -/
theorem tells_separated {β : Type} {write : β → String} {valid : β → Prop} {as : List β}
    (before behind : String) (hclose : ∃ rest, behind.toList = ']' :: rest)
    (htells : ∀ a ∈ as, Tells (fun a => (write a).toList) valid (fun _ => True) a)
    (ha : ∀ a ∈ as, valid a)
    (hopen : ∀ a, valid a → ∃ c rest, (write a).toList = c :: rest ∧ c ≠ ']') :
    Tells (fun as : List β => (before ++ ", ".intercalate (as.map write) ++ behind).toList)
      (fun as => ∀ a ∈ as, valid a) (fun _ => True) as := by
  intro bs hb q r _ _ h
  obtain ⟨rest, hrest⟩ := hclose
  simp only [String.toList_append, List.append_assoc, hrest, List.append_cancel_left_eq,
    List.cons_append] at h
  obtain ⟨rfl, hqr⟩ := eq_of_separated htells ha hb hopen h
  exact ⟨rfl, List.append_cancel_left hqr⟩

/-- The source of an expression tells the expression. -/
theorem Expr.Legible.tells {e : Expr} (h : e.Legible parse) :
    Tells (fun e => e.source.toList) (Expr.Legible parse) (fun _ => True) e := by
  induction h with
  | @text s =>
    refine tells_form (f := Expr.text) ((tells_quote s).between "Value::from(" ")" fun _ => trivial) ?_
    intro e he hopening
    cases he with
    | @text t => exact ⟨t, trivial, rfl⟩
    | _ => simp [Expr.opening] at hopening
  | @scalar v hv hparse =>
    refine tells_form (f := Expr.scalar) ((tells_scalar hv hparse).between "json!(" ")" (by simp)) ?_
    intro e he hopening
    cases he with
    | @scalar w hw hparse => exact ⟨w, ⟨hw, hparse⟩, rfl⟩
    | _ => simp [Expr.opening] at hopening
  | @parsed v hv =>
    refine tells_form (f := Expr.parsed) ((tells_parsed hv).between "lit(" ")" fun _ => trivial) ?_
    intro e he hopening
    cases he with
    | @parsed w hw => exact ⟨w, hw, rfl⟩
    | _ => simp [Expr.opening] at hopening
  | @pick p hp =>
    refine tells_form (f := Expr.pick) (tells_pick hp) ?_
    intro e he hopening
    cases he with
    | @pick p hp => exact ⟨p, hp, rfl⟩
    | _ => simp [Expr.opening] at hopening
  | @concat pieces hpieces =>
    refine tells_form (f := Expr.concat) (tells_separated "Value::String([" "].concat())"
      ⟨".concat())".toList, by simp⟩ (fun p hp => tells_piece (hpieces p hp)) hpieces
      fun p hp => piece_ne_bracket hp) ?_
    intro e he hopening
    cases he with
    | @concat pieces hpieces => exact ⟨pieces, hpieces, rfl⟩
    | _ => simp [Expr.opening] at hopening
  | @object fields hfields ih =>
    have htells : Tells (fun fields : List (String × Expr) => (Expr.object fields).source.toList)
        (fun fields => ∀ field ∈ fields, field.2.Legible parse) (fun _ => True) fields := by
      intro fields' hfields' q r _ _ h
      simp only [source_object, fieldSources_eq_map, String.toList_append, String.toList_join,
        List.append_assoc, List.append_cancel_left_eq, List.flatMap_map] at h
      have hclosing : ∀ q, Closing (fun field : String × Expr => (fieldSource field).toList)
          (fun field => field.2.Legible parse) (fun _ => True) ("Value::Object(m) \x7d".toList ++ q) :=
        fun q => ⟨fun _ _ => trivial, fun _ _ _ he => by simp [fieldSource] at he⟩
      obtain ⟨rfl, hqr⟩ := eq_of_flatMap (fun field hfield => tells_field (ih field hfield)) hfields
        hfields' (hclosing q) (hclosing r) h
      exact ⟨rfl, List.append_cancel_left hqr⟩
    refine tells_form (f := Expr.object) htells ?_
    intro e he hopening
    cases he with
    | @object fields hfields => exact ⟨fields, hfields, rfl⟩
    | _ => simp [Expr.opening] at hopening
  | @array items hitems ih =>
    have htells := tells_separated "Value::Array(vec![" "])" ⟨[')'], by simp⟩ ih hitems
      fun e _ => source_ne_bracket e
    simp only [← itemSources_eq_map] at htells
    refine tells_form (f := Expr.array) htells ?_
    intro e he hopening
    cases he with
    | @array items hitems => exact ⟨items, hitems, rfl⟩
    | _ => simp [Expr.opening] at hopening

end Flowgraph.Code
