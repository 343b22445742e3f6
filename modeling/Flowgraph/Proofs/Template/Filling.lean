import Flowgraph.Proofs.Template.Placeholders

/-! Placeholders filled in. Going from the left, each placeholder of a text gives way to something else
and the text between them stays; with each in its own place again the text is what it was. -/

namespace Flowgraph.Template

/-- The text with something else in the place of every placeholder. -/
def fill (f : List Char → List Char) : List Char → List Char
  | [] => []
  | c :: cs =>
    match h : placeholder? (c :: cs) with
    | some (body, rest) =>
      have : rest.length < (c :: cs).length := length_lt_of_placeholder? h
      f body ++ fill f rest
    | none => c :: fill f cs
termination_by cs => cs.length
decreasing_by
  · exact this
  · exact Nat.lt_succ_self _

/-- No placeholder stands in the text. -/
def Plain (text : String) : Prop := ∀ body, Braceless body → ¬ braced body <:+: text.toList

theorem hasPlaceholder_eq_false {text : String} : hasPlaceholder text = false ↔ Plain text := by
  rw [← bodies_eq_nil_iff, List.eq_nil_iff_forall_not_mem]
  exact forall_congr' fun body => by rw [mem_bodies_iff, not_and]

instance (text : String) : Decidable (Plain text) :=
  decidable_of_iff (hasPlaceholder text = false) hasPlaceholder_eq_false

section Filling

variable (f : List Char → List Char) {c : Char} {cs body rest : List Char}

@[simp] theorem fill_nil : fill f [] = [] := by rw [fill]

theorem fill_of_some (h : placeholder? (c :: cs) = some (body, rest)) :
    fill f (c :: cs) = f body ++ fill f rest := by
  rw [fill]
  split <;> simp_all

theorem fill_of_none (h : placeholder? (c :: cs) = none) :
    fill f (c :: cs) = c :: fill f cs := by
  rw [fill]
  split <;> simp_all

theorem pieces_of_some (h : placeholder? (c :: cs) = some (body, rest)) :
    pieces (c :: cs) = .placeholder body :: pieces rest := by
  rw [pieces]
  split <;> simp_all

theorem pieces_of_none (h : placeholder? (c :: cs) = none) :
    pieces (c :: cs) = push c (pieces cs) := by
  rw [pieces]
  split <;> simp_all

/-- What stands for the piece in the text that is filled in. -/
def Piece.filled : Piece → List Char
  | .text cs => cs
  | .placeholder body => f body

theorem flatMap_push (c : Char) (found : List Piece) :
    (push c found).flatMap (Piece.filled f) = c :: found.flatMap (Piece.filled f) := by
  cases found with
  | nil => rfl
  | cons piece found => cases piece <;> rfl

/-- Filling in goes piece by piece. -/
theorem fill_eq (cs : List Char) : fill f cs = (pieces cs).flatMap (Piece.filled f) := by
  induction cs using pieces.induct with
  | case1 => simp [pieces]
  | case2 c cs body rest h _ ih =>
    rw [fill_of_some f h, pieces_of_some h, ih, List.flatMap_cons, Piece.filled]
  | case3 c cs h ih => rw [fill_of_none f h, pieces_of_none h, ih, flatMap_push]

/-- Putting the placeholders back gives the text. -/
theorem fill_braced (cs : List Char) : fill braced cs = cs := by
  induction cs using pieces.induct with
  | case1 => simp
  | case2 c cs body rest h _ ih => rw [fill_of_some _ h, ih, ← eq_of_placeholder? h]
  | case3 c cs h ih => rw [fill_of_none _ h, ih]

theorem fill_of_texts (h : ∀ piece ∈ pieces cs, piece.body? = none) : fill f cs = cs := by
  conv_rhs => rw [← fill_braced cs]
  rw [fill_eq, fill_eq]
  refine List.flatMap_congr fun piece hpiece => ?_
  cases piece with
  | text => rfl
  | placeholder => exact absurd (h _ hpiece) (by simp [Piece.body?])

theorem pieces_braced (h : Braceless body) : pieces (braced body) = [.placeholder body] := by
  have hfound : placeholder? (braced body) = some (body, []) :=
    placeholder?_eq_some.2 ⟨h, by simp⟩
  have hpieces : pieces (braced body) = .placeholder body :: pieces [] := pieces_of_some hfound
  simpa [pieces] using hpieces

theorem mem_bodies_of_mem_pieces (h : .placeholder body ∈ pieces cs) : body ∈ bodies cs := by
  rw [← filterMap_pieces]
  exact List.mem_filterMap.2 ⟨_, h, rfl⟩

/-- A text that is one placeholder has no other piece. -/
theorem pieces_eq_singleton : pieces cs = [.placeholder body] ↔ placeholder? cs = some (body, []) := by
  constructor
  · intro h
    have hcs : cs = braced body := by
      rw [← fill_braced cs, fill_eq, h]
      simp [Piece.filled]
    have hmem : body ∈ bodies cs := mem_bodies_of_mem_pieces (by simp [h])
    exact placeholder?_eq_some.2 ⟨(mem_bodies_iff.1 hmem).1, by simp [hcs]⟩
  · intro h
    obtain ⟨hbody, rfl⟩ := placeholder?_eq_some.1 h
    rw [List.append_nil, pieces_braced hbody]

end Filling

end Flowgraph.Template
