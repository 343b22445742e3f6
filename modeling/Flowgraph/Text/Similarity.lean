/-! How alike two words are, to tell which known word was meant. Letters are paired with equal
letters that stand not too far off, and pairs that cross count for less. -/

namespace Flowgraph.Text

/-- The letters of `a`, from the one at place `i` on, that find a partner in `b`, and `b` with its
partners marked. A letter takes the first free one that is at most `reach` places off. -/
def pairOff (reach : Nat) : (i : Nat) → (a : List Char) → (b : List (Char × Bool)) →
    List Char × List (Char × Bool)
  | _, [], b => ([], b)
  | i, c :: a, b =>
    let near := b.zipIdx.findIdx? fun ((d, taken), j) =>
      d == c && !taken && i ≤ j + reach && j ≤ i + reach
    match near with
    | none => pairOff reach (i + 1) a b
    | some j =>
      let (paired, b) := pairOff reach (i + 1) a (b.modify j fun (d, _) => (d, true))
      (c :: paired, b)

/-- From 0, nothing in common, to 1, the same. -/
def similarity (a b : String) : Float :=
  let a := a.toList
  let b := b.toList
  let (paired, marked) := pairOff (max a.length b.length / 2 - 1) 0 a (b.map (·, false))
  let partners := (marked.filter (·.2)).map (·.1)
  let crossed := ((paired.zip partners).filter fun (c, d) => c ≠ d).length / 2
  let n := paired.length
  if a.isEmpty && b.isEmpty then 1
  else if n = 0 then 0
  else
    (n.toFloat / a.length.toFloat + n.toFloat / b.length.toFloat +
      (n - crossed).toFloat / n.toFloat) / 3

/-- The words that may have been meant, the likeliest last. -/
def alike (word : String) (known : List String) : List String :=
  let likely := (known.map fun k => (similarity word k, k)).filter fun (s, _) => 0.7 < s
  (likely.mergeSort fun a b => a.1 ≤ b.1).map (·.2)

end Flowgraph.Text
