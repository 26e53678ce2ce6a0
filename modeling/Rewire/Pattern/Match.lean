import Rewire.Pattern.Predicate

/-!
# Occurrences of patterns

A pattern occurs where consecutive instructions satisfy its predicates one by one; labels and lines
in between do not matter. This file fixes

* where an attempt to match from a position ends (`window?`);
* occurrences as spans of nodes (`Match`), which also take the markers right after them;
* all occurrences from left to right without overlap (`Method.matches`). The scan goes on after an
  occurrence, and at the next node where there is none, so an occurrence may start with markers
  that stand before its first instruction. The empty pattern has no occurrence.
-/

namespace Rewire

/-! ## 1. One attempt -/

/-- The position of the instruction that satisfies the last predicate, when the instructions from
    `i` on satisfy the predicates one by one. The attempt started at `first`. -/
def window? (m : Method) (first : Nat) (p : Predicate) (rest : List Predicate) (i : Nat)
    (hi : first ≤ i) : Option { last : Nat // first ≤ last ∧ last < m.nodes.size } :=
  if h : i < m.nodes.size then
    if m.nodes[i].isMarker then window? m first p rest (i + 1) (by omega)
    else if p.test m i then
      match rest with
      | [] => some ⟨i, hi, h⟩
      | q :: rest => window? m first q rest (i + 1) (by omega)
    else none
  else none
termination_by m.nodes.size - i

/-! ## 2. Occurrences -/

/-- An occurrence of a pattern, by positions of nodes. -/
structure Match where
  /-- The first node, which may be a marker before the first instruction. -/
  first : Nat
  /-- The instruction that satisfies the last predicate. -/
  last : Nat
  /-- The position after the last node: markers right after the last instruction are included. -/
  stop : Nat
  deriving DecidableEq, Repr, Inhabited

/-- The positions of all nodes of an occurrence. -/
def Match.nodes (found : Match) : List Nat :=
  List.range' found.first (found.stop - found.first)

/-- The occurrence that starts at a position. -/
def matchAt? (m : Method) (p : Predicate) (rest : List Predicate) (first : Nat) :
    Option { found : Match // first < found.stop } :=
  (window? m first p rest first (Nat.le_refl _)).map fun ⟨last, hl⟩ =>
    ⟨{ first, last, stop := skipMarkers m.nodes (last + 1) },
      by
        have : last + 1 ≤ skipMarkers m.nodes (last + 1) := le_skipMarkers (by omega)
        simp only
        omega⟩

/-- The occurrences from a position on, after those in `done`. -/
def matchesFrom (m : Method) (p : Predicate) (rest : List Predicate) (done : Array Match)
    (first : Nat) : Array Match :=
  if first < m.nodes.size then
    match matchAt? m p rest first with
    | some ⟨found, _⟩ => matchesFrom m p rest (done.push found) found.stop
    | none => matchesFrom m p rest done (first + 1)
  else done
termination_by m.nodes.size - first

/-- All occurrences of a pattern in a method, from left to right. -/
def Method.matches (m : Method) : List Predicate → List Match
  | [] => []
  | p :: rest => (matchesFrom m p rest #[] 0).toList

end Rewire
