import Rewire.Pattern.Match

/-!
# Patterns as windows

With the markers out of sight, the code of a method is a sequence of numbered instructions and an
occurrence of a pattern is a window in it. This file fixes

* the position of each instruction (`Method.insnPositions`);
* the windows of a pattern (`Method.IsWindow`);
* the choice of windows from left to right, each the least one that is left (`Method.Greedy`);
* the occurrences that belong to chosen windows (`Method.spans`): an occurrence takes the markers
  around its window, those before it only if no occurrence before has taken them.
-/

namespace Rewire.Method

/-! ## 1. Windows -/

/-- The position of each instruction, in order. -/
def insnPositions (m : Method) : List Nat :=
  (List.range m.nodes.size).filter fun i => (m.nodes[i]?.bind Node.insn?).isSome

/-- The position of the instruction with a number, or the end if there is none. -/
def insnPosition (m : Method) (k : Nat) : Nat :=
  (m.insnPositions[k]?).getD m.nodes.size

/-- The positions of the instructions numbered from `k` on, at most `width` of them. -/
def insnWindow (m : Method) (width k : Nat) : List Nat :=
  (m.insnPositions.drop k).take width

/-- Whether the instructions numbered from `k` on satisfy the predicates of a pattern one by one. -/
def IsWindow (m : Method) (pattern : List Predicate) (k : Nat) : Prop :=
  (m.insnWindow pattern.length k).length = pattern.length ∧
    ∀ pair ∈ pattern.zip (m.insnWindow pattern.length k), pair.1.test m pair.2 = true

instance (m : Method) (pattern : List Predicate) : DecidablePred (m.IsWindow pattern) :=
  fun _ => inferInstanceAs (Decidable (_ ∧ _))

/-- The numbers at which the chosen windows start, looking from `start` on: the least window, then
    the least one after its end, and so on until there is none. -/
inductive Greedy (m : Method) (pattern : List Predicate) : Nat → List Nat → Prop where
  | done {start : Nat} (exhausted : ∀ k, start ≤ k → ¬ m.IsWindow pattern k) :
      Greedy m pattern start []
  | next {start k : Nat} {rest : List Nat} (behind : start ≤ k) (window : m.IsWindow pattern k)
      (least : ∀ j, start ≤ j → j < k → ¬ m.IsWindow pattern j)
      (others : Greedy m pattern (k + pattern.length) rest) : Greedy m pattern start (k :: rest)

/-! ## 2. Occurrences of windows -/

/-- The occurrence of the window at number `k`, found looking from number `start` on. What stands
    right before it belongs to it, except where an occurrence ends just there. -/
def span (m : Method) (width start k : Nat) : Match where
  first :=
    if k = 0 then 0
    else if k = start then m.insnPosition k
    else m.insnPosition (k - 1) + 1
  last := m.insnPosition (k + width - 1)
  stop := m.insnPosition (k + width)

/-- The occurrences of chosen windows. -/
def spans (m : Method) (width start : Nat) : List Nat → List Match
  | [] => []
  | k :: rest => m.span width start k :: m.spans width (k + width) rest

end Rewire.Method
