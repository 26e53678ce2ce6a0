import Rewire.Code.WellFormed
import Rewire.Pattern.Edit
import Rewire.Redirect.Calls

/-!
# Histories of edits

A method is edited step by step. This file fixes

* the edits (`Edit`) and what each makes of a method (`Edit.perform`);
* histories (`History`): sequences of edits, each allowed for the method it finds, with the labels
  that were handed out on the way;
* a condition on edits: the instructions they add jump to labels that are there
  (`Edit.JumpsToPlaced`).
-/

namespace Rewire

/-! ## 1. Edits -/

/-- An edit of a method. -/
inductive Edit where
  | inject (pattern : List Predicate) (generate : Nat → List Insn)
  | remove (pattern : List Predicate)
  | redirect (className : String) (table : RedirectTable) (filter : CallFilter)
  /-- Hands out a fresh label. -/
  | takeLabel

/-- A method under edit, and the labels handed out so far, the latest first. -/
structure EditState where
  method : Method
  taken : List Label := []

namespace Edit

/-- The state after an edit. -/
def perform (s : EditState) : Edit → Outcome EditState
  | inject pattern generate => .ok { s with method := (s.method.inject pattern generate).2 }
  | remove pattern => .ok { s with method := (s.method.remove pattern).2 }
  | redirect className table filter =>
    let done := redirectCalls className table filter s.method
    done.result.map fun _ => { s with method := done.method }
  | takeLabel => do
    let (l, m) ← s.method.freshLabel
    return { method := m, taken := l :: s.taken }

/-- Whether the instructions an edit adds jump to labels that are placed. -/
def JumpsToPlaced (m : Method) : Edit → Prop
  | inject _ generate => ∀ n, ∀ i ∈ generate n, ∀ l ∈ i.targets, l ∈ m.placedLabels
  | _ => True

end Edit

/-! ## 2. Histories -/

/-- One state comes from another by allowed edits. -/
inductive History (allowed : Method → Edit → Prop) : EditState → EditState → Prop where
  | start (s : EditState) : History allowed s s
  | edit {s t u : EditState} {e : Edit} (before : History allowed s t) (may : allowed t.method e)
      (done : e.perform t = .ok u) : History allowed s u

end Rewire
