import Std.Data.TreeMap
import Rewire.Descriptor
import Rewire.Pool.Basic

/-!
# Redirect tables

A redirect table says, for a method given by name and descriptor, which class implements its
replacement. This file fixes

* declarations of replacements (`Replacement`) and tables (`RedirectTable`), ordered by name and
  then by descriptor;
* building a table (`insert`, `ofReplacements`, `merge`): only well-formed descriptors get in, and
  a later declaration takes the place of an earlier one;
* looking a method up (`owner?`).
-/

namespace Rewire

/-- The replacement of a method: a method of the same name and descriptor in another class. A
    `Member` whose owner is that class. -/
abbrev Replacement := Member

/-- A method without its class. -/
structure Signature where
  name : String
  descriptor : String
  deriving DecidableEq, Repr, Inhabited

/-- Signatures are ordered by name, those with one name by descriptor. -/
def Signature.compare (a b : Signature) : Ordering :=
  (Ord.compare a.name b.name).then (Ord.compare a.descriptor b.descriptor)

/-- The class that implements the replacement of each method. -/
structure RedirectTable where
  owners : Std.TreeMap Signature String Signature.compare

namespace RedirectTable

/-- The table without entries. -/
def empty : RedirectTable := ⟨∅⟩

instance : Inhabited RedirectTable := ⟨empty⟩

/-- Number of entries. -/
def size (t : RedirectTable) : Nat := t.owners.size

/-- Whether there are no entries. -/
def isEmpty (t : RedirectTable) : Bool := t.owners.isEmpty

/-- The class that implements the replacement of a method. -/
def owner? (t : RedirectTable) (name descriptor : String) : Option String :=
  t.owners[(⟨name, descriptor⟩ : Signature)]?

section Building

variable [DescriptorReader]

/-- Adds a replacement, which needs a well-formed descriptor. -/
def insert (t : RedirectTable) (r : Replacement) : Outcome RedirectTable := do
  let _ ← during (.declaringRedirect r.name r.descriptor r.owner) (Descriptor.parse r.descriptor)
  return ⟨t.owners.insert ⟨r.name, r.descriptor⟩ r.owner⟩

/-- The table of a list of replacements. -/
def ofReplacements (rs : List Replacement) : Outcome RedirectTable :=
  rs.foldlM insert empty

end Building

/-- The entries in order. -/
def toList (t : RedirectTable) : List Replacement :=
  t.owners.toList.map fun (s, owner) => { owner, name := s.name, descriptor := s.descriptor }

/-- Adds every entry of another table. -/
def merge (t other : RedirectTable) : RedirectTable :=
  ⟨t.owners.insertMany other.owners.toList⟩

end RedirectTable

end Rewire
