import Rewire.ClassFile.Basic
import Rewire.Code.Method

/-!
# What is redirected

Redirection looks at calls to watched owners, in classes that are not excluded. This file fixes

* which classes are left alone (`ClassFilter`);
* which calls are watched (`CallFilter`): an excluded owner wins over everything else;
* the quick test whether a class can contain a watched call at all (`referencesNamespace`), which
  reads no further than the constant pool.
-/

namespace Rewire

/-- Whether a text starts with another one. -/
def startsWith (s start : String) : Bool :=
  start.toList.isPrefixOf s.toList

/-! ## 1. Classes -/

/-- Classes and packages that redirection leaves alone, with dots between the parts of names. -/
structure ClassFilter where
  excludedClasses : List String := []
  excludedPackages : List String := []
  deriving DecidableEq, Repr, Inhabited

/-- Whether a class, with dots or slashes in its name, is left alone. -/
def ClassFilter.excludes (f : ClassFilter) (name : String) : Bool :=
  let name := dotted name
  f.excludedClasses.contains name || f.excludedPackages.any (startsWith name)

/-! ## 2. Calls -/

/-- A single method that is watched whatever the prefixes say. -/
structure SpecialCall where
  owner : String
  name : String
  deriving DecidableEq, Repr, Inhabited

/-- Which calls are watched, by the starts of their owners' names and one by one. -/
structure CallFilter where
  watchedOwners : List String := []
  excludedOwners : List String := []
  specialCalls : List SpecialCall := []
  deriving DecidableEq, Repr, Inhabited

/-- Whether calls of a method are watched. -/
def CallFilter.watches (f : CallFilter) (owner name : String) : Bool :=
  !f.excludedOwners.any (startsWith owner) &&
    (f.specialCalls.contains ⟨owner, name⟩ || f.watchedOwners.any (startsWith owner))

/-- The starts of the names of all owners whose calls may be watched. -/
def CallFilter.namespaces (f : CallFilter) : List String :=
  f.specialCalls.foldl
    (fun found c => if found.contains c.owner then found else found ++ [c.owner]) f.watchedOwners

/-! ## 3. Whole classes -/

/-- Whether a constant is text that starts with one of the given byte strings. -/
def Constant.textStartsWith (starts : List Bytes) : Constant → Bool
  | .utf8 bytes => starts.any fun start => start.isPrefixOf bytes
  | _ => false

/-- Whether any text of a class starts with one of the given texts, compared byte by byte. -/
def referencesNamespace (data : Bytes) (namespaces : List String) : Outcome Bool := do
  let head ← Reader.classHead.onBytes data
  let starts := namespaces.map fun s => s.toUTF8.toList
  return head.pool.constants.any (Constant.textStartsWith starts)

end Rewire
