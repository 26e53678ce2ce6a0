import Rewire.Redirect.Filter
import Rewire.Redirect.Table

/-!
# Settings

What a user can set. This file fixes the settings (`Settings`) and their defaults, which are for
the graphics bindings of the host program and the bundled sandbox classes.
-/

namespace Rewire

/-- The settings of a transformer. -/
structure Settings where
  /-- Starts of the names of owners whose calls are redirected. -/
  watchedPrefixes : List String :=
    ["org/lwjgl/opengl/GL", "org/lwjglx/opengl/GL"]
  /-- Starts of the names of owners whose calls are never redirected. -/
  excludedOwnerPrefixes : List String := []
  /-- Single methods that are redirected whoever their owner is. -/
  specialCalls : List SpecialCall := [⟨"org/lwjglx/opengl/Display", "makeCurrent"⟩]
  /-- Classes in which nothing is redirected. -/
  excludedClasses : List String := []
  /-- Starts of the names of classes in which nothing is redirected. -/
  excludedPackages : List String :=
    ["org.lwjglx.", "org.lwjgl.", "com.recursive_pineapple.mcvk"]
  /-- Whether the replacements that come with the program are used. -/
  builtinRedirects : Bool := true
  /-- Files of sandbox classes whose methods are replacements. -/
  sandboxClasses : List String := []
  /-- Further replacements, which take precedence. -/
  redirects : List Replacement := []
  deriving DecidableEq, Repr, Inhabited

namespace Settings

/-- The classes that are left alone. -/
def classFilter (s : Settings) : ClassFilter :=
  { excludedClasses := s.excludedClasses, excludedPackages := s.excludedPackages }

/-- The calls that are watched. -/
def callFilter (s : Settings) : CallFilter :=
  { watchedOwners := s.watchedPrefixes
    excludedOwners := s.excludedOwnerPrefixes
    specialCalls := s.specialCalls }

end Settings

end Rewire
