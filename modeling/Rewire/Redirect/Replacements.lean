import Rewire.Descriptor.Scanner
import Rewire.Redirect.Table

/-!
# The replacements that come with the program

The rendering sandbox consists of two classes: one with the methods written by hand and one with
the families of methods that differ in the types of their arguments only. This file lists what the
two implement (`Replacement.bundled`).
-/

namespace Rewire.Replacement

/-- The class of the methods written by hand. -/
def sandbox : String := "com/recursive_pineapple/mcvk/rendering/RenderSandbox"

/-- The class of the families of methods. -/
def generatedSandbox : String := "com/recursive_pineapple/mcvk/rendering/RenderSandboxGen"

/-- The methods written by hand. -/
def single : List Replacement :=
  [("glMatrixMode", "(I)V"), ("glPushMatrix", "()V"), ("glPopMatrix", "()V"),
    ("glLoadIdentity", "()V"), ("glOrtho", "(DDDDDD)V"), ("glTranslatef", "(FFF)V"),
    ("glEnable", "(I)V"), ("glDisable", "(I)V"), ("glEnableClientState", "(I)V"),
    ("addPointerArray", "(IIIIJI)V"), ("glDrawArrays", "(III)V")].map
    fun (name, descriptor) => { owner := sandbox, name, descriptor }

/-- The methods that set an array of each kind from a buffer of each element type. -/
def pointers : List Replacement :=
  ["Byte", "Short", "Int", "Float", "Double"].flatMap fun buffer =>
    ["Color", "SecondaryColor", "Index", "Normal", "TexCoord", "Vertex"].map fun array =>
      { owner := generatedSandbox
        name := s!"gl{array}Pointer"
        descriptor := s!"(IILjava/nio/{buffer}Buffer;)V" }

/-- The letters that name the type of the arguments, with the letters of the types. -/
def suffixes : List (Char × Char) :=
  [('f', 'F'), ('d', 'D'), ('i', 'I'), ('s', 'S'), ('b', 'B'), ('l', 'J')]

/-- The methods that give one vertex attribute, for each number and type of components. -/
def immediates : List Replacement :=
  [("Vertex", [2, 3, 4]), ("TexCoord", [2, 3, 4]), ("Normal", [2, 3, 4]), ("Color", [3, 4])].flatMap
    fun (function, sizes) => sizes.flatMap fun size => suffixes.map fun (suffix, letter) =>
      { owner := generatedSandbox
        name := s!"gl{function}{size}{suffix}"
        descriptor := "(" ++ String.ofList (List.replicate size letter) ++ ")V" }

/-- Everything the sandbox implements. -/
def bundled : List Replacement :=
  single ++ pointers ++ immediates

end Rewire.Replacement
