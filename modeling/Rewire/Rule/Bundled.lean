import Rewire.Rule.Basic

/-!
# The patch rules that come with the program

Five rules hand the window of the display to the replacement renderer instead of a graphics
context, and one drops the second context of the splash screen. This file lists them in the order
in which they are applied (`PatchRule.bundled`).
-/

namespace Rewire.PatchRule

/-! ## 1. Names -/

def display : String := "org.lwjglx.opengl.Display"
def window : String := "org/lwjglx/opengl/Display$Window"
def windowing : String := "org/lwjgl/glfw/GLFW"
def drawable : String := "org/lwjglx/opengl/DrawableGL"
def renderer : String := "com/recursive_pineapple/mcvk/rendering/MCVKNative"
def splash : String := "cpw.mods.fml.client.SplashProgress"
def sharedDrawable : String := "org/lwjgl/opengl/SharedDrawable"
def runtimeException : String := "java/lang/RuntimeException"

/-- A static call. -/
def staticCall (owner name descriptor : String) : Insn :=
  .call { owner, name, descriptor, interface := false, kind := .static }

/-! ## 2. The display -/

/-- The display's window is made the current context of its thread. -/
def makesContextCurrent : List Predicate :=
  [.getStatic { owner := some window, name := some "handle" },
    .invokeStatic { owner := some windowing, name := some "glfwMakeContextCurrent" }]

def initBackend : PatchRule where
  id := "DISPLAY_INIT_BACKEND"
  name := "Initialize backend with the window"
  description := "Passes the GLFW window handle to the native backend where the GL context used to be made current"
  className := display
  methodName := "create"
  pattern := makesContextCurrent
  action := .inject
    [.field Opcode.getStatic ⟨window, "handle", "J"⟩, staticCall renderer "init" "(J)V"]

def noClientApi : PatchRule where
  id := "DISPLAY_NO_CLIENT_API"
  name := "Request a window without client API"
  description := "Sets GLFW_CLIENT_API to GLFW_NO_API after the default window hints"
  className := display
  methodName := "create"
  pattern := [.invokeStatic { owner := some windowing, name := some "glfwDefaultWindowHints" }]
  action := .inject
    [.ldc (.int 0x22001), .ldc (.int 0), staticCall windowing "glfwWindowHint" "(II)V"]

def noMakeCurrent : PatchRule where
  id := "DISPLAY_NO_MAKE_CURRENT"
  name := "Drop context activation"
  description := "Removes glfwMakeContextCurrent on the display window"
  className := display
  methodName := "create"
  pattern := makesContextCurrent
  action := .remove

def noDrawable : PatchRule where
  id := "DISPLAY_NO_DRAWABLE"
  name := "Drop GL drawable"
  description := "Removes construction of the DrawableGL stored in Display.drawable"
  className := display
  methodName := "create"
  pattern :=
    [.new (some drawable), .opcode Opcode.dup, .constructor { owner := some drawable },
      .putStatic { name := some "drawable", descriptor := some "Lorg/lwjglx/opengl/DrawableGL;" }]
  action := .remove

def noCapabilities : PatchRule where
  id := "DISPLAY_NO_CAPABILITIES"
  name := "Drop GL capabilities"
  description := "Removes GL.createCapabilities and the pop of its result"
  className := display
  methodName := "create"
  pattern :=
    [.invokeStatic { owner := some "org/lwjgl/opengl/GL", name := some "createCapabilities" },
      .opcode Opcode.pop]
  action := .remove

/-! ## 3. The splash screen -/

/-- Without a graphics context the attempt to share it throws, so the whole attempt goes, together
    with the handling of what it throws. -/
def noSharedContext : PatchRule where
  id := "SPLASH_NO_SHARED_CONTEXT"
  name := "Drop shared splash context"
  description := "Removes SharedDrawable creation and the context switch in SplashProgress.start"
  className := splash
  methodName := "start"
  pattern :=
    [.new (some sharedDrawable), .opcode Opcode.dup, .invoke { name := some "getDrawable" },
      .constructor { owner := some sharedDrawable }, .putStatic { name := some "d" },
      .invoke { name := some "getDrawable" }, .invoke { name := some "releaseContext" },
      .getStatic { name := some "d" },
      .invoke { owner := some "org/lwjgl/opengl/Drawable", name := some "makeCurrent" },
      .opcode Opcode.goto, .store { name := some "e" }, .load { name := some "e" },
      .invoke { name := some "printStackTrace" }, .new (some runtimeException),
      .opcode Opcode.dup, .load { name := some "e" },
      .constructor { owner := some runtimeException }, .opcode Opcode.athrow]
  action := .remove

/-! ## 4. All rules -/

/-- The rules in the order in which they are applied. -/
def bundled : List PatchRule :=
  [initBackend, noClientApi, noMakeCurrent, noDrawable, noCapabilities, noSharedContext]

end Rewire.PatchRule
