import CompiledResources.Text

/-!
File paths. Resolving a path gives the absolute path without empty components, `.` and `..`.
-/

namespace CompiledResources.Path

/-- The unit that separates components. -/
def separator : UInt16 := 0x2F

/-- The parts of a list of units between separators. -/
def components : List UInt16 → List (List UInt16)
  | [] => [[]]
  | u :: rest =>
    if u = separator then [] :: components rest
    else
      match components rest with
      | [] => [[u]]
      | first :: others => (u :: first) :: others

/-- Follows components one after another; `above` has the components so far, the last one first. -/
def follow (above : List Text) : List Text → List Text
  | [] => above.reverse
  | part :: rest =>
    if part = .empty ∨ part = "." then follow above rest
    else if part = ".." then follow above.tail rest
    else follow (part :: above) rest

/-- The absolute path that a path stands for in a directory. -/
def resolve (directory path : Text) : Text :=
  let whole := if path.units.head? = some separator then path else directory ++ "/" ++ path
  "/" ++ Text.join "/" (follow [] ((components whole.units).map Text.mk))

end CompiledResources.Path
