/-!
# Paths of the host

A path is a sequence of names with slashes between them.  A single point stays where it is, and so
does a slash after a slash: paths that differ in nothing else lead to the same file.

* `HostPath.file?` is the way to a file, if the path can lead to one.
* `HostPath.name?` is the file name, and `HostPath.extension?` its suffix.
-/

namespace PSystem
namespace HostPath

/-- Whether a part of a path stays where it is. -/
def stays (part : String) : Bool :=
  part == "" || part == "."

/-- The parts of a path that lead somewhere. -/
def parts (path : String) : List String :=
  (path.splitOn "/").filter (!stays ·)

/-- The parts of the way to a file, with whether it starts at the root.  A path that ends in a
slash or a point leads to a directory. -/
def file? (path : String) : Option (Bool × List String) :=
  if (path.splitOn "/").getLast?.all stays then none
  else some (path.startsWith "/", parts path)

/-- Whether two paths lead to the same file. -/
def same (a b : String) : Bool :=
  (file? a).isSome && file? a == file? b

/-- The name that a path ends with, without the way to it. -/
def name? (path : String) : Option String := do
  let name ← (parts path).getLast?
  if name = ".." then none else some name

/-- What follows the last point of a file name that does not start with it. -/
def extension? (path : String) : Option String := do
  let backwards := (← name? path).toList.reverse
  let suffix := backwards.takeWhile (· ≠ '.')
  let rest := backwards.drop (suffix.length + 1)
  if rest.isEmpty then none else some (String.ofList suffix.reverse)

end HostPath
end PSystem
