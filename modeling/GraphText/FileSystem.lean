import GraphText.Path

/-!
# File systems

What reading a graph text needs of files: their text, and a canonical path by
which a file is known under all its spellings. Both may fail, and the reason
why a file cannot be read is shown to the user as it is.

## Main definitions

* `FileSystem`: how files are found and read.
* `FileSystem.key`: the path by which a file is known.
-/

namespace GraphText

/-- How files are found and read. -/
structure FileSystem where
  /-- the canonical path of an existing file or directory -/
  canonical? : Path → Option Path
  /-- the text of a file, or why there is none -/
  read : Path → Except String String

namespace FileSystem

/-- The path by which a file is known: its canonical path, or the given one if there is none. -/
def key (files : FileSystem) (path : Path) : Path :=
  (files.canonical? path).getD path

end FileSystem

end GraphText
