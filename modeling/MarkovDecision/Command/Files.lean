/-!
# Files as commands see them

A path leads to the content of a file, or to nothing that can be read, with what
the system says about it. A directory can also be given as a list of names and
contents; paths into it may go through `.` components, and nothing else lies
around it.
-/

namespace MarkovDecision

/-- What a path leads to. -/
inductive FileEntry where
  /-- A file with its content. -/
  | file (content : String)
  /-- A file that cannot be read, and why. -/
  | unreadable (why : String)
  /-- No file, and what the system says about it. -/
  | absent (why : String)

namespace FileEntry

/-- Whether there is a file. -/
def isFile : FileEntry → Bool
  | .absent _ => false
  | _ => true

/-- The content of the file. -/
def read : FileEntry → Except String String
  | .file content => .ok content
  | .unreadable why => .error why
  | .absent why => .error why

end FileEntry

/-- The files that paths lead to. -/
abbrev Files := String → FileEntry

namespace Files

/-- What is said where nothing has a name. -/
def noEntry : String := "No such file or directory (os error 2)"

/-- What is said where a file is taken for a directory. -/
def notDirectory : String := "Not a directory (os error 20)"

/-- What is said where a directory is read. -/
def isDirectory : String := "Is a directory (os error 21)"

/-- What a list of path components leads to, `slash` telling whether a slash follows them. -/
def follow (files : List (String × String)) (slash : Bool) : List String → FileEntry
  | [] => .absent isDirectory
  | [name] =>
    match files.find? (·.1 == name) with
    | none => .absent noEntry
    | some (_, content) => if slash then .absent notDirectory else .file content
  | name :: _ => if files.any (·.1 == name) then .absent notDirectory else .absent noEntry

/-- A directory with the given files. -/
def ofList (files : List (String × String)) : Files := fun path =>
  let parts := path.splitOn "/"
  let names := parts.filter fun p => p ≠ "" && p ≠ "."
  let last := parts.getLast?.getD ""
  if path.isEmpty || parts.head? = some "" then .absent noEntry
  else follow files (last = "" || last = ".") names

end Files

end MarkovDecision
