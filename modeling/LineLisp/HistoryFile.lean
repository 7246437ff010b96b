/-
  LineLisp.HistoryFile — a history without empty lines, which is written if there are others, and
  where its path leads, from a directory that is empty. A path is its components
  between slashes; empty ones and single dots stay where they are. So a path
  of one other component names a file of the directory, and one that goes on after it needs
  a directory that is missing. An absolute path, or one that goes up, leads out of the
  directory; what comes of writing there is for others to say.
-/

import LineLisp.Console.Basic

namespace LineLisp.HistoryFile

open Console

/-! ## Errors -/

def notFound : FileError := ⟨2, "NotFound", "No such file or directory"⟩

def isDirectory : FileError := ⟨21, "IsADirectory", "Is a directory"⟩

def nameTooLong : FileError := ⟨36, "InvalidFilename", "File name too long"⟩

/-! ## Paths -/

/-- Where a path leads. -/
inductive Place where
  /-- To a file of the directory. -/
  | inside (name : String)
  | outside
  | refused (e : FileError)
  deriving DecidableEq, Repr

/-- The components of a path, empty ones included. -/
def components : List Char → List (List Char)
  | [] => [[]]
  | c :: cs =>
    if c = '/' then [] :: components cs
    else match components cs with
      | [] => [[c]]
      | name :: names => (c :: name) :: names

/-- Whether the component stays where it is. -/
def stays (name : List Char) : Bool := name = [] || name = ['.']

def goesUp (name : List Char) : Bool := name = ['.', '.']

/-- The most bytes of a name. -/
def nameLimit : Nat := 255

/-- The most bytes of a path. -/
def pathLimit : Nat := 4095

/-- Where the rest of a relative path leads that begins with a name. -/
def placeName (name : List Char) (names : List (List Char)) : Place :=
  if names ≠ [] ∧ names.all (· = []) then .refused isDirectory
  else if nameLimit < Text.byteLength name then .refused nameTooLong
  else if names ≠ [] then .refused notFound
  else .inside (String.ofList name)

def place (path : String) : Place :=
  let cs := path.toList
  if pathLimit < Text.byteLength cs then .refused nameTooLong
  else match (components cs).dropWhile stays with
    | [] => .refused isDirectory
    | name :: names =>
      if cs.head? = some '/' ∨ goesUp name then
        if (name :: names).all fun n => stays n || goesUp n then .refused isDirectory
        else .outside
      else placeName name names

/-! ## Histories -/

/-- The lines that are kept of those that were added. -/
def entries (lines : List String) : List String := lines.filter (· ≠ "")

/-- What comes of writing a history to a path, if `outside` says that of the paths that lead out. -/
def saved (outside : String → Option FileError) (path : String) (lines : List String) : Saved :=
  if entries lines = [] then .nothing
  else match place path with
    | .inside name => ⟨[name], none⟩
    | .outside => ⟨[], outside path⟩
    | .refused e => ⟨[], some e⟩

theorem saved_eq_nothing (outside : String → Option FileError) (path : String) {lines : List String}
    (h : ∀ line ∈ lines, line = "") : saved outside path lines = .nothing := by
  have hentries : entries lines = [] := List.filter_eq_nil_iff.mpr fun line hline => by simp [h line hline]
  rw [saved, if_pos hentries]

end LineLisp.HistoryFile
