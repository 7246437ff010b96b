/-
  LineLisp.Settings — what can be chosen about evaluation and about line editing.
-/

namespace LineLisp

structure Settings where
  /-- Whether `set!` evaluates its right-hand side in the global scope. It binds the name in
      the scope that it stands in either way. -/
  setReadsGlobal : Bool
  /-- How many closure calls may be active at once. -/
  maxDepth : Option Nat
  deriving DecidableEq, Repr

namespace Settings

def standard : Settings := ⟨true, none⟩

/-- A bound on the number of calls that are ever active at once: the limit, or without one
    a number above every limit of 64 bits, which no machine reaches. -/
def callBound (s : Settings) : Nat := s.maxDepth.getD 0x10000000000000000

end Settings

inductive EditMode where
  | vi
  | emacs
  deriving DecidableEq, Repr

structure EditorSettings where
  /-- Where the history of lines is kept, if anywhere. -/
  historyFile : Option String
  editMode : EditMode
  deriving DecidableEq, Repr

namespace EditorSettings

def standardHistoryFile : String := "tinylisp_history.txt"

def standard : EditorSettings := ⟨some standardHistoryFile, .vi⟩

end EditorSettings

end LineLisp
