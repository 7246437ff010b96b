/-
  LineLisp.Settings.Load — settings from named texts, such as a process's environment.
  Blanks around a text do not count, and an unset variable leaves the standard. A history
  path is taken as it is; a blank one turns history off. The first text that is not
  understood is an error, which keeps the text with its blanks.
-/

import LineLisp.Number.Literal
import LineLisp.Settings
import LineLisp.Text.Blank
import LineLisp.Text.Quoted

namespace LineLisp

inductive Variable where
  | setScope
  | maxDepth
  | history
  | editMode
  deriving DecidableEq, Repr

namespace Variable

def all : List Variable := [setScope, maxDepth, history, editMode]

def name : Variable → String
  | setScope => "TINYLISP_SET_SCOPE"
  | maxDepth => "TINYLISP_MAX_DEPTH"
  | history => "TINYLISP_HISTORY"
  | editMode => "TINYLISP_EDIT_MODE"

/-- What a text for the variable should be. -/
def expected : Variable → String
  | setScope => "'global' or 'current'"
  | maxDepth => "an integer or 'none'"
  | history => "a path"
  | editMode => "'vi' or 'emacs'"

end Variable

/-- A text that its variable does not take. -/
structure SettingError where
  variableName : Variable
  value : String
  deriving DecidableEq, Repr

namespace SettingError

def message (e : SettingError) : String :=
  s!"invalid value '{e.value}' for {e.variableName.name}: expected {e.variableName.expected}"

/-- The error by its fields. -/
def fields (e : SettingError) : String :=
  "InvalidValue \x7b var: " ++ Text.quoted e.variableName.name ++ ", value: " ++
    Text.quoted e.value ++ ", expected: " ++ Text.quoted e.variableName.expected ++ " \x7d"

end SettingError

/-- The texts by the names of their variables. -/
abbrev Lookup := String → Option String

/-- The setting that a variable's text stands for, or the standard if it is unset. -/
def Variable.read {α : Type} (v : Variable) (texts : Lookup) (standard : α)
    (meaning? : String → Option α) : Except SettingError α :=
  match texts v.name with
  | none => .ok standard
  | some text => match meaning? text with
    | some a => .ok a
    | none => .error ⟨v, text⟩

/-- A text of digits after an optional plus sign, as a number of 64 bits. -/
def word64? (cs : List Char) : Option Nat :=
  let ds := match cs with
    | '+' :: ds => ds
    | ds => ds
  if ds ≠ [] ∧ ds.all Char.isDigit ∧ Number.digitsValue ds < 0x10000000000000000 then
    some (Number.digitsValue ds)
  else none

namespace Settings

def scopeMeaning? (text : String) : Option Bool :=
  if Text.trim text = "global" then some true
  else if Text.trim text = "current" then some false
  else none

def depthMeaning? (text : String) : Option (Option Nat) :=
  let cs := (Text.trim text).toList
  if cs.map Char.toLower = "none".toList then some none else (word64? cs).map some

def load (texts : Lookup) : Except SettingError Settings := do
  let setReadsGlobal ← Variable.setScope.read texts standard.setReadsGlobal scopeMeaning?
  let maxDepth ← Variable.maxDepth.read texts standard.maxDepth depthMeaning?
  return ⟨setReadsGlobal, maxDepth⟩

end Settings

namespace EditorSettings

def historyMeaning? (text : String) : Option (Option String) :=
  some (if Text.isBlank text then none else some text)

def modeMeaning? (text : String) : Option EditMode :=
  let cs := (Text.trim text).toList.map Char.toLower
  if cs = "vi".toList then some .vi else if cs = "emacs".toList then some .emacs else none

def load (texts : Lookup) : Except SettingError EditorSettings := do
  let historyFile ← Variable.history.read texts standard.historyFile historyMeaning?
  let editMode ← Variable.editMode.read texts standard.editMode modeMeaning?
  return ⟨historyFile, editMode⟩

end EditorSettings

end LineLisp
