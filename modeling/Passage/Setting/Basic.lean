import Passage.Diagnostic
import Passage.Json.Document
import Passage.Setting.Schema

/-!
# Settings

The settings of one world, as a JSON object gives them. A setting is read at a
type; its value is not converted.
-/

namespace Passage

open Json (Document)

inductive SettingError where
  | unknown (name : String)
  | wrongType (name : String) (expected : SettingType)
deriving DecidableEq

def SettingError.message : SettingError → String
  | .unknown name => "unknown setting '" ++ name ++ "'"
  | .wrongType name expected => "setting '" ++ name ++ "' is not a " ++ expected.name

def SettingError.code : SettingError → String
  | .unknown .. => "Unknown"
  | .wrongType .. => "WrongType"

instance : Diagnostic SettingError := ⟨SettingError.code, SettingError.message⟩

/-- Values of settings by name, latest first. -/
structure Settings where
  values : List (String × Document)
deriving Inhabited

namespace Settings

def empty : Settings := ⟨[]⟩

/-- Gives a setting a value in place of an earlier one. -/
def insert (s : Settings) (name : String) (value : Document) : Settings :=
  ⟨(name, value) :: s.values⟩

/-- The deepest nesting of a settings object. -/
def deepestNesting : Nat := 127

/-- The settings in an object whose every part is sound; of two values under one
name, the last one counts. -/
def ofDocument? (document : Document) : Option Settings :=
  match document with
  | .object entries =>
      if document.isSound deepestNesting then
        some (entries.foldl (fun s (key, value) => s.insert (key.getD "") value) empty)
      else none
  | _ => none

def ofJson? (text : String) : Option Settings :=
  (Document.read? text).bind ofDocument?

/-- The value of a setting that `read` finds in the document under its name. -/
def readAs {α : Type} (s : Settings) (type : SettingType) (read : Document → Option α)
    (name : String) : Except SettingError α :=
  match s.values.lookup name with
  | none => .error (.unknown name)
  | some value =>
      match read value with
      | some x => .ok x
      | none => .error (.wrongType name type)

def string (s : Settings) : String → Except SettingError String :=
  s.readAs .string Document.text?

def number (s : Settings) : String → Except SettingError Number :=
  s.readAs .number Document.number?

def boolean (s : Settings) : String → Except SettingError Bool :=
  s.readAs .boolean Document.boolean?

end Settings

end Passage
