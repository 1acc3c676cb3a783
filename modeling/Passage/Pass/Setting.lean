import Passage.Pass.Basic

/-!
# Inlining of settings

The name of a setting that the schema lists is replaced by the value of the
setting, read at the type that the schema gives.
-/

namespace Passage

namespace SettingValue

/-- The value of a setting as a literal. -/
def literal (settings : Settings) (type : SettingType) (name : String) : Except SettingError Node :=
  match type with
  | .string => (settings.string name).map .string
  | .number => (settings.number name).map .number
  | .boolean => (settings.boolean name).map .boolean

def identifier (settings : Settings) (id : SymbolId) : Transforming Node := do
  match (← Transforming.symbols).get? id with
  | none => pure (.identifier id)
  | some symbol =>
      match SettingType.ofName? symbol.name with
      | none => pure (.identifier id)
      | some type =>
          if symbol.kind = .setting then
            match literal settings type symbol.name with
            | .ok node => pure node
            | .error e => throw (.setting e)
          else throw (.notASetting symbol.name symbol.kind)

end SettingValue

/-- Replaces names of settings by their values. -/
def Pass.settings (settings : Settings) : Pass :=
  .plain "settings" fun _ => { identifier := SettingValue.identifier settings }

end Passage
