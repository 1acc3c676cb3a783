import Passage.Json.Document
import Passage.Pass.Kind
import Passage.Text.Align

/-!
# Configuration

How often the passes of the optimizer run and which of them do, whether fast
operations are used, and how deeply calls of scripted functions may nest.

A configuration is read from JSON: an object of the fields, of which those that
are missing keep their defaults, or an array of the first fields in order.
Fields of other names are passed over.
-/

namespace Passage

open Json (Document)

/-- Which passes run. -/
structure PassSwitches where
  isOn : PassKind → Bool

namespace PassSwitches

def all : PassSwitches := ⟨fun _ => true⟩

def none : PassSwitches := ⟨fun _ => false⟩

instance : Inhabited PassSwitches := ⟨all⟩

def set (s : PassSwitches) (kind : PassKind) (on : Bool) : PassSwitches :=
  ⟨fun other => if other = kind then on else s.isOn other⟩

/-- The given passes and no others. -/
def only (kinds : List PassKind) : PassSwitches := kinds.foldl (fun s kind => s.set kind true) none

/-- The passes that run, in order. -/
def enabled (s : PassSwitches) : List PassKind := PassKind.all.filter s.isOn

end PassSwitches

structure Config where
  /-- How often the passes run over a rule. -/
  rounds : Nat
  passes : PassSwitches
  fastOps : Bool
  inlineDepth : Nat
deriving Inhabited

namespace Config

def standard : Config := ⟨10, .all, true, 16⟩

/-! ## Text -/

def boolText (b : Bool) : String := if b then "true" else "false"

/-- How a configuration is shown. -/
def text (c : Config) : String :=
  "CompilerConfig \x7b rounds: " ++ toString c.rounds ++ ", passes: PassToggles \x7b " ++
    Text.separated ", "
      (PassKind.all.map fun kind => kind.name ++ ": " ++ boolText (c.passes.isOn kind)) ++
    " \x7d, fast_ops: " ++ boolText c.fastOps ++ ", max_inline_depth: " ++
    toString c.inlineDepth ++ " \x7d"

/-! ## Reading -/

/-- A field of a structure: its name, and how its value changes the structure. -/
structure Field (α : Type) where
  name : String
  set? : Document → α → Option α

/-- Sets the first fields of a structure in order. -/
def readItems? {α : Type} : List (Field α) → List Document → α → Option α
  | _, [], value => some value
  | [], _ :: _, _ => none
  | field :: fields, item :: items, value => (field.set? item value).bind (readItems? fields items)

/-- Sets the fields that entries name. A field may be named once; names that are
no fields are passed over, but must be texts. -/
def readEntries? {α : Type} (fields : List (Field α)) (seen : List String) :
    List (Option String × Document) → α → Option α
  | [], value => some value
  | (none, _) :: _, _ => none
  | (some name, item) :: rest, value =>
      match fields.find? fun field => field.name == name with
      | none => readEntries? fields seen rest value
      | some field =>
          if seen.contains name then none
          else (field.set? item value).bind (readEntries? fields (name :: seen) rest)

/-- Reads a structure from its default. -/
def read? {α : Type} (fields : List (Field α)) (default : α) : Document → Option α
  | .array items => readItems? fields items default
  | .object entries => readEntries? fields [] entries default
  | _ => none

def passFields : List (Field PassSwitches) :=
  PassKind.all.map fun kind => ⟨kind.name, fun d s => d.boolean?.map (s.set kind)⟩

def fields : List (Field Config) :=
  [⟨"rounds", fun d c => d.natural?.map fun n => { c with rounds := n }⟩,
   ⟨"passes", fun d c => (read? passFields .all d).map fun s => { c with passes := s }⟩,
   ⟨"fast_ops", fun d c => d.boolean?.map fun b => { c with fastOps := b }⟩,
   ⟨"max_inline_depth", fun d c => d.natural?.map fun n => { c with inlineDepth := n }⟩]

def ofJson? (text : String) : Option Config :=
  (Document.read? text).bind (read? fields standard)

end Config

end Passage
