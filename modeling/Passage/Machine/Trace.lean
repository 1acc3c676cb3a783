import Passage.Machine.Event
import Passage.Number.Notation

/-!
# Observing runs

Four views of the events of a run: a recording of the first ones, the offsets it
reached, a log, and a profile. All but the recording ignore what they do not show.
-/

namespace Passage

/-! ## Recordings -/

/-- The events recorded so far, and how many there may be; `none` is without limit. -/
structure Recorder where
  events : Array Event
  limit : Option Nat

namespace Recorder

def empty (limit : Option Nat) : Recorder := ⟨#[], limit⟩

/-- Records an event unless there are as many as there may be. -/
def add (r : Recorder) (event : Event) : Recorder :=
  if r.limit.any (· ≤ r.events.size) then r else { r with events := r.events.push event }

end Recorder

/-- What is recorded of the events of a run. -/
def recording (limit : Option Nat) (events : List Event) : List Event :=
  (events.foldl Recorder.add (Recorder.empty limit)).events.toList

/-! ## Coverage -/

/-- The offsets at which opcodes were dispatched, in order of events. -/
def dispatchedOffsets (events : List Event) : List Nat :=
  events.filterMap fun
    | .instruction offset _ _ => some offset
    | _ => none

/-- The offsets at which opcodes were dispatched, ascending and each once. -/
def coverage (events : List Event) : List Nat :=
  ((dispatchedOffsets events).mergeSort fun a b => decide (a ≤ b)).eraseReps

/-! ## Logs -/

/-- The line of an event in a log. -/
def Event.line : Event → String
  | .instruction offset op depth =>
      "[" ++ Text.alignRight 5 (toString offset) ++ "] " ++ Text.alignLeft 10 op.mnemonic ++
        " stack=" ++ toString depth
  | .call name count => "  >>> CALL " ++ Text.alignLeft 20 name ++ " argc=" ++ toString count
  | .quantity item least held =>
      "  ??? QTY " ++ item.text ++ " >= " ++ toString least.toNat ++ " -> " ++
        if held then "true" else "false"
  | .fault offset error => "  !!! ERROR at " ++ toString offset ++ ": " ++ error.message

/-- What a log has written, and how many instructions are among that. The instruction with which
they come to the limit makes the log quiet but for faults; `none` is without limit. -/
structure Log where
  text : String
  limit : Option Nat
  /-- The instructions written. -/
  count : Nat
  quiet : Bool

namespace Log

def empty (limit : Option Nat) : Log := ⟨"", limit, 0, false⟩

def write (l : Log) (line : String) : Log := { l with text := l.text ++ line ++ "\n" }

/-- Writes a line unless the log is quiet. -/
def say (l : Log) (line : String) : Log := if l.quiet then l else l.write line

/-- What a log writes when it goes quiet. -/
def notice (limit : Nat) : String :=
  "--- trace limit reached (" ++ toString limit ++ " instructions) ---"

/-- Counts an instruction, and goes quiet with the one that reaches the limit. -/
def countInstruction (l : Log) : Log :=
  let l := { l with count := l.count + 1 }
  match l.limit with
  | none => l
  | some limit => if limit ≤ l.count then { l.write (notice limit) with quiet := true } else l

def add (l : Log) (event : Event) : Log :=
  match event with
  | .instruction _ _ _ => if l.quiet then l else (l.write event.line).countInstruction
  | .call _ _ | .quantity _ _ _ => l.say event.line
  | .fault _ _ => l.write event.line

end Log

/-- The log of a run, with at most `limit` instructions; the first one is always
written. -/
def logText (limit : Option Nat) (events : List Event) : String :=
  (events.foldl Log.add (Log.empty limit)).text

/-! ## Profiles -/

/-- How often each opcode and each function was used, most frequent first. -/
structure Profile where
  opcodes : List (Opcode × Nat)
  calls : List (String × Nat)
  instructions : Nat
  quantityChecks : Nat
  deepest : Nat

namespace Profile

/-- Counts one more occurrence of a key. -/
def tally {α : Type} [DecidableEq α] (key : α) : List (α × Nat) → List (α × Nat)
  | [] => [(key, 1)]
  | entry :: rest =>
      if entry.1 = key then (key, entry.2 + 1) :: rest else entry :: tally key rest

def empty : Profile := ⟨[], [], 0, 0, 0⟩

def add (p : Profile) : Event → Profile
  | .instruction _ op depth =>
      { p with
        opcodes := tally op p.opcodes
        instructions := p.instructions + 1
        deepest := max p.deepest depth }
  | .call name _ => { p with calls := tally name p.calls }
  | .quantity _ _ _ => { p with quantityChecks := p.quantityChecks + 1 }
  | .fault _ _ => p

def ofEvents (events : List Event) : Profile := events.foldl add empty

/-- Opcodes by falling count, then by their byte. -/
def sortedOpcodes (p : Profile) : List (Opcode × Nat) :=
  p.opcodes.mergeSort fun a b => decide (b.2 < a.2 ∨ a.2 = b.2 ∧ a.1.byte ≤ b.1.byte)

/-- Functions by falling count, then by name. -/
def sortedCalls (p : Profile) : List (String × Nat) :=
  p.calls.mergeSort fun a b => decide (b.2 < a.2 ∨ a.2 = b.2 ∧ a.1 ≤ b.1)

/-- The share of a count in the instructions, in percent with one place. -/
def percentText (p : Profile) (count : Nat) : String :=
  let share := (Number.ofNat count).scaleDown (Number.ofNat p.instructions)
  (share.scaleUp (Number.ofNat 100)).fixedText 1

def opcodeLine (p : Profile) (op : Opcode) (count : Nat) : String :=
  "  " ++ Text.alignLeft 12 op.mnemonic ++ " " ++ Text.alignRight 10 (toString count) ++ "  (" ++
    Text.alignRight 5 (p.percentText count) ++ "%)\n"

def callLine (name : String) (count : Nat) : String :=
  "  " ++ Text.alignLeft 24 name ++ " " ++ Text.alignRight 10 (toString count) ++ "\n"

/-- The profile as a report. -/
def report (p : Profile) : String :=
  "=== VM Profiling Report ===\n" ++
    "Total instructions: " ++ toString p.instructions ++ "\n" ++
    "Quantity checks:    " ++ toString p.quantityChecks ++ "\n" ++
    "Max stack depth:    " ++ toString p.deepest ++ "\n\n" ++
    "--- Opcode Frequency ---\n" ++
    String.join (p.sortedOpcodes.map fun (op, count) => p.opcodeLine op count) ++
    if p.calls.isEmpty then ""
    else
      "\n--- Calls ---\n" ++
        String.join (p.sortedCalls.map fun (name, count) => callLine name count)

end Profile

end Passage
