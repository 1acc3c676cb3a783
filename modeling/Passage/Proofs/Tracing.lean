import Mathlib.Data.List.Basic
import Passage.Machine.Trace

/-!
# Traces with a limit

A recording with a limit holds the first events, as many as the limit says
(`recording_some`). A log counts only instructions, and it looks at its limit when it has written
one. So it is the log without limit up to the instruction that reaches the limit, and the notice
that it was reached; of all that follows it writes the faults (`Limited`). Two things set it apart
from the first lines of the log without limit. Under the limit zero one instruction is written,
and under every limit the faults are (`log_overruns_limit`).
-/

namespace Passage

namespace Event

def isInstruction : Event → Bool
  | .instruction _ _ _ => true
  | _ => false

def isFault : Event → Bool
  | .fault _ _ => true
  | _ => false

end Event

/-! ## Recordings -/

namespace Recorder

theorem foldl_add_none (recorded : Array Event) (events : List Event) :
    (events.foldl add ⟨recorded, none⟩).events.toList = recorded.toList ++ events := by
  induction events generalizing recorded with
  | nil => simp
  | cons event events ih =>
    have hadd : add ⟨recorded, none⟩ event = ⟨recorded.push event, none⟩ := rfl
    rw [List.foldl_cons, hadd, ih, Array.toList_push, List.append_assoc, List.singleton_append]

/-- What there is room for is recorded. -/
theorem foldl_add_some (recorded : Array Event) (limit : Nat) (events : List Event) :
    (events.foldl add ⟨recorded, some limit⟩).events.toList =
      recorded.toList ++ events.take (limit - recorded.size) := by
  induction events generalizing recorded with
  | nil => simp
  | cons event events ih =>
    rw [List.foldl_cons]
    by_cases hfull : limit ≤ recorded.size
    · have hadd : add ⟨recorded, some limit⟩ event = ⟨recorded, some limit⟩ := by
        simp [add, hfull]
      rw [hadd, ih, Nat.sub_eq_zero_of_le hfull, List.take_zero, List.take_zero]
    · have hadd : add ⟨recorded, some limit⟩ event = ⟨recorded.push event, some limit⟩ := by
        simp [add, hfull]
      have hroom : limit - recorded.size = limit - (recorded.size + 1) + 1 := by omega
      rw [hadd, ih, Array.toList_push, Array.size_push, hroom, List.take_succ_cons,
        List.append_assoc, List.singleton_append]

end Recorder

theorem recording_none (events : List Event) : recording none events = events :=
  Recorder.foldl_add_none #[] events

theorem recording_some (limit : Nat) (events : List Event) :
    recording (some limit) events = events.take limit :=
  Recorder.foldl_add_some #[] limit events

/-! ## Logs -/

/-- The lines of events, one after another. -/
def lines (events : List Event) : String := String.join (events.map fun event => event.line ++ "\n")

@[simp] theorem lines_nil : lines [] = "" := rfl

@[simp] theorem lines_cons (event : Event) (events : List Event) :
    lines (event :: events) = event.line ++ "\n" ++ lines events := by
  simp [lines]

@[simp] theorem lines_append (events more : List Event) :
    lines (events ++ more) = lines events ++ lines more := by
  simp [lines]

namespace Log

variable {l : Log} {event : Event}

/-- A quiet log stays quiet, and writes the faults. -/
theorem foldl_add_of_quiet (h : l.quiet = true) (events : List Event) :
    (events.foldl add l).text = l.text ++ lines (events.filter Event.isFault) := by
  induction events generalizing l with
  | nil => simp
  | cons event events ih =>
    have hadd : (l.add event).quiet = true ∧
        (l.add event).text = l.text ++ lines ([event].filter Event.isFault) := by
      cases event <;> simp [add, say, write, Event.isFault, h, String.append_assoc, List.filter]
    rw [List.foldl_cons, ih hadd.1, hadd.2, String.append_assoc, ← lines_append,
      ← List.filter_append, List.singleton_append]

/-- An instruction below the limit is written and counted, and all else is written. -/
theorem add_of_below (hquiet : l.quiet = false)
    (hbelow : event.isInstruction = true → ∀ limit ∈ l.limit, l.count + 1 < limit) :
    l.add event =
      { l with
        text := l.text ++ lines [event]
        count := l.count + [event].countP Event.isInstruction } := by
  cases event with
  | instruction offset op depth =>
    cases hlimit : l.limit with
    | none =>
      simp [add, write, countInstruction, Event.isInstruction, hquiet, hlimit, String.append_assoc]
    | some limit =>
      have hcount : ¬ limit ≤ l.count + 1 := Nat.not_le.mpr (hbelow rfl limit hlimit)
      simp [add, write, countInstruction, Event.isInstruction, hquiet, hlimit, hcount,
        String.append_assoc]
  | call | quantity | fault =>
    simp [add, say, write, Event.isInstruction, hquiet, String.append_assoc]

/-- The instruction that reaches the limit is written, and the log goes quiet. -/
theorem add_of_reached {limit : Nat} (hquiet : l.quiet = false) (hlimit : l.limit = some limit)
    (hevent : event.isInstruction = true) (hreached : limit ≤ l.count + 1) :
    (l.add event).quiet = true ∧
      (l.add event).text = l.text ++ lines [event] ++ notice limit ++ "\n" := by
  cases event with
  | instruction offset op depth =>
    simp [add, write, countInstruction, hquiet, hlimit, hreached, String.append_assoc]
  | call | quantity | fault => simp [Event.isInstruction] at hevent

/-- Below the limit everything is written. -/
theorem foldl_add_of_below {events : List Event} (hquiet : l.quiet = false)
    (hbelow : ∀ limit ∈ l.limit, l.count + events.countP Event.isInstruction < max limit 1) :
    events.foldl add l =
      { l with
        text := l.text ++ lines events
        count := l.count + events.countP Event.isInstruction } := by
  induction events generalizing l with
  | nil => simp
  | cons event events ih =>
    have hcons : event :: events = [event] ++ events := rfl
    rw [hcons, List.countP_append] at hbelow
    have hadd : l.add event = _ := add_of_below hquiet fun hevent limit hlimit => by
      have hcount : [event].countP Event.isInstruction = 1 := by simp [hevent]
      have := hbelow limit hlimit
      omega
    have hrest : ∀ limit ∈ (l.add event).limit,
        (l.add event).count + events.countP Event.isInstruction < max limit 1 := by
      rw [hadd]
      intro limit hlimit
      rw [Nat.add_assoc]
      exact hbelow limit hlimit
    rw [List.foldl_cons, ih (by rw [hadd]; exact hquiet) hrest, hadd, hcons, lines_append,
      List.countP_append, String.append_assoc, Nat.add_assoc]

/-- From the instruction that reaches the limit on, a notice and the faults are written. -/
theorem foldl_add_of_reached {limit : Nat} {before : List Event} (after : List Event)
    (hevent : event.isInstruction = true)
    (hreached : before.countP Event.isInstruction + 1 = max limit 1) :
    ((before ++ event :: after).foldl add (empty (some limit))).text =
      lines (before ++ [event]) ++ notice limit ++ "\n" ++ lines (after.filter Event.isFault) := by
  have hbelow : ∀ n ∈ (empty (some limit)).limit,
      (empty (some limit)).count + before.countP Event.isInstruction < max n 1 := by
    rintro _ ⟨⟩
    rw [empty, Nat.zero_add, ← hreached]
    exact Nat.lt_succ_self _
  have hbefore : before.foldl add (empty (some limit)) =
      ⟨lines before, some limit, before.countP Event.isInstruction, false⟩ := by
    rw [foldl_add_of_below rfl hbelow]
    simp [empty]
  rw [List.foldl_append, hbefore, List.foldl_cons]
  obtain ⟨hquiet, htext⟩ :=
    add_of_reached (l := ⟨lines before, some limit, before.countP Event.isInstruction, false⟩)
      rfl rfl hevent (by dsimp only; omega)
  rw [foldl_add_of_quiet hquiet, htext, ← lines_append]

end Log

theorem logText_none (events : List Event) : logText none events = lines events := by
  rw [logText, Log.foldl_add_of_below rfl (by simp [Log.empty])]
  simp [Log.empty]

/-- What a log with a limit has written of events: all of their lines, if no instruction reaches
the limit, or the lines up to the one that does, a notice, and the lines of later faults. -/
inductive Limited (limit : Nat) : List Event → String → Prop
  | below {events : List Event} :
      events.countP Event.isInstruction < max limit 1 → Limited limit events (lines events)
  | reached {before after : List Event} {event : Event} :
      event.isInstruction = true → before.countP Event.isInstruction + 1 = max limit 1 →
      Limited limit (before ++ event :: after)
        (lines (before ++ [event]) ++ Log.notice limit ++ "\n" ++
          lines (after.filter Event.isFault))

/-- The list is parted at each of those that are counted. -/
theorem exists_split_of_lt_countP {α : Type} (p : α → Bool) {n : Nat} {items : List α}
    (h : n < items.countP p) :
    ∃ before item after, items = before ++ item :: after ∧ p item = true ∧
      before.countP p = n := by
  induction items generalizing n with
  | nil => simp at h
  | cons item items ih =>
    cases hitem : p item with
    | true =>
      cases n with
      | zero => exact ⟨[], item, items, rfl, hitem, rfl⟩
      | succ n =>
        rw [List.countP_cons_of_pos hitem] at h
        obtain ⟨before, found, after, rfl, hfound, hcount⟩ := ih (Nat.lt_of_succ_lt_succ h)
        exact ⟨item :: before, found, after, rfl, hfound, by
          rw [List.countP_cons_of_pos hitem, hcount]⟩
    | false =>
      rw [List.countP_cons_of_neg (by simp [hitem])] at h
      obtain ⟨before, found, after, rfl, hfound, hcount⟩ := ih h
      exact ⟨item :: before, found, after, rfl, hfound, by
        rw [List.countP_cons_of_neg (by simp [hitem]), hcount]⟩

theorem logText_limited (limit : Nat) (events : List Event) :
    Limited limit events (logText (some limit) events) := by
  by_cases hbelow : events.countP Event.isInstruction < max limit 1
  · rw [logText, Log.foldl_add_of_below rfl (by simpa [Log.empty] using hbelow)]
    simpa [Log.empty] using Limited.below hbelow
  · have hlt : max limit 1 - 1 < events.countP Event.isInstruction := by omega
    obtain ⟨before, event, after, rfl, hevent, hcount⟩ := exists_split_of_lt_countP _ hlt
    have hreached : before.countP Event.isInstruction + 1 = max limit 1 := by omega
    rw [logText, Log.foldl_add_of_reached after hevent hreached]
    exact .reached hevent hreached

/-- The limit of a recording is kept; a log with one is the log without it up to the instruction
that reaches the limit, and on from there but for a notice and the faults it is quiet. -/
theorem tracing_limited (limit : Nat) (events : List Event) :
    recording none events = events ∧
      recording (some limit) events = (recording none events).take limit ∧
      logText none events = lines events ∧
      Limited limit events (logText (some limit) events) := by
  refine ⟨recording_none events, ?_, logText_none events, logText_limited limit events⟩
  rw [recording_none, recording_some]

/-- Under the limit zero an instruction is written, and under the limit one a fault after it. -/
theorem log_overruns_limit :
    logText (some 0) [.instruction 0 .pushFalse 0] =
        "[    0] PUSH_F     stack=0\n--- trace limit reached (0 instructions) ---\n" ∧
      logText (some 1) [.instruction 0 .pushFalse 0, .instruction 1 .err 1, .fault 1 (.halted 1)] =
        "[    0] PUSH_F     stack=0\n--- trace limit reached (1 instructions) ---\n" ++
          "  !!! ERROR at 1: execution halted at 1\n" := by
  constructor <;> rfl

end Passage
