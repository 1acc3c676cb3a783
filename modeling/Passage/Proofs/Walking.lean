import Passage.Proofs.Steps

/-!
# Walking a tape

`Machine.run` runs the instructions that `Listing.ofTape` has read. `Machine.walk` knows
nothing of listings and layouts: it fetches an opcode, then the operands that this opcode
calls for, byte by byte, and goes on from where it stopped. Both split every tape at the same
offsets, well-formed or not, and do the same there (`walk_eq_run`).

So what a walk reports follows the listing of the tape (`walk_agrees`): opcodes are
dispatched in the order in which they are listed, a walk that answers has met all of them on
a tape that decodes, and one that meets no fault of its own fails where the tape does.
-/

namespace Passage

namespace Machine

/-- A machine on its way over a tape: the offset of the next byte, and the bytes from there. -/
structure Walker extends State where
  ip : Nat
  rest : List UInt8

/-- A step on a tape: it may fail, and the walker is kept either way. -/
abbrev Walking := ExceptT RunFault (StateM Walker)

namespace Walking

/-- Fetches a byte of the instruction that starts at `start`. -/
def fetchByte (start : Nat) : Walking UInt8 := do
  let w ← get
  match w.rest with
  | [] => throw (.truncatedTape start)
  | byte :: rest =>
      set { w with ip := w.ip + 1, rest }
      pure byte

/-- Fetches a word, its low byte first. -/
def fetchWord (start : Nat) : Walking UInt16 := do
  let low ← fetchByte start
  let high ← fetchByte start
  pure (Operands.ofWordBytes low high)

/-- Fetches what an opcode works on. -/
def fetchOperands (start : Nat) : Opcode → Walking Operands
  | .nop | .err | .pushTrue | .pushFalse | .invert
  | .compareEqual | .compareUnequal | .compareLess => pure .bare
  | .pushConst | .pushPtr | .pushStr | .pushFunc | .needAll | .needAny
  | .invoke | .invokeBare => do
      let word ← fetchWord start
      pure (.word word)
  | .checkQuantity => do
      let index ← fetchWord start
      let quantity ← fetchByte start
      pure (.wordByte index quantity)

/-- A step of the machine itself, which does not move on the tape. -/
def onState (step : Step Unit) : Walking Unit := fun w =>
  ((step w.toState).1, { w with toState := (step w.toState).2 })

end Walking

open Walking (fetchByte fetchWord fetchOperands onState)

/-- Fetches an instruction and performs it. -/
def advance (m : Machine) : Walking Unit := do
  let start := (← get).ip
  let byte ← fetchByte start
  match Opcode.ofByte? byte with
  | none => throw (.unknownOpcode start byte)
  | some op => do
      onState (modify (dispatched · start op))
      let operands ← fetchOperands start op
      onState (m.perform start ⟨op, operands⟩)

/-! ## Fetching -/

section

variable {w w' : Walker} {start : Nat} {op : Opcode}

theorem fetchByte_nil (h : w.rest = []) :
    fetchByte start w = (.error (.truncatedTape start), w) := by
  rw [fetchByte, bind_ok (get_apply w), h]
  rfl

theorem fetchByte_cons {byte : UInt8} {rest : List UInt8} (h : w.rest = byte :: rest) :
    fetchByte start w = (.ok byte, { w with ip := w.ip + 1, rest }) := by
  rw [fetchByte, bind_ok (get_apply w), h]
  rfl

theorem fetchWord_cons {low high : UInt8} {rest : List UInt8} (h : w.rest = low :: high :: rest) :
    fetchWord start w =
      (.ok (Operands.ofWordBytes low high), { w with ip := w.ip + 2, rest }) := by
  rw [fetchWord, bind_ok (fetchByte_cons h), bind_ok (fetchByte_cons rfl)]
  rfl

/-- A word of which a byte is missing. -/
theorem fetchWord_short (start : Nat) (h : w.rest.length < 2) :
    ∃ w', fetchWord start w = (.error (.truncatedTape start), w') ∧ w'.toState = w.toState := by
  rcases hrest : w.rest with _ | ⟨low, _ | ⟨high, rest⟩⟩ <;> rw [hrest] at h
  · refine ⟨w, ?_, rfl⟩
    rw [fetchWord, bind_apply, fetchByte_nil hrest]
  · refine ⟨{ w with ip := w.ip + 1, rest := [] }, ?_, rfl⟩
    rw [fetchWord, bind_ok (fetchByte_cons hrest), bind_apply, fetchByte_nil rfl]
  · simp only [List.length_cons] at h
    omega

/-- An opcode fetches what its layout says. -/
theorem fetchOperands_eq (start : Nat) (op : Opcode) :
    fetchOperands start op = (match op.layout with
      | .bare => pure .bare
      | .word => do
          let word ← fetchWord start
          pure (.word word)
      | .wordByte => do
          let index ← fetchWord start
          let quantity ← fetchByte start
          pure (.wordByte index quantity)) := by
  cases op <;> rfl

theorem fetchOperands_bare (h : op.layout = .bare) :
    fetchOperands start op w = (.ok .bare, w) := by
  rw [fetchOperands_eq, h]
  rfl

theorem fetchOperands_word {low high : UInt8} {rest : List UInt8} (h : op.layout = .word)
    (hrest : w.rest = low :: high :: rest) : fetchOperands start op w =
      (.ok (.word (Operands.ofWordBytes low high)), { w with ip := w.ip + 2, rest }) := by
  rw [fetchOperands_eq, h]
  dsimp only
  rw [bind_ok (fetchWord_cons hrest)]
  rfl

theorem fetchOperands_wordByte {low high b : UInt8} {rest : List UInt8}
    (h : op.layout = .wordByte) (hrest : w.rest = low :: high :: b :: rest) :
    fetchOperands start op w =
      (.ok (.wordByte (Operands.ofWordBytes low high) b), { w with ip := w.ip + 3, rest }) := by
  rw [fetchOperands_eq, h]
  dsimp only
  rw [bind_ok (fetchWord_cons hrest), bind_ok (fetchByte_cons rfl)]
  rfl

/-- Where bytes are missing to the width of the layout, fetching fails. -/
theorem fetchOperands_short (start : Nat) (h : w.rest.length < op.layout.width) :
    ∃ w', fetchOperands start op w = (.error (.truncatedTape start), w') ∧
      w'.toState = w.toState := by
  rw [fetchOperands_eq]
  cases hlayout : op.layout with
  | bare =>
    rw [hlayout] at h
    exact absurd h (Nat.not_lt_zero _)
  | word =>
    rw [hlayout] at h
    obtain ⟨w', hfail, hstate⟩ := fetchWord_short start h
    refine ⟨w', ?_, hstate⟩
    dsimp only
    rw [bind_apply, hfail]
  | wordByte =>
    have hwidth : w.rest.length < 3 := by rwa [hlayout] at h
    dsimp only
    by_cases hshort : w.rest.length < 2
    · obtain ⟨w', hfail, hstate⟩ := fetchWord_short start hshort
      refine ⟨w', ?_, hstate⟩
      rw [bind_apply, hfail]
    · obtain ⟨low, high, hrest⟩ : ∃ low high, w.rest = [low, high] := by
        rcases hrest : w.rest with _ | ⟨low, _ | ⟨high, _ | ⟨b, rest⟩⟩⟩ <;>
          rw [hrest] at hwidth hshort <;> simp only [List.length_cons, List.length_nil] at *
        all_goals first | omega | exact ⟨low, high, rfl⟩
      refine ⟨{ w with ip := w.ip + 2, rest := [] }, ?_, rfl⟩
      rw [bind_ok (fetchWord_cons hrest), bind_apply, fetchByte_nil rfl]

end

/-! ## Advancing -/

section

variable {m : Machine} {w w' : Walker} {byte : UInt8} {rest : List UInt8} {op : Opcode}

/-- A byte that is no opcode is rejected. -/
theorem advance_unknown (hrest : w.rest = byte :: rest) (hop : Opcode.ofByte? byte = none) :
    m.advance w = (.error (.unknownOpcode w.ip byte), { w with ip := w.ip + 1, rest }) := by
  rw [advance, bind_ok (get_apply w), bind_ok (fetchByte_cons hrest), hop]
  rfl

/-- An opcode is dispatched before its operands are fetched. -/
theorem advance_known (hrest : w.rest = byte :: rest) (hop : Opcode.ofByte? byte = some op) :
    m.advance w =
      (fetchOperands w.ip op >>= fun operands => onState (m.perform w.ip ⟨op, operands⟩))
        ⟨dispatched w.toState w.ip op, w.ip + 1, rest⟩ := by
  rw [advance, bind_ok (get_apply w), bind_ok (fetchByte_cons hrest), hop]
  rfl

/-- No step goes back on the tape. -/
theorem fetchByte_keeps (n start : Nat) :
    Keeps (fun w : Walker => w.rest.length ≤ n) (fetchByte start) := by
  intro w hw
  rcases hrest : w.rest with _ | ⟨byte, rest⟩
  · rw [fetchByte_nil hrest]
    exact hw
  · rw [hrest] at hw
    rw [fetchByte_cons hrest]
    exact Nat.le_of_succ_le hw

theorem fetchOperands_keeps (n start : Nat) (op : Opcode) :
    Keeps (fun w : Walker => w.rest.length ≤ n) (fetchOperands start op) := by
  have hword : Keeps (fun w : Walker => w.rest.length ≤ n) (fetchWord start) :=
    .bind (fetchByte_keeps n start) fun _ => .bind (fetchByte_keeps n start) fun _ => .pure _
  rw [fetchOperands_eq]
  split
  · exact .pure _
  · exact .bind hword fun _ => .pure _
  · exact .bind hword fun _ => .bind (fetchByte_keeps n start) fun _ => .pure _

/-- A step that succeeds gets on on the tape. -/
theorem advance_shorter (hrest : w.rest = byte :: rest) (h : m.advance w = (.ok (), w')) :
    w'.rest.length < w.rest.length := by
  rcases hop : Opcode.ofByte? byte with _ | op
  · rw [advance_unknown hrest hop] at h
    exact absurd (congrArg Prod.fst h) nofun
  · have hkeeps : Keeps (fun w : Walker => w.rest.length ≤ rest.length)
        (fetchOperands w.ip op >>= fun operands => onState (m.perform w.ip ⟨op, operands⟩)) :=
      .bind (fetchOperands_keeps _ _ _) fun _ _ hw => hw
    have hafter := hkeeps ⟨dispatched w.toState w.ip op, w.ip + 1, rest⟩ (Nat.le_refl _)
    rw [← advance_known hrest hop, h] at hafter
    rw [hrest]
    exact Nat.lt_succ_of_le hafter

end

/-- Walks on to the end of the tape, or to the first instruction that fails. -/
def walkFrom (m : Machine) (w : Walker) : Run :=
  match _hrest : w.rest with
  | [] => ⟨.ok (w.stack.headD .null), w.events.reverse⟩
  | _ :: _ =>
      match _hstep : m.advance w with
      | (.ok (), w') => m.walkFrom w'
      | (.error fault, w') => fail w'.toState w.ip fault
termination_by w.rest.length
decreasing_by exact advance_shorter _hrest _hstep

/-- Walks a tape on an empty stack. -/
def walk (m : Machine) (tape : ByteArray) : Run := m.walkFrom ⟨⟨[], []⟩, 0, tape.data.toList⟩

/-! ## Walks and listings -/

section

variable {m : Machine} {w w' : Walker} {byte : UInt8} {rest : List UInt8}

theorem walkFrom_nil (hrest : w.rest = []) :
    m.walkFrom w = ⟨.ok (w.stack.headD .null), w.events.reverse⟩ := by
  rw [walkFrom]
  split
  · rfl
  · next h => exact absurd (hrest.symm.trans h) nofun

theorem walkFrom_ok (hrest : w.rest = byte :: rest) (h : m.advance w = (.ok (), w')) :
    m.walkFrom w = m.walkFrom w' := by
  rw [walkFrom]
  split
  · next hnil => exact absurd (hrest.symm.trans hnil) nofun
  · split
    · next hok => rw [(Prod.mk.inj (hok.symm.trans h)).2]
    · next herror => exact absurd (congrArg Prod.fst (herror.symm.trans h)) nofun

theorem walkFrom_error (hrest : w.rest = byte :: rest) {fault : RunFault}
    (h : m.advance w = (.error fault, w')) : m.walkFrom w = fail w'.toState w.ip fault := by
  rw [walkFrom]
  split
  · next hnil => exact absurd (hrest.symm.trans hnil) nofun
  · split
    · next hok => exact absurd (congrArg Prod.fst (hok.symm.trans h)) nofun
    · next herror =>
      obtain ⟨hfault, hw⟩ := Prod.mk.inj (herror.symm.trans h)
      rw [hw, Except.error.inj hfault]

end

/-- The listing goes on from the offset as the walk does, whatever the state. -/
def Parallel (m : Machine) (offset : Nat) (done : List (Nat × Instruction)) (bytes : List UInt8)
    (listing : Listing) : Prop :=
  ∃ more, listing.instructions = done.reverse ++ more ∧
    ∀ s, m.walkFrom ⟨s, offset, bytes⟩ = m.runFrom listing.ending s more

section

variable {m : Machine} {offset offset' : Nat} {done : List (Nat × Instruction)} {byte : UInt8}
  {bytes rest : List UInt8} {op : Opcode} {operands : Operands} {listing : Listing}

/-- An instruction of which the walk fetches what the listing has read. -/
theorem Parallel.instruction (hop : Opcode.ofByte? byte = some op)
    (hfetch : ∀ s : State, fetchOperands offset op ⟨s, offset + 1, bytes⟩ =
      (.ok operands, ⟨s, offset', rest⟩))
    (h : m.Parallel offset' ((offset, ⟨op, operands⟩) :: done) rest listing) :
    m.Parallel offset done (byte :: bytes) listing := by
  obtain ⟨more, hlisted, hwalk⟩ := h
  refine ⟨(offset, ⟨op, operands⟩) :: more, by rw [hlisted]; simp, fun s => ?_⟩
  have hadvance : m.advance ⟨s, offset, byte :: bytes⟩ =
      onState (m.perform offset ⟨op, operands⟩) ⟨dispatched s offset op, offset', rest⟩ := by
    rw [advance_known rfl hop]
    exact bind_ok (hfetch _)
  rw [runFrom]
  rcases hperform : m.perform offset ⟨op, operands⟩ (dispatched s offset op)
    with ⟨fault | ⟨⟩, s'⟩ <;>
    rw [show (m.perform offset ⟨op, operands⟩).run.run (dispatched s offset op) = _ from hperform]
  · have hfails : m.advance ⟨s, offset, byte :: bytes⟩ = (.error fault, ⟨s', offset', rest⟩) := by
      rw [hadvance, onState, hperform]
    rw [walkFrom_error rfl hfails]
  · have hgoes : m.advance ⟨s, offset, byte :: bytes⟩ = (.ok (), ⟨s', offset', rest⟩) := by
      rw [hadvance, onState, hperform]
    rw [walkFrom_ok rfl hgoes, hwalk]

/-- A byte that is no opcode. -/
theorem Parallel.unknown (hop : Opcode.ofByte? byte = none) :
    m.Parallel offset done (byte :: bytes) ⟨done.reverse, .unknown offset byte⟩ := by
  refine ⟨[], (List.append_nil _).symm, fun s => ?_⟩
  rw [walkFrom_error rfl (advance_unknown rfl hop)]
  rfl

/-- An instruction of which bytes are missing. -/
theorem Parallel.truncated (hop : Opcode.ofByte? byte = some op)
    (hshort : bytes.length < op.layout.width) :
    m.Parallel offset done (byte :: bytes) ⟨done.reverse, .truncated offset op⟩ := by
  refine ⟨[], (List.append_nil _).symm, fun s => ?_⟩
  obtain ⟨w', hfetch, hstate⟩ := fetchOperands_short offset
    (w := ⟨dispatched s offset op, offset + 1, bytes⟩) hshort
  have hadvance : m.advance ⟨s, offset, byte :: bytes⟩ = (.error (.truncatedTape offset), w') := by
    rw [advance_known rfl hop, bind_apply]
    dsimp only
    rw [hfetch]
  rw [walkFrom_error rfl hadvance, hstate]
  rfl

end

/-- A walk and the listing split a tape at the same offsets. -/
theorem parallel_read (m : Machine) (offset : Nat) (done : List (Nat × Instruction))
    (bytes : List UInt8) : m.Parallel offset done bytes (Listing.read offset done bytes) := by
  fun_induction Listing.read offset done bytes with
  | case1 offset done => exact ⟨[], (List.append_nil _).symm, fun s => walkFrom_nil rfl⟩
  | case2 offset done byte rest hop => exact .unknown hop
  | case3 offset done byte op hop rest hlayout ih =>
    exact .instruction hop (fun s => fetchOperands_bare hlayout) ih
  | case4 offset done byte op hop low high rest hlayout ih =>
    exact .instruction hop (fun s => fetchOperands_word hlayout rfl) ih
  | case5 offset done byte op hop low high b rest hlayout ih =>
    exact .instruction hop (fun s => fetchOperands_wordByte hlayout rfl) ih
  | case6 offset done byte rest op hop hbare hword hwordByte =>
    refine .truncated hop ?_
    cases hlayout : op.layout with
    | bare => exact (hbare hlayout).elim
    | word =>
      rcases rest with _ | ⟨low, _ | ⟨high, rest⟩⟩
      · exact (by decide : 0 < 2)
      · exact (by decide : 1 < 2)
      · exact (hword low high rest hlayout rfl).elim
    | wordByte =>
      rcases rest with _ | ⟨low, _ | ⟨high, _ | ⟨b, rest⟩⟩⟩
      · exact (by decide : 0 < 3)
      · exact (by decide : 1 < 3)
      · exact (by decide : 2 < 3)
      · exact (hwordByte low high b rest hlayout rfl).elim

/-- Fetching byte by byte comes to running the listing. -/
theorem walk_eq_run (m : Machine) (tape : ByteArray) : m.walk tape = m.run tape := by
  obtain ⟨more, hlisted, hwalk⟩ := m.parallel_read 0 [] tape.data.toList
  rw [run, Listing.ofTape, hlisted]
  exact hwalk ⟨[], []⟩

end Machine

/-! ## Reports -/

namespace Event

/-- The offset and the opcode of a dispatch. -/
def dispatch? : Event → Option (Nat × Opcode)
  | .instruction offset op _ => some (offset, op)
  | _ => none

/-- The depth of the stack that a dispatch reports. -/
def depth? : Event → Option Nat
  | .instruction _ _ depth => some depth
  | _ => none

/-- A fault that is reported, and the offset with which it is. -/
def fault? : Event → Option (Nat × RunFault)
  | .fault offset cause => some (offset, cause)
  | _ => none

end Event

namespace Machine.Run

/-- The opcodes that were dispatched, in order. -/
def dispatches (r : Run) : List (Nat × Opcode) := r.events.filterMap Event.dispatch?

/-- The depths that were reported, in order. -/
def depths (r : Run) : List Nat := r.events.filterMap Event.depth?

/-- The faults that were reported, in order. -/
def faults (r : Run) : List (Nat × RunFault) := r.events.filterMap Event.fault?

end Machine.Run

/-- The opcode with which a tape ends, if there is one that lacks operands. -/
def TapeEnd.dispatches : TapeEnd → List (Nat × Opcode)
  | .truncated offset op => [(offset, op)]
  | .complete | .unknown _ _ => []

/-- The opcodes that are listed, with one at the end that lacks operands. -/
def Listing.dispatches (l : Listing) : List (Nat × Opcode) :=
  l.instructions.map (fun entry => (entry.1, entry.2.op)) ++ l.ending.dispatches

namespace DecodeError

def offset : DecodeError → Nat
  | .unknownOpcode offset _ | .truncated offset => offset

/-- The fault of a run that meets what cannot be decoded. -/
def fault : DecodeError → RunFault
  | .unknownOpcode offset byte => .unknownOpcode offset byte
  | .truncated offset => .truncatedTape offset

end DecodeError

/-- What a run of a tape reports, compared with how the tape decodes. -/
structure Machine.Run.Follows (r : Run) (tape : ByteArray) : Prop where
  /-- Opcodes are dispatched as they are listed. -/
  dispatches : r.dispatches <+: (Listing.ofTape tape).dispatches
  /-- A run that answers has dispatched all of them, on a tape that decodes. -/
  answered : ∀ {o}, r.result = .ok o →
    decodeTape tape = .ok (Listing.ofTape tape).instructions ∧
      r.dispatches = (Listing.ofTape tape).dispatches ∧ r.faults = []
  /-- A run that has no fault before the one of the tape ends in that. -/
  malformed : ∀ {e}, decodeTape tape = .error e → (∀ entry ∈ r.faults, e.offset ≤ entry.1) →
    r.result = .error e.fault
  /-- The stack stays within the limit. -/
  depths : ∀ depth ∈ r.depths, depth ≤ stackLimit
  /-- The fault in which a run ends is reported once, with the offset of the last opcode that
  was dispatched, or of the byte that was rejected. -/
  failed : ∀ {fault}, r.result = .error fault → ∃ offset, r.faults = [(offset, fault)] ∧
    (r.dispatches.getLast?.map (·.1) = some offset ∨
      ∃ byte, fault = .unknownOpcode offset byte ∧
        decodeTape tape = .error (.unknownOpcode offset byte))

/-! ## Offsets of a listing -/

/-- What is wrong with the end of a tape. -/
def TapeEnd.error? : TapeEnd → Option DecodeError
  | .complete => none
  | .unknown offset byte => some (.unknownOpcode offset byte)
  | .truncated offset _ => some (.truncated offset)

theorem decodeTape_eq (tape : ByteArray) :
    decodeTape tape = match (Listing.ofTape tape).ending.error? with
      | none => .ok (Listing.ofTape tape).instructions
      | some e => .error e := by
  rw [decodeTape]
  cases (Listing.ofTape tape).ending <;> rfl

/-- Instructions are listed before the offset at which a tape fails to decode. -/
theorem Listing.lt_of_mem_read (offset : Nat) (done : List (Nat × Instruction))
    (bytes : List UInt8) (hdone : ∀ entry ∈ done, entry.1 < offset) {e : DecodeError}
    (he : (read offset done bytes).ending.error? = some e) :
    ∀ entry ∈ (read offset done bytes).instructions, entry.1 < e.offset := by
  fun_induction read offset done bytes with
  | case1 => exact absurd he nofun
  | case2 offset done byte rest =>
    cases he
    exact fun entry hentry => hdone entry (List.mem_reverse.mp hentry)
  | case6 offset done byte rest op =>
    cases he
    exact fun entry hentry => hdone entry (List.mem_reverse.mp hentry)
  | case3 offset done _ _ _ _ _ ih | case4 offset done _ _ _ _ _ _ _ ih
  | case5 offset done _ _ _ _ _ _ _ _ ih =>
    refine ih ?_ he
    intro entry hentry
    rcases List.mem_cons.mp hentry with rfl | hmem
    · dsimp only
      omega
    · have hlt := hdone entry hmem
      omega

namespace Machine

/-! ## Reports of a state -/

/-- What a state has reported on its way over the listed opcodes, as long as nothing failed. -/
structure Reported (s : State) (listed : List (Nat × Opcode)) : Prop where
  dispatches : s.events.reverse.filterMap Event.dispatch? = listed
  faults : s.events.reverse.filterMap Event.fault? = []
  depths : ∀ depth ∈ s.events.reverse.filterMap Event.depth?, depth ≤ stackLimit
  height : s.stack.length ≤ stackLimit

namespace Reported

variable {m : Machine} {s s' : State} {listed : List (Nat × Opcode)} {offset : Nat}

theorem start : Reported ⟨[], []⟩ [] := ⟨rfl, rfl, nofun, Nat.zero_le _⟩

theorem dispatched (h : Reported s listed) (offset : Nat) (op : Opcode) :
    Reported (Machine.dispatched s offset op) (listed ++ [(offset, op)]) where
  dispatches := by
    rw [Machine.dispatched, List.reverse_cons, List.filterMap_append, h.dispatches]
    rfl
  faults := by
    rw [Machine.dispatched, List.reverse_cons, List.filterMap_append, h.faults]
    rfl
  depths := by
    intro depth hdepth
    rw [Machine.dispatched, List.reverse_cons, List.filterMap_append] at hdepth
    rcases List.mem_append.mp hdepth with hearlier | hhere
    · exact h.depths depth hearlier
    · rw [List.mem_singleton.mp hhere]
      exact h.height
  height := h.height

/-- Events between a dispatch and the next one report nothing. -/
theorem quiet (h : Reported s listed) {stack : List Object} {quiet : List Event}
    (hquiet : ∀ e ∈ quiet, e.Quiet) (hheight : stack.length ≤ stackLimit) :
    Reported ⟨stack, quiet ++ s.events⟩ listed := by
  have hsilent : ∀ {β : Type} (view : Event → Option β), (∀ e : Event, e.Quiet → view e = none) →
      (quiet ++ s.events).reverse.filterMap view = s.events.reverse.filterMap view := by
    intro β view hview
    rw [List.reverse_append, List.filterMap_append,
      List.filterMap_eq_nil_iff.mpr fun e he => hview e (hquiet e (List.mem_reverse.mp he)),
      List.append_nil]
  have hdispatch := hsilent Event.dispatch? fun e he => by cases e <;> first | rfl | cases he
  have hfault := hsilent Event.fault? fun e he => by cases e <;> first | rfl | cases he
  have hdepth := hsilent Event.depth? fun e he => by cases e <;> first | rfl | cases he
  exact ⟨hdispatch.trans h.dispatches, hfault.trans h.faults, hdepth.symm ▸ h.depths, hheight⟩

/-- An instruction reports nothing itself, and keeps the stack within the limit. -/
theorem perform (h : Reported s listed) (m : Machine) (ip : Nat) (i : Instruction) :
    Reported (m.perform ip i s).2 listed := by
  have houtcome := m.perform_outcome ip s i
  have hheight := h.height
  have hdrop : (s.stack.drop i.pops).length = s.stack.length - i.pops := List.length_drop
  generalize m.perform ip i s = after at houtcome ⊢
  cases houtcome with
  | pushed hquiet _ _ _ hroom => exact h.quiet hquiet (by rw [List.length_cons]; omega)
  | silent hquiet => exact h.quiet hquiet (by omega)
  | idle => exact h
  | overflowed hquiet => exact h.quiet hquiet (by omega)
  | failed hquiet _ _ _ hlength => exact h.quiet hquiet (by omega)

/-- Instructions that succeed have been dispatched in order. -/
theorem performAll (h : Reported s listed) {instructions : List (Nat × Instruction)}
    (hrun : m.performAll instructions s = (.ok (), s')) :
    Reported s' (listed ++ instructions.map fun entry => (entry.1, entry.2.op)) := by
  induction instructions generalizing s listed with
  | nil =>
    cases hrun
    rw [List.map_nil, List.append_nil]
    exact h
  | cons entry rest ih =>
    obtain ⟨offset, i⟩ := entry
    obtain ⟨t, hperform, hrest⟩ := performAll_cons_ok hrun
    have hafter := (h.dispatched offset i.op).perform m offset i
    rw [hperform] at hafter
    have hall := ih hafter hrest
    rwa [List.append_assoc] at hall

/-- A fault is reported once, behind everything else. -/
theorem fail (h : Reported s listed) (offset : Nat) {fault : RunFault}
    (hpanic : fault.isPanic = false) :
    (Machine.fail s offset fault).dispatches = listed ∧
      (Machine.fail s offset fault).faults = [(offset, fault)] ∧
      ∀ depth ∈ (Machine.fail s offset fault).depths, depth ≤ stackLimit := by
  have hevents : (Machine.fail s offset fault).events =
      s.events.reverse ++ [.fault offset fault] := by
    rw [Machine.fail, hpanic]
    exact List.reverse_cons
  rw [Run.dispatches, Run.faults, Run.depths, hevents, List.filterMap_append,
    List.filterMap_append, List.filterMap_append, h.dispatches, h.faults]
  refine ⟨List.append_nil _, rfl, fun depth hdepth => ?_⟩
  rcases List.mem_append.mp hdepth with hearlier | hhere
  · exact h.depths depth hearlier
  · exact absurd hhere List.not_mem_nil

end Reported

/-! ## Reports of a run -/

section

variable {m : Machine} {s : State} {ending : TapeEnd} {instructions : List (Nat × Instruction)}

/-- A run performs all instructions and meets the end of the tape, or one of them fails. -/
theorem runFrom_cases (m : Machine) (ending : TapeEnd) (s : State)
    (instructions : List (Nat × Instruction)) :
    (∃ s', m.performAll instructions s = (.ok (), s') ∧
        m.runFrom ending s instructions = m.runFrom ending s' []) ∨
      ∃ before offset i after t fault s', instructions = before ++ (offset, i) :: after ∧
        m.performAll before s = (.ok (), t) ∧
        m.perform offset i (dispatched t offset i.op) = (.error fault, s') ∧
        m.runFrom ending s instructions = fail s' offset fault := by
  induction instructions generalizing s with
  | nil => exact .inl ⟨s, rfl, rfl⟩
  | cons entry rest ih =>
    obtain ⟨offset, i⟩ := entry
    rcases hperform : m.perform offset i (dispatched s offset i.op) with ⟨fault | ⟨⟩, s'⟩
    · refine .inr ⟨[], offset, i, rest, s, fault, s', rfl, rfl, hperform, ?_⟩
      rw [runFrom, show (m.perform offset i).run.run (dispatched s offset i.op) = _ from hperform]
    · have hrun : m.runFrom ending s ((offset, i) :: rest) = m.runFrom ending s' rest := by
        rw [runFrom, show (m.perform offset i).run.run (dispatched s offset i.op) = _ from hperform]
      rw [hrun]
      obtain ⟨u, hall, hend⟩
        | ⟨before, offset', j, after, t, fault, u, rfl, hbefore, hfails, hend⟩ :=
        ih s'
      · refine .inl ⟨u, ?_, hend⟩
        rw [performAll_cons, bind_ok hperform]
        exact hall
      · refine .inr ⟨(offset, i) :: before, offset', j, after, t, fault, u, rfl, ?_, hfails, hend⟩
        rw [performAll_cons, bind_ok hperform]
        exact hbefore

/-- A fault behind opcodes that were dispatched as they are listed. -/
theorem Reported.fail_follows {listed : List (Nat × Opcode)} (h : Reported s listed)
    {tape : ByteArray} {offset : Nat} {fault : RunFault} (hpanic : fault.isPanic = false)
    (hlisted : listed <+: (Listing.ofTape tape).dispatches)
    (hmalformed : ∀ {e}, decodeTape tape = .error e → e.offset ≤ offset → fault = e.fault)
    (hoffset : listed.getLast?.map (·.1) = some offset ∨ ∃ byte,
      fault = .unknownOpcode offset byte ∧ decodeTape tape = .error (.unknownOpcode offset byte)) :
    (Machine.fail s offset fault).Follows tape := by
  obtain ⟨hdispatches, hfaults, hdepths⟩ := h.fail offset hpanic
  have hresult : (Machine.fail s offset fault).result = .error fault := rfl
  refine ⟨hdispatches ▸ hlisted, ?_, ?_, hdepths, ?_⟩
  · intro o ho
    exact absurd (hresult.symm.trans ho) nofun
  · intro e he hnone
    rw [hfaults] at hnone
    rw [hresult, hmalformed he (hnone _ (List.mem_singleton_self _))]
  · intro fault' hfault'
    obtain rfl : fault = fault' := Except.error.inj (hresult.symm.trans hfault')
    refine ⟨offset, hfaults, ?_⟩
    rw [hdispatches]
    exact hoffset

/-- A run that has met the end of its tape. -/
theorem Reported.end_follows {tape : ByteArray}
    (h : Reported s ((Listing.ofTape tape).instructions.map fun entry => (entry.1, entry.2.op))) :
    (m.runFrom (Listing.ofTape tape).ending s []).Follows tape := by
  have hlisted : (Listing.ofTape tape).dispatches = (Listing.ofTape tape).instructions.map
      (fun entry => (entry.1, entry.2.op)) ++ (Listing.ofTape tape).ending.dispatches := rfl
  have hdecode := decodeTape_eq tape
  rcases hending : (Listing.ofTape tape).ending with _ | ⟨offset, byte⟩ | ⟨offset, op⟩ <;>
    rw [hending] at hlisted hdecode
  · have hall : (Listing.ofTape tape).dispatches = (Listing.ofTape tape).instructions.map
        (fun entry => (entry.1, entry.2.op)) := hlisted.trans (List.append_nil _)
    refine ⟨?_, fun _ => ⟨hdecode, ?_, h.faults⟩, ?_, h.depths, nofun⟩
    · rw [hall]
      exact h.dispatches ▸ List.prefix_refl _
    · rw [hall]
      exact h.dispatches
    · intro e he
      exact absurd (hdecode.symm.trans he) nofun
  · refine h.fail_follows rfl ?_ ?_ (.inr ⟨byte, rfl, hdecode⟩)
    · rw [hlisted]
      exact List.prefix_append _ _
    · intro e he _
      rw [Except.error.inj (he.symm.trans hdecode)]
      rfl
  · refine (h.dispatched offset op).fail_follows rfl ?_ ?_ (.inl ?_)
    · rw [hlisted]
      exact List.prefix_refl _
    · intro e he _
      rw [Except.error.inj (he.symm.trans hdecode)]
      rfl
    · rw [List.getLast?_concat]
      rfl

/-- On every machine that does not panic, and for every tape, a run reports along the listing:
it splits the tape where decoding does, and fails where decoding does unless an instruction
has failed before. -/
theorem run_follows (hm : ¬ m.Panics) (tape : ByteArray) : (m.run tape).Follows tape := by
  have hrun : m.run tape = m.runFrom (Listing.ofTape tape).ending ⟨[], []⟩
    (Listing.ofTape tape).instructions := rfl
  rw [hrun]
  obtain ⟨s', hall, hend⟩
    | ⟨before, offset, i, after, t, fault, s', hsplit, hbefore, hfails, hend⟩ :=
    m.runFrom_cases (Listing.ofTape tape).ending ⟨[], []⟩ (Listing.ofTape tape).instructions
  · rw [hend]
    exact (Reported.start.performAll hall).end_follows
  · -- An instruction fails. It lies before the offset at which the tape fails to decode.
    have hreported :=
      ((Reported.start.performAll hbefore).dispatched offset i.op).perform m offset i
    rw [hfails] at hreported
    have hcalm : fault.isPanic = false := by
      have houtcome := m.perform_outcome offset (dispatched t offset i.op) i
      rw [hfails] at houtcome
      cases houtcome with
      | overflowed => rfl
      | failed _ _ _ hpanic => exact Bool.eq_false_iff.mpr fun h => hm (hpanic h)
    have hmem : (offset, i) ∈ (Listing.ofTape tape).instructions := by
      rw [hsplit]
      exact List.mem_append_right _ List.mem_cons_self
    rw [hend]
    refine hreported.fail_follows hcalm ?_ ?_ (.inl ?_)
    · refine ⟨after.map (fun entry => (entry.1, entry.2.op)) ++
        (Listing.ofTape tape).ending.dispatches, ?_⟩
      rw [Listing.dispatches, hsplit]
      simp
    · intro e he hle
      have herror : (Listing.ofTape tape).ending.error? = some e := by
        rw [decodeTape_eq] at he
        split at he
        · exact absurd he nofun
        · next herror => rw [herror, Except.error.inj he]
      have hlt := Listing.lt_of_mem_read 0 [] tape.data.toList nofun herror _ hmem
      exact absurd hle (Nat.not_le_of_lt hlt)
    · rw [List.getLast?_concat]
      rfl

/-- The machine that fetches byte by byte and the listing that is read by layouts agree on
every tape, compiled or not. -/
theorem walk_agrees (hm : ¬ m.Panics) (tape : ByteArray) :
    m.walk tape = m.run tape ∧ (m.walk tape).Follows tape := by
  rw [m.walk_eq_run tape]
  exact ⟨rfl, m.run_follows hm tape⟩

end

/-- A machine that knows no function, and a tape that ends inside its second instruction. -/
def bare : Machine := ⟨ObjectPool.empty.freeze, [], none⟩

def brokenTape : ByteArray := ⟨#[0x21, 0x51, 0x00]⟩

theorem bare_walk_agrees : bare.walk brokenTape = bare.run brokenTape ∧
    (bare.walk brokenTape).dispatches <+: [(0, .pushTrue), (1, .invoke)] := by
  have hm : ¬ bare.Panics := by
    rintro (⟨hlookup, -⟩ | ⟨hcheck, -⟩)
    · exact absurd hlookup nofun
    · exact absurd hcheck nofun
  have hlisted : (Listing.ofTape brokenTape).dispatches = [(0, .pushTrue), (1, .invoke)] := by cbv
  obtain ⟨hsame, hfollows⟩ := walk_agrees hm brokenTape
  exact ⟨hsame, hlisted ▸ hfollows.dispatches⟩

end Machine

end Passage
