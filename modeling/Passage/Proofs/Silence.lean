import Passage.Proofs.Continuity
import Passage.Proofs.Steps

/-!
# Silent functions

A function that answers null leaves no operand, and every instruction behind the call works
on a stack that is one operand short: it may take operands that belong to other parts of the
node. No window of the stack is where it was meant to be then, but the number of operands is
still accounted for. The code of a node puts one operand more on the stack than it takes off
(`Codes.balance`), so that at the end of a run that does not fail the operands left and the
silent calls together are one (`Codes.left`).

So one silence uses up the only operand of the answer, and two silences cannot be survived.
If the node itself is the silent call, its answer is null; after any other silent call, the
last instruction would still leave an operand, and there is none: the run fails
(`codegen_not_misled`).
-/

namespace Passage

namespace Instruction

theorem placed_append (code more : List Instruction) (offset : Nat) :
    placed offset (code ++ more) =
      placed offset code ++ placed (offset + (allBytes code).length) more := by
  induction code generalizing offset with
  | nil => rfl
  | cons i rest ih =>
    rw [List.cons_append, placed, ih, placed, allBytes_cons, List.length_append, Nat.add_assoc]
    rfl

/-- Instructions lie before the end of their bytes. -/
theorem lt_of_mem_placed {code : List Instruction} {offset place : Nat} {i : Instruction}
    (h : (place, i) ∈ placed offset code) : place < offset + (allBytes code).length := by
  induction code generalizing offset with
  | nil => exact absurd h List.not_mem_nil
  | cons j rest ih =>
    have hbytes : 0 < j.bytes.length := Nat.succ_pos _
    rw [allBytes_cons, List.length_append]
    rcases List.mem_cons.mp h with heq | hrest
    · cases heq
      omega
    · have hlt := ih hrest
      omega

theorem placed_map_snd {α : Type} (f : Instruction → α) (code : List Instruction) (offset : Nat) :
    (placed offset code).map (fun entry => f entry.2) = code.map f := by
  induction code generalizing offset with
  | nil => rfl
  | cons i rest ih => rw [placed, List.map_cons, List.map_cons, ih]

/-- The operands that instructions take off the stack, and those that they put there. -/
def popsAll (code : List Instruction) : Nat := (code.map pops).sum

def pushesAll (code : List Instruction) : Nat := (code.map pushes).sum

theorem popsAll_append (code more : List Instruction) :
    popsAll (code ++ more) = popsAll code + popsAll more := by
  rw [popsAll, List.map_append, List.sum_append]
  rfl

theorem pushesAll_append (code more : List Instruction) :
    pushesAll (code ++ more) = pushesAll code + pushesAll more := by
  rw [pushesAll, List.map_append, List.sum_append]
  rfl

/-- A junction takes its operands; a call takes the function, too. -/
theorem pops_junction {op : Opcode} {nodes : List Node} (h : nodes.length < 65536) :
    (op = .needAll ∨ op = .needAny → (junction op nodes).pops = nodes.length) ∧
      (op = .invoke → (junction op nodes).pops = nodes.length + 1) := by
  have hcount : (UInt16.ofNat nodes.length).toNat = nodes.length := by
    rw [UInt16.toNat_ofNat', Nat.mod_eq_of_lt h]
  refine ⟨?_, ?_⟩
  · rintro (rfl | rfl) <;> exact hcount
  · rintro rfl
    exact congrArg (· + 1) hcount

end Instruction

/-! ## The balance of code -/

namespace Node

open Instruction (popsAll pushesAll popsAll_append pushesAll_append pops_junction)

variable {quantityAsked? : Node → List Node → Option (SymbolId × UInt8)} {p : ObjectPool}

mutual

/-- The code of a node puts one operand more on the stack than it takes off. -/
theorem Codes.balance {node : Node} {code : List Instruction} :
    node.Codes quantityAsked? p code → pushesAll code = popsAll code + 1
  | .anyOf hlength hitems => by
    have hbalance := CodesAll.balance hitems
    have hpops := (pops_junction hlength).1 (.inr rfl)
    rw [pushesAll_append, popsAll_append, hbalance]
    simp only [popsAll, pushesAll, List.map_cons, List.map_nil, List.sum_cons, List.sum_nil, hpops]
    rfl
  | .every hlength hitems => by
    have hbalance := CodesAll.balance hitems
    have hpops := (pops_junction hlength).1 (.inl rfl)
    rw [pushesAll_append, popsAll_append, hbalance]
    simp only [popsAll, pushesAll, List.map_cons, List.map_nil, List.sum_cons, List.sum_nil, hpops]
    rfl
  | .boolean value => by cases value <;> rfl
  | @Codes.compare _ _ op _ _ _ _ hrhs hlhs => by
    have hfirst := Codes.balance hrhs
    have hsecond := Codes.balance hlhs
    have hlast : popsAll [⟨Drafting.comparisonOpcode op, .bare⟩] = 2 ∧
        pushesAll [⟨Drafting.comparisonOpcode op, .bare⟩] = 1 := by cases op <;> exact ⟨rfl, rfl⟩
    rw [pushesAll_append, pushesAll_append, popsAll_append, popsAll_append]
    omega
  | .identifier _ | .number _ _ | .string _ | .bare _ _ _ | .asked _ _ => rfl
  | .invert hinner => by
    have hbalance := Codes.balance hinner
    rw [pushesAll_append, popsAll_append, hbalance]
    rfl
  | @Codes.invoke _ _ _ args code index _ _ hlength hargs _ => by
    have hbalance := CodesAll.balance hargs
    have hpops := (pops_junction hlength).2 rfl
    have hcall : popsAll [.push index, .junction .invoke args] = args.length + 1 ∧
        pushesAll [.push index, .junction .invoke args] = 2 := by
      refine ⟨?_, rfl⟩
      simp only [popsAll, List.map_cons, List.map_nil, List.sum_cons, List.sum_nil, hpops]
      exact Nat.zero_add _
    rw [pushesAll_append, popsAll_append]
    omega

/-- The code of nodes puts as many operands more on the stack as there are nodes. -/
theorem CodesAll.balance {nodes : List Node} {code : List Instruction} :
    CodesAll quantityAsked? p nodes code → pushesAll code = popsAll code + nodes.length
  | .nil => rfl
  | .cons hnode hrest => by
    have hfirst := Codes.balance hnode
    have hsecond := CodesAll.balance hrest
    rw [pushesAll_append, popsAll_append, List.length_cons]
    omega

end

/-- The last instruction of a node puts an operand on the stack, and is a call only if the
node is one. -/
theorem Codes.last {node : Node} {code : List Instruction}
    (h : node.Codes quantityAsked? p code) :
    ∃ (before : List Instruction) (i : Instruction), code = before ++ [i] ∧ i.pushes = 1 ∧
      (i.op = .invoke ∨ i.op = .invokeBare → ∃ target args, node = .invoke target args) := by
  cases h with
  | anyOf | every => exact ⟨_, _, rfl, rfl, by rintro (h | h) <;> cases h⟩
  | boolean value =>
    cases value <;> exact ⟨[], _, rfl, rfl, by rintro (h | h) <;> cases h⟩
  | @compare op _ _ first second =>
    refine ⟨first ++ second, _, (List.append_assoc _ _ _).symm, ?_, ?_⟩
    · cases op <;> rfl
    · cases op <;> rintro (h | h) <;> cases h
  | identifier | number | string =>
    exact ⟨[], _, rfl, rfl, by rintro (h | h) <;> cases h⟩
  | invert => exact ⟨_, _, rfl, rfl, by rintro (h | h) <;> cases h⟩
  | asked => exact ⟨[_], _, rfl, rfl, fun _ => ⟨_, _, rfl⟩⟩
  | bare => exact ⟨[], _, rfl, rfl, fun _ => ⟨_, _, rfl⟩⟩
  | @invoke _ _ code index =>
    exact ⟨code ++ [.push index], _, by rw [List.append_assoc]; rfl, rfl, fun _ => ⟨_, _, rfl⟩⟩

end Node

/-! ## Silences of a run -/

namespace Machine

open Instruction (placed popsAll pushesAll)

variable {m : Machine} {s s' t : State} {offset : Nat} {i : Instruction}

/-- The number of calls of a run that a function answers with null. -/
def silences (m : Machine) (s : State) (instructions : List (Nat × Instruction)) : Nat :=
  (m.repliesFrom s instructions).countP fun reply => reply.2.isNull

theorem silences_pos {instructions : List (Nat × Instruction)}
    (h : (offset, .null) ∈ m.repliesFrom s instructions) : 0 < m.silences s instructions :=
  List.countP_pos_iff.mpr ⟨_, h, beq_self_eq_true Object.null⟩

/-- Only a call is answered. -/
theorem op_of_reply? {stack : List Object} {o : Object} (h : m.reply? stack i = some o) :
    i.op = .invoke ∨ i.op = .invokeBare := by
  unfold reply? at h
  split at h
  · next hop _ => exact .inl hop
  · next hop _ => exact .inr hop
  · exact absurd h nofun

/-- A call of a silent function succeeds, whatever is left of the stack. -/
theorem perform_of_silent (h : m.reply? s.stack i = some .null) :
    ∃ s', m.perform offset i (dispatched s offset i.op) = (.ok (), s') := by
  have houtcome := m.perform_outcome offset (dispatched s offset i.op) i
  rcases hperform : m.perform offset i (dispatched s offset i.op) with ⟨fault | ⟨⟩, s'⟩
  · rw [hperform] at houtcome
    cases houtcome with
    | overflowed _ hreply => exact absurd h hreply
    | failed _ hreply => exact absurd h hreply
  · exact ⟨s', rfl⟩

theorem repliesFrom_append {first more : List (Nat × Instruction)}
    (h : m.performAll first s = (.ok (), t)) :
    m.repliesFrom s (first ++ more) = m.repliesFrom s first ++ m.repliesFrom t more := by
  induction first generalizing s with
  | nil =>
    cases h
    rfl
  | cons entry rest ih =>
    obtain ⟨offset, i⟩ := entry
    obtain ⟨u, hperform, hrest⟩ := performAll_cons_ok h
    rw [List.cons_append, repliesFrom_ok hperform, repliesFrom_ok hperform, ih hrest,
      List.append_assoc]

/-- Where instructions succeed, the operands that they leave and the silent calls make up for
those that they found and pushed. -/
theorem height_of_performAll {instructions : List (Nat × Instruction)}
    (h : m.performAll instructions s = (.ok (), s')) :
    s'.stack.length + m.silences s instructions + (instructions.map (·.2.pops)).sum =
      s.stack.length + (instructions.map (·.2.pushes)).sum := by
  induction instructions generalizing s with
  | nil =>
    cases h
    rfl
  | cons entry rest ih =>
    obtain ⟨offset, i⟩ := entry
    obtain ⟨t, hperform, hrest⟩ := performAll_cons_ok h
    have htail := ih hrest
    have hdrop : (s.stack.drop i.pops).length = s.stack.length - i.pops := List.length_drop
    rw [silences, repliesFrom_ok hperform, List.countP_append, List.map_cons, List.map_cons,
      List.sum_cons, List.sum_cons]
    unfold silences at htail
    -- The three ways to succeed differ in what they leave and in whether they are silent.
    obtain ⟨hpushes, hpops, ⟨hreply, -, o, hstack⟩ | ⟨hreply, hstack⟩⟩ |
      ⟨hreply, hpushes, hpops, hstack⟩ := perform_ok hperform
    · have hheard : (((m.reply? s.stack i).map (offset, ·)).toList.countP
          fun reply => reply.2.isNull) = 0 := by
        rcases hanswer : m.reply? s.stack i with _ | answer
        · rfl
        · rw [hanswer] at hreply
          have hnull : answer.isNull = false :=
            beq_eq_false_iff_ne.mpr fun heq => hreply (congrArg some heq)
          simp [hnull]
      rw [hstack, List.length_cons] at htail
      rw [hheard]
      dsimp only
      omega
    · rw [hstack] at htail
      have hsilent : ((Option.some Object.null).map (offset, ·)).toList.countP
          (fun reply => reply.2.isNull) = 1 := rfl
      rw [hreply, hsilent]
      dsimp only
      omega
    · rw [hreply, hpushes, hpops]
      rw [hstack] at htail
      have hquiet : ((Option.none (α := Object)).map (offset, ·)).toList.countP
          (fun reply => reply.2.isNull) = 0 := rfl
      rw [hquiet]
      omega

end Machine

/-! ## Silence in the code of a node -/

namespace Node

open Instruction (placed placed_append allBytes)

variable {quantityAsked? : Node → List Node → Option (SymbolId × UInt8)} {p : ObjectPool}
  {m : Machine} {node : Node} {code : List Instruction} {s' : Machine.State} {offset : Nat}

/-- The node is a call, and that call lies at the offset: it is the last instruction. -/
def CallsAt (node : Node) (tape : ByteArray) (offset : Nat) : Prop :=
  (∃ target args, node = .invoke target args) ∧
    (Listing.ofTape tape).instructions.getLast?.map (·.1) = some offset

/-- Where the code of a node succeeds, there is one operand left, or one call was silent. -/
theorem Codes.left (hcode : node.Codes quantityAsked? p code)
    (h : m.performAll (placed 0 code) ⟨[], []⟩ = (.ok (), s')) :
    s'.stack.length + m.silences ⟨[], []⟩ (placed 0 code) = 1 := by
  have hheight := Machine.height_of_performAll h
  have hbalance := hcode.balance
  rw [Instruction.placed_map_snd, Instruction.placed_map_snd] at hheight
  unfold Instruction.pushesAll Instruction.popsAll at hbalance
  have hnothing : (⟨[], []⟩ : Machine.State).stack.length = 0 := rfl
  omega

/-- What is left of the code of a node when its last instruction is met. -/
theorem Codes.before_last (hcode : node.Codes quantityAsked? p code) :
    ∃ (before : List Instruction) (i : Instruction), code = before ++ [i] ∧ i.pushes = 1 ∧
      placed 0 code = placed 0 before ++ [((allBytes before).length, i)] ∧
      (i.op = .invoke ∨ i.op = .invokeBare → ∃ target args, node = .invoke target args) := by
  obtain ⟨before, i, rfl, hpushes, hcall⟩ := hcode.last
  refine ⟨before, i, rfl, hpushes, ?_, hcall⟩
  rw [placed_append, Nat.zero_add]
  rfl

/-- Where the code of a node succeeds, no call but that of the node itself was silent. -/
theorem Codes.silent_last (hcode : node.Codes quantityAsked? p code)
    (h : m.performAll (placed 0 code) ⟨[], []⟩ = (.ok (), s'))
    (hsilent : (offset, .null) ∈ m.repliesFrom ⟨[], []⟩ (placed 0 code)) :
    (∃ target args, node = .invoke target args) ∧
      (placed 0 code).getLast?.map (·.1) = some offset := by
  have hleft := hcode.left h
  obtain ⟨before, i, rfl, hpushes, hplaced, hcall⟩ := hcode.before_last
  rw [Machine.performAll_append] at h
  obtain ⟨⟨⟩, t, hbefore, hlast⟩ := bind_eq_ok h
  obtain ⟨u, hperform, hnil⟩ := Machine.performAll_cons_ok hlast
  cases hnil
  rw [Nat.zero_add] at hperform
  have hreplies : m.repliesFrom ⟨[], []⟩ (placed 0 (before ++ [i])) =
      m.repliesFrom ⟨[], []⟩ (placed 0 before) ++
        ((m.reply? t.stack i).map ((allBytes before).length, ·)).toList := by
    rw [hplaced, Machine.repliesFrom_append hbefore, Machine.repliesFrom_ok hperform]
    exact congrArg _ (List.append_nil _)
  rw [hreplies] at hsilent
  rw [Machine.silences, hreplies, List.countP_append] at hleft
  obtain hearlier | hown := List.mem_append.mp hsilent
  · -- An earlier silence leaves no operand to the answer, but the last instruction left one.
    have hsome : 0 < m.silences ⟨[], []⟩ (placed 0 before) := Machine.silences_pos hearlier
    unfold Machine.silences at hsome
    obtain ⟨-, -, ⟨-, -, o, hstack⟩ | ⟨hreply, -⟩⟩ | ⟨-, hidle, -⟩ := Machine.perform_ok hperform
    · rw [hstack, List.length_cons] at hleft
      omega
    · have hsilences : (((m.reply? t.stack i).map ((allBytes before).length, ·)).toList.countP
          fun reply => reply.2.isNull) = 1 := by
        rw [hreply]
        rfl
      omega
    · omega
  · obtain ⟨o, hreply, heq⟩ := Option.map_eq_some_iff.mp (Option.mem_toList.mp hown)
    cases heq
    refine ⟨hcall (Machine.op_of_reply? hreply), ?_⟩
    rw [hplaced, List.getLast?_concat]
    rfl

/-- Where the node itself is a call that is silent, its code succeeds and leaves nothing. -/
theorem Codes.silent_own (hcode : node.Codes quantityAsked? p code)
    (hsilent : (offset, .null) ∈ m.repliesFrom ⟨[], []⟩ (placed 0 code))
    (hoffset : (placed 0 code).getLast?.map (·.1) = some offset) :
    ∃ s', m.performAll (placed 0 code) ⟨[], []⟩ = (.ok (), s') ∧ s'.stack = [] := by
  have hsucceeds : ∃ s', m.performAll (placed 0 code) ⟨[], []⟩ = (.ok (), s') := by
    obtain ⟨before, i, -, -, hplaced, -⟩ := hcode.before_last
    obtain ⟨earlier, j, after, t, hsplit, hearlier, hreply⟩ := Machine.mem_repliesFrom hsilent
    rw [hplaced, List.getLast?_concat] at hoffset
    have hlast : (allBytes before).length = offset := Option.some.inj hoffset
    rcases List.eq_nil_or_concat after with rfl | ⟨mid, entry, rfl⟩
    · obtain ⟨s', hperform⟩ := Machine.perform_of_silent hreply
      refine ⟨s', ?_⟩
      rw [hsplit, Machine.performAll_append_ok hearlier, Machine.performAll_cons,
        bind_ok hperform]
      rfl
    · -- The call would lie before the last instruction, and so at an earlier offset.
      have hassoc : earlier ++ (offset, j) :: mid.concat entry =
          (earlier ++ (offset, j) :: mid) ++ [entry] := by simp
      rw [hassoc, hplaced] at hsplit
      have hbefore := List.append_inj_left' hsplit rfl
      have hmem : (offset, j) ∈ placed 0 before := by
        rw [hbefore]
        exact List.mem_append_right _ List.mem_cons_self
      have hlt := Instruction.lt_of_mem_placed hmem
      omega
  obtain ⟨s', hrun⟩ := hsucceeds
  refine ⟨s', hrun, List.length_eq_zero_iff.mp ?_⟩
  have hleft := hcode.left hrun
  have hsome := Machine.silences_pos hsilent
  omega

end Node

/-! ## Tapes of environments -/

namespace Environment

open Instruction (placed)

/-- What a run of the tape of compiled instructions comes to. -/
theorem run_result_eq (m : Machine) {code : List Instruction} (hcode : ∀ i ∈ code, i.WellFormed) :
    (m.run (Assembler.empty.emitAll code).tape).result =
      (m.performAll (placed 0 code) ⟨[], []⟩).1.map fun _ =>
        (m.performAll (placed 0 code) ⟨[], []⟩).2.stack.headD .null := by
  rw [Machine.run, Listing.ofTape_emitAll hcode]
  exact m.runFrom_result _ _

/-- A silent function never misleads: if a call other than that of the node itself is
answered with null, the run of compiled code does not answer, whatever the instructions
behind the call have made of each other's operands. If it is the node's own call, the answer
is null. -/
theorem codegen_not_misled {answers : List Answer} {env env' : Environment}
    (hr : Reached (Request.Within Latitude.pointers) answers env) {node : Node} {code : Code}
    (hc : codegen node env = (.ok code, env')) (m : Machine) {offset : Nat}
    (hsilent : (offset, .null) ∈ m.replies code.tape) :
    (¬ node.CallsAt code.tape offset → ∀ o, (m.run code.tape).result ≠ .ok o) ∧
      (node.CallsAt code.tape offset → (m.run code.tape).result = .ok .null) := by
  obtain ⟨-, instructions, hcode, htape, -⟩ :=
    (continued_of_reached hr).furnished.codegen_codes hc
  have hlisting : (Listing.ofTape code.tape).instructions = placed 0 instructions := by
    rw [htape, Listing.ofTape_emitAll hcode.wellFormed]
  rw [Machine.replies, hlisting] at hsilent
  unfold Node.CallsAt
  rw [hlisting, htape, run_result_eq m hcode.wellFormed]
  refine ⟨fun helsewhere o hok => helsewhere ?_, fun hown => ?_⟩
  · rcases hrun : m.performAll (placed 0 instructions) ⟨[], []⟩ with ⟨fault | ⟨⟩, s'⟩
    · rw [hrun] at hok
      exact absurd hok nofun
    · exact hcode.silent_last hrun hsilent
  · obtain ⟨s', hrun, hstack⟩ := hcode.silent_own hsilent hown.2
    rw [hrun]
    show Except.ok (s'.stack.headD .null) = _
    rw [hstack]
    rfl

/-- A host whose one function has no answer. -/
def quietHost : Host := Host.empty.register "has" fun _ _ => .ok .null

/-- A rule that is more than the call in it. -/
def quietRule : Node := .every [.call 13 [.identifier 14, .string "edge"], .boolean true]

/-- The call in the rule is silent, and the run fails. -/
theorem quietRule_not_misled :
    ∃ code env' m, codegen quietRule armory = (.ok code, env') ∧
      Machine.ofTable env'.freeze quietHost = .ok m ∧ (9, .null) ∈ m.replies code.tape ∧
      ∀ o, (m.run code.tape).result ≠ .ok o := by
  have hanswered : ((codegen quietRule armory).1.toOption.bind fun code =>
      (Machine.ofTable (codegen quietRule armory).2.freeze quietHost).toOption.map fun m =>
        m.replies code.tape) = some [(9, .null)] := by decide +kernel
  obtain ⟨answers, hr⟩ := reached_armory_within
  rcases hc : codegen quietRule armory with ⟨e | code, env'⟩ <;> rw [hc] at hanswered
  · cases hanswered
  · obtain ⟨m, hm, hreplies⟩ := Option.map_eq_some_iff.mp hanswered
    rcases hmachine : Machine.ofTable env'.freeze quietHost with e | m' <;> rw [hmachine] at hm
    · cases hm
    · obtain rfl := Option.some.inj hm
      have hsilent : (9, .null) ∈ m'.replies code.tape := by
        rw [hreplies]
        exact List.mem_cons_self
      refine ⟨code, env', m', rfl, hmachine, hsilent, ?_⟩
      refine (codegen_not_misled hr hc m' hsilent).1 ?_
      rintro ⟨⟨target, args, hcall⟩, -⟩
      cases hcall

end Environment

end Passage
