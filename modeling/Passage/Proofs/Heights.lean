import Passage.Proofs.Silence

/-!
# The deepest stack

The assembler keeps account of the operand stack in bounded numbers, and the code says how
deep it gets. The machine counts the operands that are really there, and refuses to hold more
than `stackLimit`. On a machine whose host always answers, code without comparisons either
succeeds or overflows (`Node.Codes.yields`), and the two counts agree instruction by
instruction as long as nothing overflows (`Machine.account_of_performAll`). The bounds of the
account do not show before that: an instruction that takes its operands from a stack within
the limit has a count within the limit.

So the code says just how deep the stack gets if that is within the limit, and that it
overflows otherwise (`Environment.maxStack_exact`).
-/

namespace Passage

/-! ## Nodes without comparisons -/

mutual

/-- Whether a comparison stands in the node. -/
def Node.compares : Node → Bool
  | .anyOf items => comparesAny items
  | .every items => comparesAny items
  | .compare _ _ _ => true
  | .invert inner => compares inner
  | .invoke target args => compares target || comparesAny args
  | .boolean _ | .identifier _ | .number _ | .string _ => false

def Node.comparesAny : List Node → Bool
  | [] => false
  | node :: rest => compares node || comparesAny rest

end

/-! ## What instructions account for -/

/-- The largest number of operands that is accounted for as it is. -/
def Assembler.largestCount : Nat := 32767

/-- A stack within the limit has no more operands than that. -/
theorem Assembler.stackLimit_le : stackLimit ≤ largestCount := by decide

namespace Instruction

theorem pushes_le_one (i : Instruction) : i.pushes ≤ 1 := by
  unfold pushes
  split <;> decide

/-- An instruction is accounted for by what it pushes and what it pops, if that is not too
much. -/
theorem account_eq {i : Instruction} (hi : i.WellFormed) (hpops : i.pops ≤ Assembler.largestCount) :
    Assembler.account i.op i.operands = some ((i.pushes : Int) - i.pops) := by
  have hcount : ∀ {count : UInt16}, count.toNat ≤ Assembler.largestCount →
      Assembler.countOf count = count.toNat := by
    intro count hcount
    unfold Assembler.largestCount at hcount
    rw [Assembler.countOf]
    omega
  obtain ⟨op, operands⟩ := i
  cases operands with
  | bare => cases op <;> first | rfl | cases hi
  | wordByte => cases op <;> first | rfl | cases hi
  | word count =>
    cases op with
    | needAll | needAny =>
      have hwithin : count.toNat ≤ Assembler.largestCount := hpops
      rw [Assembler.account, hcount hwithin]
      rfl
    | invoke =>
      have hwithin : count.toNat + 1 ≤ Assembler.largestCount := hpops
      have hnet : -(count.toNat : Int) = ((1 : Nat) : Int) - ((count.toNat + 1 : Nat) : Int) := by
        omega
      rw [Assembler.account, hcount (by omega), hnet]
      rfl
    | _ => rfl

end Instruction

namespace Assembler

/-- An instruction that finds its operands moves the account to what it leaves. -/
theorem emit_eq {a : Assembler} {i : Instruction} (hi : i.WellFormed) (hpops : i.pops ≤ a.depth)
    (hdepth : a.depth ≤ largestCount) :
    (a.emit i.op i.operands).depth = a.depth - i.pops + i.pushes ∧
      (a.emit i.op i.operands).deepest = max a.deepest (a.depth - i.pops + i.pushes) := by
  have haccount := Instruction.account_eq hi (Nat.le_trans hpops hdepth)
  have hpushes := i.pushes_le_one
  have hmoved : min ((a.depth : Int) + (i.pushes - i.pops)).toNat deepestCount =
      a.depth - i.pops + i.pushes := by
    unfold largestCount at hdepth
    unfold deepestCount
    omega
  unfold emit
  simp only [haccount, adjust, hmoved, and_self]

end Assembler

/-! ## The account and the stack -/

namespace Machine

open Instruction (placed)

/-- The height of the highest stack. -/
def highest (met : List (List Object)) : Nat := (met.map List.length).foldr max 0

/-- The height of the highest stack of a run. Instructions take their operands before they
push one, so that no stack in between is higher. -/
def deepest (m : Machine) (tape : ByteArray) : Nat := highest (m.stacksOf tape)

theorem length_le_highest (m : Machine) (s : State) (instructions : List (Nat × Instruction)) :
    s.stack.length ≤ highest (m.stacksFrom s instructions) := by
  cases instructions with
  | nil => exact Nat.le_max_left _ _
  | cons entry rest => exact Nat.le_max_left _ _

variable {m : Machine} {s s' : State} {a : Assembler} {offset : Nat} {i : Instruction}
  {code : List Instruction}

/-- An instruction that succeeds without silence leaves a stack as high as is accounted for. -/
theorem height_of_perform (hperform : m.perform offset i (dispatched s offset i.op) = (.ok (), s'))
    (hspoken : m.reply? s.stack i ≠ some .null) :
    i.pops ≤ s.stack.length ∧ s'.stack.length = s.stack.length - i.pops + i.pushes ∧
      (s.stack.length ≤ stackLimit → s'.stack.length ≤ stackLimit) := by
  have hdrop : (s.stack.drop i.pops).length = s.stack.length - i.pops := List.length_drop
  obtain ⟨hpushes, hpops, ⟨-, hroom, o, hstack⟩ | ⟨hsilent, -⟩⟩ | ⟨-, hpushes, hpops, hstack⟩ :=
    perform_ok hperform
  · rw [hstack, List.length_cons]
    refine ⟨hpops, ?_, fun _ => ?_⟩ <;> omega
  · exact absurd hsilent hspoken
  · rw [hstack]
    refine ⟨?_, ?_, id⟩ <;> omega

/-- Where instructions succeed, the account is right about the stack they leave, and about the
highest one. -/
theorem account_of_performAll (hspoken : ∀ stack i, m.reply? stack i ≠ some .null)
    (hcode : ∀ i ∈ code, i.WellFormed) (hstack : s.stack.length = a.depth)
    (hdeepest : a.depth ≤ a.deepest) (hlimit : a.depth ≤ stackLimit)
    (h : m.performAll (placed offset code) s = (.ok (), s')) :
    (a.emitAll code).deepest = max a.deepest (highest (m.stacksFrom s (placed offset code))) ∧
      highest (m.stacksFrom s (placed offset code)) ≤ stackLimit := by
  induction code generalizing offset s a with
  | nil =>
    have hhighest : highest (m.stacksFrom s (placed offset [])) = a.depth := by
      show max s.stack.length 0 = a.depth
      omega
    rw [hhighest]
    exact ⟨(Nat.max_eq_left hdeepest).symm, hlimit⟩
  | cons i rest ih =>
    obtain ⟨t, hperform, hrest⟩ := performAll_cons_ok h
    obtain ⟨hpops, hheight, hbound⟩ := height_of_perform hperform (hspoken _ _)
    obtain ⟨hdepth', hdeepest'⟩ := Assembler.emit_eq (a := a) (hcode i List.mem_cons_self)
      (hstack ▸ hpops) (Nat.le_trans hlimit Assembler.stackLimit_le)
    have hhighest : highest (m.stacksFrom s (placed offset (i :: rest))) =
        max s.stack.length (highest (m.stacksFrom t (placed (offset + i.bytes.length) rest))) := by
      rw [placed, stacksFrom_ok hperform]
      rfl
    have hdepth : (a.emit i.op i.operands).depth = t.stack.length := by
      rw [hdepth', hheight, hstack]
    obtain ⟨hagree, hbounded⟩ := ih (a := a.emit i.op i.operands)
      (fun j hj => hcode j (List.mem_cons_of_mem _ hj)) hdepth.symm
      (Assembler.depth_le_emit hdeepest _ _) (hdepth ▸ hbound (hstack ▸ hlimit)) hrest
    rw [hhighest, Assembler.emitAll_cons, hagree, hdeepest']
    refine ⟨?_, Nat.max_le.mpr ⟨hstack ▸ hlimit, hbounded⟩⟩
    have hhere := m.length_le_highest t (placed (offset + i.bytes.length) rest)
    omega

/-- Where the stack overflows, the account exceeds the limit. -/
theorem account_of_overflow (hspoken : ∀ stack i, m.reply? stack i ≠ some .null)
    (hcode : ∀ i ∈ code, i.WellFormed) (hstack : s.stack.length = a.depth)
    (hlimit : a.depth ≤ stackLimit) {ip : Nat}
    (h : m.performAll (placed offset code) s = (.error (.stackOverflow ip), s')) :
    stackLimit < (a.emitAll code).deepest := by
  induction code generalizing offset s a with
  | nil => exact absurd (congrArg Prod.fst h) nofun
  | cons i rest ih =>
    have hi := hcode i List.mem_cons_self
    rw [placed, performAll_cons, bind_apply] at h
    rcases hperform : m.perform offset i (dispatched s offset i.op) with ⟨fault | ⟨⟩, t⟩ <;>
      rw [hperform] at h
    · have houtcome := m.perform_outcome offset (dispatched s offset i.op) i
      rw [hperform] at houtcome
      cases h
      cases houtcome with
      | failed _ _ hfault => exact absurd rfl (hfault ip)
      | overflowed _ _ hpushes hpops hfull =>
        -- A full stack overflows only under an instruction that takes nothing from it.
        have hpops : i.pops ≤ s.stack.length := hpops
        have hfull : stackLimit ≤ s.stack.length - i.pops := hfull
        obtain ⟨-, hdeepest⟩ := Assembler.emit_eq (a := a) hi (hstack ▸ hpops)
          (Nat.le_trans hlimit Assembler.stackLimit_le)
        have hgrows := (a.emit i.op i.operands).deepest_le_emitAll rest
        rw [Assembler.emitAll_cons]
        omega
    · obtain ⟨hpops, hheight, hbound⟩ := height_of_perform hperform (hspoken _ _)
      obtain ⟨hdepth, -⟩ := Assembler.emit_eq (a := a) hi (hstack ▸ hpops)
        (Nat.le_trans hlimit Assembler.stackLimit_le)
      have hdepth : (a.emit i.op i.operands).depth = t.stack.length := by
        rw [hdepth, hheight, hstack]
      exact ih (a := a.emit i.op i.operands) (fun j hj => hcode j (List.mem_cons_of_mem _ hj))
        hdepth.symm (hdepth ▸ hbound (hstack ▸ hlimit)) h

/-! ## Success or overflow -/

/-- From the stack, the instructions reach the other one, or they overflow. -/
def Leaves (m : Machine) (code : List Instruction) (stack : List Object)
    (left : List Object → Prop) : Prop :=
  ∀ offset (s : State), s.stack = stack →
    (∃ s', m.performAll (placed offset code) s = (.ok (), s') ∧ left s'.stack) ∨
      ∃ ip s', m.performAll (placed offset code) s = (.error (.stackOverflow ip), s')

section

variable {more : List Instruction} {stack below : List Object} {left left' : List Object → Prop}

theorem Leaves.nil : m.Leaves [] stack (· = stack) := fun _ s hs => .inl ⟨s, rfl, hs⟩

theorem Leaves.append (h : m.Leaves code stack left)
    (h' : ∀ stack', left stack' → m.Leaves more stack' left') :
    m.Leaves (code ++ more) stack left' := by
  intro offset s hs
  rw [performAll_append]
  obtain ⟨s', hrun, hleft⟩ | ⟨ip, s', hrun⟩ := h offset s hs
  · rw [bind_ok hrun]
    exact h' s'.stack hleft _ s' rfl
  · rw [bind_apply, hrun]
    exact .inr ⟨ip, s', rfl⟩

theorem Leaves.mono (h : m.Leaves code stack left) (hleft : ∀ stack', left stack' → left' stack') :
    m.Leaves code stack left' := by
  intro offset s hs
  obtain ⟨s', hrun, hl⟩ | hoverflow := h offset s hs
  · exact .inl ⟨s', hrun, hleft _ hl⟩
  · exact .inr hoverflow

/-- An instruction that comes to pushing an object. -/
theorem Leaves.pushing (h : ∀ ip (s : State), s.stack = stack → ∃ o t,
      m.perform ip i s = push ip o t ∧ left (o :: t.stack)) : m.Leaves [i] stack left := by
  intro offset s hs
  obtain ⟨o, t, hperform, hleft⟩ := h offset (dispatched s offset i.op) hs
  rw [placed, performAll_cons, bind_apply, hperform]
  obtain ⟨-, hpush⟩ | ⟨-, hpush⟩ := push_cases offset o t <;> rw [hpush]
  · exact .inl ⟨_, rfl, hleft⟩
  · exact .inr ⟨offset, t, rfl⟩

theorem Serves.leaves_push {meaning : Meaning} (h : m.Serves meaning) {index : ObjectIndex}
    {o : Object} (ho : meaning.pool.get? index = some o) :
    m.Leaves [.push index] stack (· = o :: stack) := by
  refine .pushing fun ip s hs => ⟨o, s, ?_, congrArg _ hs⟩
  exact perform_push (h.lt ho) ((h.get? index).trans ho) s

end

end Machine

/-- Functions that always answer, and not with null, and a check that always answers. -/
structure Meaning.Obliges (meaning : Meaning) : Prop where
  functions : ∀ {name function}, meaning.host.find? name = some function → ∀ args,
    ∃ o, function meaning.pool.freeze args = .ok o ∧ o ≠ .null
  check : ∀ item quantity, ∃ o, meaning.check meaning.pool.freeze item quantity = .ok o

namespace Node

open Machine (Leaves Serves)

variable {m : Machine} {meaning : Meaning}
  {quantityAsked? : Node → List Node → Option (SymbolId × UInt8)}

mutual

/-- Where the host always answers, code without comparisons leaves one operand more, or
overflows. -/
theorem Codes.yields (hm : m.Serves meaning) (ho : meaning.Obliges) {stack : List Object}
    {node : Node} {code : List Instruction} :
    node.Codes quantityAsked? meaning.pool code → node.compares = false →
      m.Leaves code stack fun stack' => ∃ o, stack' = o :: stack := by
  intro hcode hplain
  cases hcode with
  | @anyOf items _ hlength hitems =>
    have hplain : comparesAny items = false := by rwa [compares] at hplain
    refine (CodesAll.yields hm ho hitems hplain).append ?_
    rintro _ ⟨operands, hoperands, rfl⟩
    rw [Instruction.junction, ← hoperands]
    exact .pushing fun ip s hs => ⟨_, { s with stack },
      Machine.junction_apply (hoperands ▸ hlength) (·.any Object.isTruthy) hs, _, rfl⟩
  | @every items _ hlength hitems =>
    have hplain : comparesAny items = false := by rwa [compares] at hplain
    refine (CodesAll.yields hm ho hitems hplain).append ?_
    rintro _ ⟨operands, hoperands, rfl⟩
    rw [Instruction.junction, ← hoperands]
    exact .pushing fun ip s hs => ⟨_, { s with stack },
      Machine.junction_apply (hoperands ▸ hlength) (·.all Object.isTruthy) hs, _, rfl⟩
  | boolean value =>
    refine .pushing fun ip s hs => ⟨.ofBool value, s, ?_, _, congrArg _ hs⟩
    cases value <;> rfl
  | compare => exact absurd hplain (by rw [compares]; decide)
  | identifier hpointer =>
    obtain ⟨o, ho, -⟩ := hm.pointer hpointer
    exact (hm.leaves_push ho).mono fun _ h => ⟨o, h⟩
  | @invert inner _ hinner =>
    have hplain : compares inner = false := by rwa [compares] at hplain
    refine (Codes.yields hm ho hinner hplain).append ?_
    rintro _ ⟨o, rfl⟩
    exact .pushing fun ip s hs => ⟨_, { s with stack }, Machine.perform_invert hs, _, rfl⟩
  | @asked _ _ _ quantity index _ hpointer =>
    obtain ⟨o, hget, -⟩ := hm.pointer hpointer
    obtain ⟨answer, hanswer⟩ := ho.check o quantity
    rw [← hm.table] at hanswer
    refine (hm.leaves_push hget).append ?_
    rintro _ rfl
    refine .pushing fun ip s hs => ⟨answer,
      ⟨stack, .quantity o quantity answer.isTruthy :: s.events⟩, ?_, answer, rfl⟩
    rw [Machine.perform_checkQuantity hm.check (hm.lt hget) ((hm.get? _).trans hget) quantity hs,
      hanswer]
    rfl
  | bare _ haccepts hpointer =>
    obtain ⟨o, hget, hid⟩ := hm.pointer hpointer
    obtain ⟨signature, hsignature, hcount⟩ := haccepts
    obtain ⟨function, hfunction, hlookup⟩ := hm.functions hsignature hid
    obtain ⟨answer, hanswer, hspoken⟩ := ho.functions hfunction []
    rw [← hm.table] at hanswer
    refine .pushing fun ip s hs => ⟨answer,
      ⟨s.stack, .call signature.name 0 :: s.events⟩, ?_, answer, congrArg _ hs⟩
    rw [Machine.perform_invokeBare (hm.lt hget) ((hm.get? _).trans hget) hlookup hcount]
    dsimp only
    rw [hanswer]
    exact Machine.pushAnswer_apply (beq_false_of_ne hspoken)
  | @invoke callee args code index _ haccepts hlength hargs hpointer =>
    have hplain : comparesAny args = false := by
      rw [compares, Bool.or_eq_false_iff] at hplain
      exact hplain.2
    obtain ⟨o, hget, hid⟩ := hm.pointer hpointer
    obtain ⟨signature, hsignature, hcount⟩ := haccepts
    obtain ⟨function, hfunction, hlookup⟩ := hm.functions hsignature hid
    refine (CodesAll.yields hm ho hargs hplain).append ?_
    rintro _ ⟨operands, hoperands, rfl⟩
    obtain ⟨answer, hanswer, hspoken⟩ := ho.functions hfunction operands
    rw [← hm.table] at hanswer
    have hpush : m.Leaves [.push index] (operands.reverse ++ stack)
      (· = o :: (operands.reverse ++ stack)) := hm.leaves_push hget
    refine hpush.append ?_
    rintro _ rfl
    rw [Instruction.junction, ← hoperands]
    refine .pushing fun ip s hs => ⟨answer,
      ⟨stack, .call signature.name operands.length :: s.events⟩, ?_, answer, rfl⟩
    rw [Machine.perform_invoke (hoperands ▸ hlength) hlookup (hoperands ▸ hcount) hs]
    dsimp only
    rw [hanswer]
    exact Machine.pushAnswer_apply (beq_false_of_ne hspoken)
  | number _ hobject => exact (hm.leaves_push hobject).mono fun _ h => ⟨_, h⟩
  | string htext =>
    obtain ⟨o, hget, -⟩ := hm.sound.texts htext
    exact (hm.leaves_push hget).mono fun _ h => ⟨o, h⟩

theorem CodesAll.yields (hm : m.Serves meaning) (ho : meaning.Obliges) {stack : List Object}
    {nodes : List Node} {code : List Instruction} :
    CodesAll quantityAsked? meaning.pool nodes code → comparesAny nodes = false →
      m.Leaves code stack fun stack' => ∃ operands : List Object,
        operands.length = nodes.length ∧ stack' = operands.reverse ++ stack
  | .nil, _ => Leaves.nil.mono fun _ h => ⟨[], rfl, h⟩
  | .cons hnode hrest, hplain => by
    rw [comparesAny, Bool.or_eq_false_iff] at hplain
    refine (Codes.yields hm ho hnode hplain.1).append ?_
    rintro _ ⟨o, rfl⟩
    refine (CodesAll.yields hm ho hrest hplain.2).mono ?_
    rintro _ ⟨operands, hoperands, rfl⟩
    exact ⟨o :: operands, congrArg (· + 1) hoperands, by simp⟩

end

end Node

/-! ## Tapes of environments -/

/-- A machine of a frozen table calls functions of its host. -/
theorem ObjectPool.Functions.find?_of_lookup {p : ObjectPool} {count : Nat} (h : p.Functions count)
    {host : Host} {m : Machine} (hm : Machine.ofTable p.freeze host = .ok m) {callee : Object}
    {callable : Callable} (hlookup : m.functions.lookup callee = some callable) :
    ∃ name, host.find? name = some callable.function := by
  obtain ⟨-, hbind⟩ := Machine.ofTable_eq_ok hm
  obtain ⟨hother, hbound⟩ := Machine.functions_of_bind hbind h.nodup_freeze
  by_cases hmem : callee ∈ p.freeze.builtIns.map (·.1)
  · obtain ⟨⟨pointer, signature⟩, hentry, rfl⟩ := List.mem_map.mp hmem
    obtain ⟨function, hfind, hfunction⟩ := hbound _ hentry
    obtain rfl := Option.some.inj (hfunction.symm.trans hlookup)
    exact ⟨signature.name, hfind⟩
  · exact absurd ((hother callee hmem).symm.trans hlookup) nofun

/-- Where no function answers null, no call is answered with null. -/
theorem Machine.reply?_ne_null {m : Machine} (h : ∀ {callee callable},
      m.functions.lookup callee = some callable → ∀ args,
        callable.function m.table args ≠ .ok .null)
    (stack : List Object) (i : Instruction) : m.reply? stack i ≠ some .null := by
  have hanswer : ∀ callee args, m.answer? callee args ≠ some .null := by
    intro callee args
    unfold answer?
    rcases hlookup : m.functions.lookup callee with _ | callable
    · exact nofun
    · dsimp only
      split
      · have hfunction := h hlookup args
        rcases hvalue : callable.function m.table args with fault | o
        · exact nofun
        · intro ho
          rw [hvalue] at hfunction
          exact hfunction (congrArg Except.ok (Option.some.inj ho))
      · exact nofun
  unfold reply?
  split
  · split
    · exact nofun
    · split
      · exact hanswer _ _
      · exact nofun
  · next index _ _ =>
    rcases m.table.get? index.toNat with _ | callee
    · exact nofun
    · exact hanswer callee []
  · exact nofun

namespace Environment

open Instruction (placed)

/-- The stack that code is said to need is the stack that it uses: where the host always
answers, compiled code without comparisons succeeds within the limit and gets just as deep as
it says, or says that it exceeds the limit and overflows. -/
theorem maxStack_exact {answers : List Answer} {env env' : Environment}
    (hr : Reached (Request.Within Latitude.pointers) answers env) {node : Node} {code : Code}
    (hc : codegen node env = (.ok code, env')) (hplain : node.compares = false) {host : Host}
    {m : Machine} (hm : Machine.ofTable env'.freeze host = .ok m) {check : QuantityCheck}
    (hobliges : (env'.meaning host check).Obliges) :
    (code.maxStack.toNat ≤ stackLimit →
        (∃ o, ((m.withCheck check).run code.tape).result = .ok o) ∧
          (m.withCheck check).deepest code.tape = code.maxStack.toNat) ∧
      (stackLimit < code.maxStack.toNat →
        ∃ ip, ((m.withCheck check).run code.tape).result = .error (.stackOverflow ip)) := by
  obtain ⟨hfurnished, instructions, hcode, htape, hmax⟩ :=
    (continued_of_reached hr).furnished.codegen_codes hc
  have hserves : (m.withCheck check).Serves (env'.meaning host check) :=
    Machine.serves_ofTable (env'.meaning host check) hfurnished.pool hfurnished.functions hm
  have hspoken : ∀ stack i, (m.withCheck check).reply? stack i ≠ some .null := by
    refine Machine.reply?_ne_null fun hlookup args hnull => ?_
    obtain ⟨name, hfind⟩ := hfurnished.functions.find?_of_lookup hm hlookup
    obtain ⟨o, ho, hsome⟩ := hobliges.functions hfind args
    have htable : (m.withCheck check).table = env'.freeze := hserves.table
    rw [htable] at hnull
    exact hsome (Except.ok.inj (ho.symm.trans hnull))
  have hyields : (m.withCheck check).Leaves instructions [] fun stack' => ∃ o, stack' = [o] :=
    hcode.yields hserves hobliges hplain
  rw [Machine.deepest, Machine.stacksOf, htape, Listing.ofTape_emitAll hcode.wellFormed, hmax,
    run_result_eq _ hcode.wellFormed]
  obtain ⟨s', hrun, -⟩ | ⟨ip, s', hrun⟩ := hyields 0 ⟨[], []⟩ rfl
  · obtain ⟨hagree, hbounded⟩ := Machine.account_of_performAll (a := Assembler.empty) hspoken
      hcode.wellFormed rfl (Nat.le_refl _) (Nat.zero_le _) hrun
    have hexact : Machine.highest ((m.withCheck check).stacksFrom ⟨[], []⟩
        (placed 0 instructions)) = (Assembler.empty.emitAll instructions).deepest := by
      rw [hagree]
      exact (Nat.zero_max _).symm
    refine ⟨fun _ => ⟨⟨_, by rw [hrun]; rfl⟩, hexact⟩, fun hover => ?_⟩
    omega
  · have hover := Machine.account_of_overflow (a := Assembler.empty) hspoken hcode.wellFormed rfl
      (Nat.zero_le _) hrun
    exact ⟨fun hwithin => absurd hwithin (Nat.not_le_of_lt hover),
      fun _ => ⟨ip, by rw [hrun]; rfl⟩⟩

/-- The armory is answered by a host that always agrees. -/
theorem armory_obliges (env : Environment) : (env.meaning armoryHost armoryCheck).Obliges where
  functions := by
    intro name function h args
    have hlookup : List.lookup name
      [("has", (fun _ _ => .ok (.ofBool true) : HostFunction))] = some function := h
    rw [List.lookup_cons] at hlookup
    split at hlookup
    · rw [← Option.some.inj hlookup]
      exact ⟨.ofBool true, rfl, by decide⟩
    · exact absurd hlookup nofun
  check _ _ := ⟨_, rfl⟩

/-- The rule about swords needs three operands, and uses them. -/
theorem swordRule_exact :
    ∃ code env' m, codegen swordRule armory = (.ok code, env') ∧
      Machine.ofTable env'.freeze armoryHost = .ok m ∧
      (∃ o, ((m.withCheck armoryCheck).run code.tape).result = .ok o) ∧
      (m.withCheck armoryCheck).deepest code.tape = 3 := by
  have hall : ((codegen swordRule armory).1.toOption.map (·.maxStack.toNat),
      (Machine.ofTable (codegen swordRule armory).2.freeze armoryHost).toOption.isSome) =
      (some 3, true) := by decide +kernel
  obtain ⟨hdepth, hmachine⟩ := Prod.mk.inj hall
  obtain ⟨answers, hr⟩ := reached_armory_within
  rcases hc : codegen swordRule armory with ⟨e | code, env'⟩ <;> rw [hc] at hdepth hmachine
  · cases hdepth
  · have hmax : code.maxStack.toNat = 3 := Option.some.inj hdepth
    rcases hm : Machine.ofTable env'.freeze armoryHost with e | m
    · rw [hm] at hmachine
      cases hmachine
    · have hplain : swordRule.compares = false := by decide
      obtain ⟨hok, hdeepest⟩ := (maxStack_exact hr hc hplain hm (armory_obliges env')).1
        (by rw [hmax]; decide)
      exact ⟨code, env', m, rfl, hm, hok, hdeepest.trans hmax⟩

end Environment

end Passage
