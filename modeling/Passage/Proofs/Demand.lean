import Passage.Proofs.Heights

/-!
# The stack that a node asks for

How deep the stack gets under the code of a node can be read off the node: the operands of
a junction stay where they are until the last one is there, those of a call until the
function is there, too (`Node.need`). The assembler accounts for just that, as long as it is
not more than the assembler can count (`Node.maxStack_eq_need`).
-/

namespace Passage

section

variable (quantityAsked? : Node → List Node → Option (SymbolId × UInt8))

mutual

/-- The number of operands that the code of a node needs room for. -/
def Node.need : Node → Nat
  | .anyOf items => max 1 (Node.needAll items)
  | .every items => max 1 (Node.needAll items)
  | .compare _ lhs rhs => max (Node.need rhs) (Node.need lhs + 1)
  | .invert inner => Node.need inner
  | .invoke target args =>
      if (quantityAsked? target args).isSome then 1
      else max (Node.needAll args) (args.length + 1)
  | .boolean _ | .identifier _ | .number _ | .string _ => 1

/-- The number of operands that nodes need room for, one after the other. -/
def Node.needAll : List Node → Nat
  | [] => 0
  | node :: rest => max (Node.need node) (Node.needAll rest + 1)

end

end

namespace Node

variable {quantityAsked? : Node → List Node → Option (SymbolId × UInt8)} {p : ObjectPool}

/-- Nodes need room for what each of them leaves. -/
theorem length_le_needAll (quantityAsked? : Node → List Node → Option (SymbolId × UInt8))
    (nodes : List Node) : nodes.length ≤ needAll quantityAsked? nodes := by
  induction nodes with
  | nil => exact Nat.le_refl 0
  | cons node rest ih =>
    rw [List.length_cons, needAll]
    omega

/-- Nodes need room for the neediest of them. -/
theorem need_le_needAll {node : Node} {nodes : List Node} (h : node ∈ nodes) :
    need quantityAsked? node ≤ needAll quantityAsked? nodes := by
  induction h with
  | head rest => exact Nat.le_max_left _ _
  | tail _ _ ih => exact Nat.le_trans (Nat.le_succ_of_le ih) (Nat.le_max_right _ _)

theorem need_asked {target : Node} {args : List Node} {check : SymbolId × UInt8}
    (h : quantityAsked? target args = some check) :
    need quantityAsked? (.invoke target args) = 1 := by
  rw [need, h]
  rfl

theorem need_call {target : Node} {args : List Node} (h : quantityAsked? target args = none) :
    need quantityAsked? (.invoke target args) =
      max (needAll quantityAsked? args) (args.length + 1) := by
  rw [need, h]
  rfl

/-- Every node leaves something. -/
theorem one_le_need (quantityAsked? : Node → List Node → Option (SymbolId × UInt8)) :
    (node : Node) → 1 ≤ need quantityAsked? node
  | .anyOf _ | .every _ => Nat.le_max_left _ _
  | .compare _ _ _ => Nat.le_trans (Nat.le_add_left 1 _) (Nat.le_max_right _ _)
  | .invert inner => one_le_need quantityAsked? inner
  | .invoke target args => by
    rcases h : quantityAsked? target args with _ | check
    · rw [need_call h]
      exact Nat.le_trans (Nat.le_add_left 1 _) (Nat.le_max_right _ _)
    · rw [need_asked h]
  | .boolean _ | .identifier _ | .number _ | .string _ => Nat.le_refl 1

/-! ## What is accounted for is needed -/

open Assembler (Fits depth_le_emitAll deepest_le_emitAll emitAll_append)

/-- The operand that the code of a node leaves has been accounted for. -/
theorem Codes.succ_le_deepest {node : Node} {code : List Instruction} {a : Assembler}
    (h : node.Codes quantityAsked? p code) (hfits : a.Fits code) :
    a.depth + 1 ≤ (a.emitAll code).deepest := by
  rw [← h.depth hfits]
  exact depth_le_emitAll hfits.depth code

mutual

/-- What the code of a node needs is accounted for, if it is not more than the stack holds. -/
theorem Codes.need_le {node : Node} {code : List Instruction} {a : Assembler}
    (h : node.Codes quantityAsked? p code) (hfits : a.Fits code) :
    a.depth + node.need quantityAsked? ≤ (a.emitAll code).deepest := by
  have hone := h.succ_le_deepest hfits
  cases h with
  | @anyOf items code _ hitems | @every items code _ hitems =>
    have hall := CodesAll.need_le hitems hfits.left
    rw [emitAll_append] at hone ⊢
    rw [need, ← Nat.add_max_add_left]
    exact Nat.max_le.mpr ⟨hone, Nat.le_trans hall (deepest_le_emitAll _ _)⟩
  | @compare op lhs rhs first second hrhs hlhs =>
    have hfirst := Codes.need_le hrhs hfits.left
    have hsecond := Codes.need_le hlhs hfits.right.left
    rw [hrhs.depth hfits.left] at hsecond
    have hgrows := (a.emitAll first).deepest_le_emitAll second
    rw [need, emitAll_append, emitAll_append]
    refine Nat.le_trans ?_ (deepest_le_emitAll _ _)
    omega
  | invert hinner =>
    have hbelow := Codes.need_le hinner hfits.left
    rw [need, emitAll_append]
    exact Nat.le_trans hbelow (deepest_le_emitAll _ _)
  | asked hasked =>
    rwa [need_asked hasked]
  | bare hasked =>
    rwa [need_call hasked]
  | @invoke callee args code index hasked _ _ hargs hpointer =>
    have hall := CodesAll.need_le hargs hfits.left
    have hpushed : (a.emitAll code).Fits ([.push index] ++ [.junction .invoke args]) := hfits.right
    have hcallee : (identifier callee).Codes quantityAsked? p [.push index] := .identifier hpointer
    have hfunction := hcallee.succ_le_deepest hpushed.left
    rw [hargs.depth hfits.left] at hfunction
    have hgrows := (a.emitAll code).deepest_le_emitAll [.push index]
    have hcall :=
      ((a.emitAll code).emitAll [.push index]).deepest_le_emitAll [.junction .invoke args]
    rw [need_call hasked, emitAll_append]
    refine Nat.le_trans ?_ (show _ ≤ ((a.emitAll code).emitAll [.push index, _]).deepest from hcall)
    omega
  | boolean | identifier | number | string => exact hone

theorem CodesAll.need_le {nodes : List Node} {code : List Instruction} {a : Assembler}
    (h : CodesAll quantityAsked? p nodes code) (hfits : a.Fits code) :
    a.depth + needAll quantityAsked? nodes ≤ (a.emitAll code).deepest := by
  cases h with
  | nil => exact hfits.depth
  | @cons node rest code more hnode hrest =>
    have hfirst := Codes.need_le hnode hfits.left
    have hlater := CodesAll.need_le hrest hfits.right
    rw [hnode.depth hfits.left] at hlater
    have hgrows := (a.emitAll code).deepest_le_emitAll more
    rw [needAll, emitAll_append]
    omega

end

end Node

/-! ## What is needed is accounted for -/

namespace Assembler

/-- Code leaves a number of operands on the stack, and needs room for another number of them. -/
structure Accounts (a : Assembler) (code : List Instruction) (left room : Nat) : Prop where
  depth : (a.emitAll code).depth = a.depth + left
  deepest : (a.emitAll code).deepest = max a.deepest (a.depth + room)

variable {a : Assembler} {code more : List Instruction} {left left' room room' : Nat}

theorem Accounts.append (h : a.Accounts code left room)
    (h' : (a.emitAll code).Accounts more left' room') :
    a.Accounts (code ++ more) (left + left') (max room (left + room')) where
  depth := by
    rw [emitAll_append, h'.depth, h.depth, Nat.add_assoc]
  deepest := by
    rw [emitAll_append, h'.deepest, h.deepest, h.depth]
    omega

/-- An instruction that takes all that code has left, and leaves one operand. -/
theorem Accounts.emit {i : Instruction} (h : a.Accounts code i.pops room) (hi : i.WellFormed)
    (hpushes : i.pushes = 1) (hpops : a.depth + i.pops ≤ largestCount) :
    a.Accounts (code ++ [i]) 1 (max room 1) := by
  obtain ⟨hdepth, hdeepest⟩ := emit_eq (a := a.emitAll code) hi
    (h.depth ▸ Nat.le_add_left i.pops a.depth) (h.depth ▸ hpops)
  rw [h.depth, hpushes, Nat.add_sub_cancel] at hdepth hdeepest
  constructor
  · rw [emitAll_append, emitAll_singleton, hdepth]
  · rw [emitAll_append, emitAll_singleton, hdeepest, h.deepest]
    omega

/-- Before any instruction, nothing is left and no room is needed. -/
theorem Accounts.nil (h : a.depth ≤ a.deepest) : a.Accounts [] 0 0 :=
  ⟨rfl, (Nat.max_eq_left h).symm⟩

/-- An instruction that takes nothing, and leaves one operand. -/
theorem Accounts.single (h : a.depth ≤ a.deepest) {i : Instruction} (hi : i.WellFormed)
    (hpops : i.pops = 0) (hpushes : i.pushes = 1) (hroom : a.depth + 1 ≤ largestCount) :
    a.Accounts [i] 1 1 := by
  have hnil : a.Accounts [] i.pops 0 := hpops ▸ Accounts.nil h
  exact hnil.emit hi hpushes (by omega)

end Assembler

namespace Node

open Assembler (Accounts largestCount depth_le_emitAll)
open Instruction (pops_junction)

variable {quantityAsked? : Node → List Node → Option (SymbolId × UInt8)} {p : ObjectPool}

/-- A junction leaves one operand in the place of those of its items. -/
theorem junction_accounts {op : Opcode} (hop : op = .needAll ∨ op = .needAny) {items : List Node}
    {code : List Instruction} {a : Assembler} (hlength : items.length < 65536)
    (hroom : a.depth + max 1 (needAll quantityAsked? items) ≤ largestCount)
    (hitems : a.Accounts code items.length (needAll quantityAsked? items)) :
    a.Accounts (code ++ [Instruction.junction op items]) 1
      (max 1 (needAll quantityAsked? items)) := by
  have hpops : (Instruction.junction op items).pops = items.length := (pops_junction hlength).1 hop
  have hcount := length_le_needAll quantityAsked? items
  rw [Nat.max_comm 1]
  refine .emit (hpops ▸ hitems) ?_ ?_ (by omega) <;> obtain rfl | rfl := hop <;> rfl

mutual

/-- The code of a node leaves one operand, and needs the room that the node asks for. -/
theorem Codes.accounts {node : Node} {code : List Instruction} {a : Assembler}
    (ha : a.depth ≤ a.deepest) :
    node.Codes quantityAsked? p code → a.depth + node.need quantityAsked? ≤ largestCount →
      a.Accounts code 1 (node.need quantityAsked?)
  | .anyOf hlength hitems, hroom => by
    rw [need] at hroom ⊢
    exact junction_accounts (.inr rfl) hlength hroom (CodesAll.accounts ha hitems (by omega))
  | .every hlength hitems, hroom => by
    rw [need] at hroom ⊢
    exact junction_accounts (.inl rfl) hlength hroom (CodesAll.accounts ha hitems (by omega))
  | .boolean value, hroom => by
    cases value <;> exact .single ha rfl rfl rfl hroom
  | @Codes.compare _ _ op lhs rhs first second hrhs hlhs, hroom => by
    rw [need] at hroom ⊢
    have hleft := one_le_need quantityAsked? lhs
    have hfirst := Codes.accounts ha hrhs (by omega)
    have hsecond := Codes.accounts (depth_le_emitAll ha first) hlhs (by rw [hfirst.depth]; omega)
    have hpops : (⟨Drafting.comparisonOpcode op, .bare⟩ : Instruction).pops = 1 + 1 := by
      cases op <;> rfl
    have hboth := Accounts.emit (hpops ▸ hfirst.append hsecond) (by cases op <;> rfl)
      (by cases op <;> rfl) (by rw [hpops]; omega)
    rwa [List.append_assoc, Nat.add_comm 1, Nat.max_eq_left (by omega)] at hboth
  | .identifier _, hroom => .single ha rfl rfl rfl hroom
  | @Codes.invert _ _ inner code hinner, hroom => by
    rw [need] at hroom ⊢
    have hleft := one_le_need quantityAsked? inner
    have hbelow := Accounts.emit (i := ⟨.invert, .bare⟩) (Codes.accounts ha hinner hroom) rfl rfl
      (Nat.le_trans (Nat.add_le_add_left hleft _) hroom)
    rwa [Nat.max_eq_left hleft] at hbelow
  | @Codes.asked _ _ _ _ _ _ index hasked _, hroom => by
    rw [need_asked hasked] at hroom ⊢
    have hpush : a.Accounts [.push index] 1 1 := .single ha rfl rfl rfl hroom
    exact hpush.emit (i := ⟨.checkQuantity, .wordByte _ _⟩) rfl rfl hroom
  | .bare hasked _ _, hroom => by
    rw [need_call hasked] at hroom ⊢
    exact .single ha rfl rfl rfl hroom
  | @Codes.invoke _ _ _ args code index hasked _ hlength hargs hpointer, hroom => by
    rw [need_call hasked] at hroom ⊢
    have hpops : (Instruction.junction .invoke args).pops = args.length + 1 :=
      (pops_junction hlength).2 rfl
    have hall := CodesAll.accounts ha hargs (by omega)
    have hfunction := hall.append (.single (i := .push index) (depth_le_emitAll ha code) rfl rfl rfl
      (by rw [hall.depth]; omega))
    rw [← hpops] at hfunction
    have hcall := hfunction.emit rfl rfl (by omega)
    rwa [List.append_assoc, hpops, Nat.max_eq_left (by omega)] at hcall
  | .number _ _, hroom => .single ha rfl rfl rfl hroom
  | .string _, hroom => .single ha rfl rfl rfl hroom

theorem CodesAll.accounts {nodes : List Node} {code : List Instruction} {a : Assembler}
    (ha : a.depth ≤ a.deepest) :
    CodesAll quantityAsked? p nodes code → a.depth + needAll quantityAsked? nodes ≤ largestCount →
      a.Accounts code nodes.length (needAll quantityAsked? nodes)
  | .nil, _ => .nil ha
  | @CodesAll.cons _ _ node rest code more hnode hrest, hroom => by
    rw [needAll] at hroom ⊢
    have hfirst := Codes.accounts ha hnode (by omega)
    have hlater := CodesAll.accounts (depth_le_emitAll ha code) hrest (by rw [hfirst.depth]; omega)
    have hboth := hfirst.append hlater
    rwa [List.length_cons, Nat.add_comm rest.length, Nat.add_comm (needAll quantityAsked? rest)]

end

/-- Compiled code says how much room its node asks for, as long as the assembler can count it. -/
theorem maxStack_eq_need {node : Node} {symbols : SymbolTable} {fast : Bool}
    {pool pool' : ObjectPool} {code : Code} (hp : pool.Sound)
    (h : node.compile symbols (FastOps.enabled fast) pool = (.ok code, pool'))
    (hroom : code.maxStack.toNat ≤ stackLimit ∨
      node.need (symbols.quantityAsked? fast) ≤ largestCount) :
    code.maxStack.toNat = node.need (symbols.quantityAsked? fast) := by
  obtain ⟨-, instructions, hcode, -, hstack⟩ := Node.compile_eq_ok hp h
  rw [hstack, Assembler.toNat_deepest] at hroom ⊢
  have hcountable : node.need (symbols.quantityAsked? fast) ≤ largestCount := by
    obtain hlimit | hcountable := hroom
    · have hneed := hcode.need_le (a := .empty) ⟨Nat.le_refl 0, hlimit⟩
      have hlimits := Assembler.stackLimit_le
      rw [show Assembler.empty.depth = 0 from rfl] at hneed
      omega
    · exact hcountable
  have haccounts := hcode.accounts (a := .empty) (Nat.le_refl 0) (Nat.zero_add _ ▸ hcountable)
  rw [haccounts.deepest]
  exact (Nat.zero_max _).trans (Nat.zero_add _)

end Node

end Passage
