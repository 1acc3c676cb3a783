import Passage.Machine.Fault
import Passage.Proofs.Coding

/-!
# The stack that code needs

The assembler accounts for the operand stack while it writes. `Assembler.Fits` says that
code can be written without the account exceeding what the machine's stack holds. The
account of code that fits is right: the code of one node adds one operand
(`Node.Codes.depth`), and the code of several adds as many as there are nodes.
-/

namespace Passage

namespace Assembler

/-- Writing the code never accounts for more than the stack holds. -/
structure Fits (a : Assembler) (code : List Instruction) : Prop where
  depth : a.depth ≤ a.deepest
  deepest : (a.emitAll code).deepest ≤ stackLimit

namespace Fits

variable {a : Assembler} {code more : List Instruction}

theorem left (h : a.Fits (code ++ more)) : a.Fits code := by
  refine ⟨h.depth, Nat.le_trans (deepest_le_emitAll _ more) ?_⟩
  rw [← emitAll_append]
  exact h.deepest

theorem right (h : a.Fits (code ++ more)) : (a.emitAll code).Fits more := by
  refine ⟨depth_le_emitAll h.depth code, ?_⟩
  rw [← emitAll_append]
  exact h.deepest

/-- The account before the code is within the limit. -/
theorem before (h : a.Fits code) : a.depth ≤ stackLimit :=
  Nat.le_trans h.depth (Nat.le_trans (deepest_le_emitAll a code) h.deepest)

/-- The account behind the code is within the limit. -/
theorem behind (h : a.Fits code) : (a.emitAll code).depth ≤ stackLimit :=
  Nat.le_trans (depth_le_emitAll h.depth code) h.deepest

/-- One instruction moves the account by what it says. -/
theorem depth_single {i : Instruction} {delta : Int} {depth : Nat} (h : a.Fits [i])
    (ha : account i.op i.operands = some delta) (hd : (a.depth : Int) + delta = depth)
    (hdelta : delta ≤ 1) : (a.emitAll [i]).depth = depth := by
  have hbefore := h.before
  refine depth_emit ha hd ?_
  unfold stackLimit at hbefore
  unfold deepestCount
  omega

end Fits

/-- A count of operands that are on the stack is accounted for as it is. -/
theorem countOf_ofNat {count : Nat} (h : count ≤ stackLimit) :
    countOf (UInt16.ofNat count) = count := by
  unfold stackLimit at h
  rw [countOf, UInt16.toNat_ofNat', Nat.mod_eq_of_lt (by omega)]
  omega

end Assembler

namespace Node

open Assembler (Fits)

variable {quantityAsked? : Node → List Node → Option (SymbolId × UInt8)} {p : ObjectPool}

/-- A junction takes its operands and gives one. -/
theorem junction_depth {op : Opcode} (hop : op = .needAny ∨ op = .needAll) {items : List Node}
    {code : List Instruction} {a : Assembler}
    (hfits : a.Fits (code ++ [Instruction.junction op items]))
    (hitems : (a.emitAll code).depth = a.depth + items.length) :
    (a.emitAll (code ++ [Instruction.junction op items])).depth = a.depth + 1 := by
  have hlength : items.length ≤ stackLimit := by
    have hbehind := hfits.left.behind
    omega
  have haccount : Assembler.account op (.word (UInt16.ofNat items.length)) =
      some (1 - (items.length : Int)) := by
    obtain rfl | rfl := hop <;> rw [Assembler.account, Assembler.countOf_ofNat hlength]
  rw [Assembler.emitAll_append]
  refine hfits.right.depth_single haccount ?_ ?_ <;> omega

mutual

/-- The code of a node adds one operand. -/
theorem Codes.depth {node : Node} {code : List Instruction} {a : Assembler} :
    node.Codes quantityAsked? p code → a.Fits code → (a.emitAll code).depth = a.depth + 1
  | .anyOf _ hitems, hfits => junction_depth (.inl rfl) hfits (CodesAll.depth hitems hfits.left)
  | .every _ hitems, hfits => junction_depth (.inr rfl) hfits (CodesAll.depth hitems hfits.left)
  | .boolean value, hfits => by
    cases value <;> exact hfits.depth_single rfl (by omega) (by omega)
  | .compare hrhs hlhs, hfits => by
    have hfirst := Codes.depth hrhs hfits.left
    have hsecond := Codes.depth hlhs hfits.right.left
    rw [Assembler.emitAll_append, Assembler.emitAll_append]
    next op _ _ _ _ =>
    cases op <;> refine hfits.right.right.depth_single rfl ?_ (by omega) <;> omega
  | .identifier _, hfits => hfits.depth_single rfl (by omega) (by omega)
  | .invert hinner, hfits => by
    have hdepth := Codes.depth hinner hfits.left
    rw [Assembler.emitAll_append]
    exact hfits.right.depth_single rfl (by omega) (by omega)
  | .asked _ _, hfits => by
    next index _ _ =>
    have hsplit : a.Fits ([.push index] ++ [_]) := hfits
    have hpush : (a.emitAll [.push index]).depth = a.depth + 1 :=
      hsplit.left.depth_single rfl (by omega) (by omega)
    exact hsplit.right.depth_single rfl (by omega) (by omega)
  | .bare _ _ _, hfits => hfits.depth_single rfl (by omega) (by omega)
  | .invoke _ _ _ hargs _, hfits => by
    next args _ index _ _ _ _ =>
    have hsplit : a.Fits (_ ++ ([.push index] ++ [.junction .invoke args])) := hfits
    have hdepth := CodesAll.depth hargs hfits.left
    have hpush : ((a.emitAll _).emitAll [.push index]).depth = a.depth + args.length + 1 :=
      hsplit.right.left.depth_single rfl (by omega) (by omega)
    have hlength : args.length ≤ stackLimit := by
      have hbehind := hfits.left.behind
      omega
    rw [Assembler.emitAll_append]
    have haccount : Assembler.account .invoke (.word (UInt16.ofNat args.length)) =
        some (-(args.length : Int)) := by
      rw [Assembler.account, Assembler.countOf_ofNat hlength]
    refine hsplit.right.right.depth_single haccount ?_ ?_ <;> omega
  | .number _ _, hfits => hfits.depth_single rfl (by omega) (by omega)
  | .string _, hfits => hfits.depth_single rfl (by omega) (by omega)

/-- The code of nodes adds as many operands as there are nodes. -/
theorem CodesAll.depth {nodes : List Node} {code : List Instruction} {a : Assembler} :
    CodesAll quantityAsked? p nodes code → a.Fits code →
      (a.emitAll code).depth = a.depth + nodes.length
  | .nil, _ => rfl
  | .cons hnode hrest, hfits => by
    have hfirst := Codes.depth hnode hfits.left
    have hsecond := CodesAll.depth hrest hfits.right
    rw [Assembler.emitAll_append, List.length_cons]
    omega

end

end Node

end Passage
