import Passage.Code.Generate
import Passage.Proofs.Junctions

/-!
# What code generation keeps up

A property of steps that is closed under sequence, and that the steps have which write single
instructions and enter constants, is one of the generation of all code: `Drafting.Upkeep` lists
what is asked of the property, and `Drafting.Upkeep.visit` walks the node. Of symbols it may be
asked less: of those in the node only if they are known, and of those that are called only if
they were found.
-/

namespace Passage

/-- All symbols in the node are known. -/
def Node.Mentions (Known : SymbolId → Prop) (node : Node) : Prop :=
  node.Each fun part => ∀ id, part = .identifier id → Known id

theorem Node.mentions_of_forall {Known : SymbolId → Prop} (h : ∀ id, Known id) (node : Node) :
    node.Mentions Known :=
  .of_forall (fun _ id _ => h id) node

/-- A property of steps that passes from the parts of code generation to the whole. -/
structure Drafting.Upkeep (P : {α : Type} → Drafting α → Prop) (symbols : SymbolTable)
    (Known Called : SymbolId → Prop) : Prop where
  pure : ∀ {α : Type} (a : α), P (pure a : Drafting α)
  bind : ∀ {α β : Type} {x : Drafting α} {f : α → Drafting β}, P x → (∀ a, P (f a)) → P (x >>= f)
  emit : ∀ op operands, P (emit op operands)
  count : ∀ nodes, P (operandCount nodes)
  number : ∀ value, P (pushConstant (·.internNumber value))
  text : ∀ value, P (pushConstant (·.internString value))
  identifier : ∀ {id}, Known id → P (pushIdentifier symbols id)
  pointer : ∀ {id}, Called id → P (pointerOf symbols id)
  callee : ∀ {α : Type} {target : Node} {count : Nat} {f : SymbolId × String → Drafting α},
    target.Mentions Known → (∀ callee, Called callee.1 → P (f callee)) →
      P (calleeName symbols target count >>= f)

/-- The fast operations of an environment. -/
def FastOps.enabled (fast : Bool) : FastOps := if fast then .standard else []

/-- Fast operations that have the property if the writing of arguments has it. -/
def FastOps.Uphold (fastOps : FastOps) (P : {α : Type} → Drafting α → Prop)
    (symbols : SymbolTable) (Known : SymbolId → Prop) : Prop :=
  ∀ name fast, fastOps.lookup name = some fast → ∀ {args : List Node} {writeArgs : Drafting Unit},
    (∀ arg ∈ args, arg.Mentions Known) → P writeArgs → P (fast symbols args writeArgs)

namespace Drafting.Upkeep

variable {P : {α : Type} → Drafting α → Prop} {symbols : SymbolTable}
  {Known Called : SymbolId → Prop}

theorem has (h : Upkeep P symbols Known Called) {args : List Node}
    (hargs : ∀ arg ∈ args, arg.Mentions Known) (writeArgs : Drafting Unit) :
    P (FastOps.has symbols args writeArgs) := by
  unfold FastOps.has
  split
  · next item quantity =>
    have hitem : Known item := (hargs _ List.mem_cons_self).self item rfl
    split
    · split
      · exact h.bind (h.identifier hitem) fun _ => h.bind (h.emit _ _) fun _ => h.pure _
      · exact h.pure _
    · exact h.pure _
  · exact h.pure _

theorem standard (h : Upkeep P symbols Known Called) :
    FastOps.standard.Uphold P symbols Known := by
  intro name fast hfast args writeArgs hargs _
  rw [FastOps.standard, List.lookup_cons] at hfast
  split at hfast
  · cases hfast
    exact h.has hargs writeArgs
  · exact absurd hfast (by simp)

theorem enabled (h : Upkeep P symbols Known Called) (fast : Bool) :
    (FastOps.enabled fast).Uphold P symbols Known := by
  cases fast with
  | false => exact fun _ _ hfast => absurd hfast (by simp [FastOps.enabled])
  | true => exact h.standard

mutual

/-- The writing of a node has the property. -/
theorem visit (h : Upkeep P symbols Known Called) {fastOps : FastOps}
    (hf : fastOps.Uphold P symbols Known) :
    (node : Node) → node.Mentions Known → P (visit symbols fastOps node)
  | .anyOf items, hnode => by
    cases hnode with | anyOf _ hitems =>
    rw [Drafting.visit]
    exact h.bind (h.count items) fun _ => h.bind (h.visitAll hf items hitems) fun _ => h.emit _ _
  | .every items, hnode => by
    cases hnode with | every _ hitems =>
    rw [Drafting.visit]
    exact h.bind (h.count items) fun _ => h.bind (h.visitAll hf items hitems) fun _ => h.emit _ _
  | .boolean value, _ => by
    rw [Drafting.visit]
    exact h.emit _ _
  | .compare op lhs rhs, hnode => by
    cases hnode with | compare _ hlhs hrhs =>
    rw [Drafting.visit]
    exact h.bind (h.visit hf rhs hrhs) fun _ => h.bind (h.visit hf lhs hlhs) fun _ => h.emit _ _
  | .identifier id, hnode => by
    rw [Drafting.visit]
    exact h.bind (h.identifier (hnode.self id rfl)) fun _ => h.pure _
  | .invert inner, hnode => by
    cases hnode with | invert _ hinner =>
    rw [Drafting.visit]
    exact h.bind (h.visit hf inner hinner) fun _ => h.emit _ _
  | .invoke target args, hnode => by
    cases hnode with | invoke _ ht ha =>
    have hargs := h.visitAll hf args ha
    have htarget := h.visit hf target ht
    rw [Drafting.visit]
    refine h.callee ht fun callee hcallee => ?_
    -- the call as it is written where no fast operation wrote it
    have hcall : ∀ written : Bool, P (if written then Pure.pure () else
        if args.isEmpty then do
          let index ← pointerOf symbols callee.1
          Drafting.emit .invokeBare (.word index)
        else do
          let count ← operandCount args
          Drafting.visitAll symbols fastOps args
          Drafting.visit symbols fastOps target
          Drafting.emit .invoke (.word count)) := by
      intro written
      split
      · exact h.pure _
      · split
        · exact h.bind (h.pointer hcallee) fun _ => h.emit _ _
        · exact h.bind (h.count args) fun _ =>
            h.bind hargs fun _ => h.bind htarget fun _ => h.emit _ _
    dsimp only
    split
    · next fast hfast => exact h.bind (hf callee.2 fast hfast ha hargs) hcall
    · exact hcall false
  | .number value, _ => by
    rw [Drafting.visit]
    exact h.number value
  | .string value, _ => by
    rw [Drafting.visit]
    exact h.text value

theorem visitAll (h : Upkeep P symbols Known Called) {fastOps : FastOps}
    (hf : fastOps.Uphold P symbols Known) : (nodes : List Node) →
    (∀ node ∈ nodes, node.Mentions Known) → P (visitAll symbols fastOps nodes)
  | [], _ => by
    rw [Drafting.visitAll]
    exact h.pure _
  | node :: rest, hnodes => by
    obtain ⟨hnode, hrest⟩ := List.forall_mem_cons.mp hnodes
    rw [Drafting.visitAll]
    exact h.bind (h.visit hf node hnode) fun _ => h.visitAll hf rest hrest

end

end Drafting.Upkeep

end Passage
