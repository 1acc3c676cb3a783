import Passage.Proofs.Drafting
import Passage.Proofs.Evaluation
import Passage.Proofs.Tapes

/-!
# The code of a node

`Node.Codes` relates a node to its instructions, whose constants are entries of a
pool. The relation looks at nothing but the pool, the symbols, and whether calls of
`has` may be written as quantity checks; it holds on in every pool that goes on
(`Codes.continued`). `Drafting.visit_wrote` shows that code generation writes just these
instructions.
-/

namespace Passage

namespace Instruction

/-- The instruction that pushes an entry of the pool. -/
def push (index : ObjectIndex) : Instruction := ⟨.pushConst, .word (UInt16.ofNat index)⟩

/-- The instruction of a junction of nodes. -/
def junction (op : Opcode) (nodes : List Node) : Instruction :=
  ⟨op, .word (UInt16.ofNat nodes.length)⟩

end Instruction

/-- The function that is called with a number of arguments is defined. -/
def ObjectPool.Accepts (p : ObjectPool) (callee : SymbolId) (count : Nat) : Prop :=
  ∃ signature, p.definitions.lookup callee = some signature ∧ signature.accepts count = true

theorem ObjectPool.Accepts.continued {p p' : ObjectPool} (hc : p.Continues p') {callee : SymbolId}
    {count : Nat} (h : p.Accepts callee count) : p'.Accepts callee count := by
  obtain ⟨signature, hlookup, haccepts⟩ := h
  exact ⟨signature, hc.lookup hlookup, haccepts⟩

section

variable (quantityAsked? : Node → List Node → Option (SymbolId × UInt8)) (p : ObjectPool)

mutual

/-- The node is coded by the instructions. -/
inductive Node.Codes : Node → List Instruction → Prop
  | anyOf {items : List Node} {code : List Instruction} :
      items.length < 65536 → Node.CodesAll items code →
      Node.Codes (.anyOf items) (code ++ [.junction .needAny items])
  | every {items : List Node} {code : List Instruction} :
      items.length < 65536 → Node.CodesAll items code →
      Node.Codes (.every items) (code ++ [.junction .needAll items])
  | boolean (value : Bool) :
      Node.Codes (.boolean value) [⟨if value then .pushTrue else .pushFalse, .bare⟩]
  | compare {op : Comparison} {lhs rhs : Node} {first second : List Instruction} :
      Node.Codes rhs first → Node.Codes lhs second →
      Node.Codes (.compare op lhs rhs)
        (first ++ (second ++ [⟨Drafting.comparisonOpcode op, .bare⟩]))
  | identifier {id : SymbolId} {index : ObjectIndex} :
      p.pointers[id]? = some index → Node.Codes (.identifier id) [.push index]
  | invert {inner : Node} {code : List Instruction} :
      Node.Codes inner code → Node.Codes (.invert inner) (code ++ [⟨.invert, .bare⟩])
  | asked {target : Node} {args : List Node} {item : SymbolId} {quantity : UInt8}
      {index : ObjectIndex} :
      quantityAsked? target args = some (item, quantity) → p.pointers[item]? = some index →
      Node.Codes (.invoke target args)
        [.push index, ⟨.checkQuantity, .wordByte (UInt16.ofNat index) quantity⟩]
  | bare {callee : SymbolId} {index : ObjectIndex} :
      quantityAsked? (.identifier callee) [] = none → p.Accepts callee 0 →
      p.pointers[callee]? = some index →
      Node.Codes (.invoke (.identifier callee) []) [⟨.invokeBare, .word (UInt16.ofNat index)⟩]
  | invoke {callee : SymbolId} {args : List Node} {code : List Instruction}
      {index : ObjectIndex} :
      quantityAsked? (.identifier callee) args = none → p.Accepts callee args.length →
      args.length < 65536 → Node.CodesAll args code → p.pointers[callee]? = some index →
      Node.Codes (.invoke (.identifier callee) args)
        (code ++ [.push index, .junction .invoke args])
  | number {value : Number} {o : Object} {index : ObjectIndex} :
      Object.ofNumber value = .ok o → p.get? index = some o →
      Node.Codes (.number value) [.push index]
  | string {value : String} {index : ObjectIndex} :
      p.texts[value]? = some index → Node.Codes (.string value) [.push index]

/-- The nodes are coded by the instructions, one after the other. -/
inductive Node.CodesAll : List Node → List Instruction → Prop
  | nil : Node.CodesAll [] []
  | cons {node : Node} {rest : List Node} {code more : List Instruction} :
      Node.Codes node code → Node.CodesAll rest more → Node.CodesAll (node :: rest) (code ++ more)

end

end

namespace Node

variable {quantityAsked? : Node → List Node → Option (SymbolId × UInt8)} {p p' : ObjectPool}

mutual

/-- What codes a node, codes it in every pool that goes on from there. -/
theorem Codes.continued (hc : p.Continues p') {node : Node} {code : List Instruction} :
    node.Codes quantityAsked? p code → node.Codes quantityAsked? p' code
  | .anyOf hlength hitems => .anyOf hlength (CodesAll.continued hc hitems)
  | .every hlength hitems => .every hlength (CodesAll.continued hc hitems)
  | .boolean value => .boolean value
  | .compare hrhs hlhs => .compare (Codes.continued hc hrhs) (Codes.continued hc hlhs)
  | .identifier hpointer => .identifier (hc.pointers hpointer)
  | .invert hinner => .invert (Codes.continued hc hinner)
  | .asked hasked hpointer => .asked hasked (hc.pointers hpointer)
  | .bare hasked haccepts hpointer =>
    .bare hasked (haccepts.continued hc) (hc.pointers hpointer)
  | .invoke hasked haccepts hlength hargs hpointer =>
    .invoke hasked (haccepts.continued hc) hlength (CodesAll.continued hc hargs)
      (hc.pointers hpointer)
  | .number hvalue hobject => .number hvalue (hc.values hobject)
  | .string htext => .string (hc.texts htext)

theorem CodesAll.continued (hc : p.Continues p') {nodes : List Node} {code : List Instruction} :
    CodesAll quantityAsked? p nodes code → CodesAll quantityAsked? p' nodes code
  | .nil => .nil
  | .cons hnode hrest => .cons (Codes.continued hc hnode) (CodesAll.continued hc hrest)

end

mutual

/-- The instructions that code a node have the operands that their opcodes take. -/
theorem Codes.wellFormed {node : Node} {code : List Instruction} :
    node.Codes quantityAsked? p code → ∀ i ∈ code, i.WellFormed
  | .anyOf _ hitems | .every _ hitems => by
    simp only [List.mem_append, List.mem_singleton]
    rintro i (hi | rfl)
    · exact CodesAll.wellFormed hitems i hi
    · rfl
  | .boolean value => by
    simp only [List.mem_singleton]
    rintro i rfl
    cases value <;> rfl
  | @Codes.compare _ _ op _ _ _ _ hrhs hlhs => by
    simp only [List.mem_append, List.mem_singleton]
    rintro i (hi | hi | rfl)
    · exact Codes.wellFormed hrhs i hi
    · exact Codes.wellFormed hlhs i hi
    · cases op <;> rfl
  | .invert hinner => by
    simp only [List.mem_append, List.mem_singleton]
    rintro i (hi | rfl)
    · exact Codes.wellFormed hinner i hi
    · rfl
  | .asked _ _ => by
    simp only [List.mem_cons, List.not_mem_nil, or_false]
    rintro i (rfl | rfl) <;> rfl
  | .invoke _ _ _ hargs _ => by
    simp only [List.mem_append, List.mem_cons, List.not_mem_nil, or_false]
    rintro i (hi | rfl | rfl)
    · exact CodesAll.wellFormed hargs i hi
    · rfl
    · rfl
  | .identifier _ | .bare _ _ _ | .number _ _ | .string _ => by
    simp only [List.mem_singleton]
    rintro i rfl
    rfl

theorem CodesAll.wellFormed {nodes : List Node} {code : List Instruction} :
    CodesAll quantityAsked? p nodes code → ∀ i ∈ code, i.WellFormed
  | .nil => nofun
  | .cons hnode hrest => by
    simp only [List.mem_append]
    rintro i (hi | hi)
    · exact Codes.wellFormed hnode i hi
    · exact CodesAll.wellFormed hrest i hi

end

end Node

/-! ## Code generation -/

namespace Drafting

variable {d d' : Draft}

theorem emit_apply (op : Opcode) (operands : Operands) (d : Draft) :
    emit op operands d = (.ok (), { d with assembler := d.assembler.emit op operands }) := rfl

/-- Pushing a constant enters it and writes one instruction. -/
theorem pushConstant_eq_ok {op : ObjectPool → Except PoolError ObjectIndex × ObjectPool}
    (h : pushConstant op d = (.ok (), d')) :
    ∃ index, op d.pool = (.ok index, d'.pool) ∧
      d'.assembler = d.assembler.emitAll [.push index] := by
  obtain ⟨word, d₁, hintern, h⟩ := bind_eq_ok h
  obtain ⟨pool, assembler, consts, names⟩ := d
  rcases hop : op pool with ⟨e | index, pool'⟩ <;> simp only [intern, hop] at hintern
  · exact absurd (congrArg Prod.fst hintern) (by simp)
  · cases hintern
    cases h
    exact ⟨index, rfl, rfl⟩

theorem operandCount_eq_ok {nodes : List Node} {count : UInt16}
    (h : operandCount nodes d = (.ok count, d')) :
    nodes.length < 65536 ∧ count = UInt16.ofNat nodes.length ∧ d' = d := by
  unfold operandCount at h
  by_cases hlength : nodes.length < 65536
  · rw [if_pos hlength] at h
    cases h
    exact ⟨hlength, rfl, rfl⟩
  · rw [if_neg hlength] at h
    exact absurd (congrArg Prod.fst h) (by simp [throw_apply])

theorem symbol_eq_ok {symbols : SymbolTable} {id : SymbolId} {s : Symbol}
    (h : symbol symbols id d = (.ok s, d')) : symbols.get? id = some s ∧ d' = d := by
  unfold symbol at h
  rcases hget : symbols.get? id with _ | known <;> rw [hget] at h
  · exact absurd (congrArg Prod.fst h) (by simp [throw_apply])
  · cases h
    exact ⟨rfl, rfl⟩

theorem pointerOf_eq_ok {symbols : SymbolTable} {id : SymbolId} {word : UInt16}
    (h : pointerOf symbols id d = (.ok word, d')) :
    ∃ index, d.pool.pointers[id]? = some index ∧ word = UInt16.ofNat index ∧
      d'.pool = d.pool ∧ d'.assembler = d.assembler := by
  obtain ⟨s, d₁, hsymbol, hrest⟩ := bind_eq_ok h
  obtain ⟨-, rfl⟩ := symbol_eq_ok hsymbol
  rw [bind_ok (get_apply _)] at hrest
  unfold ObjectPool.pointerFor at hrest
  rcases hpointer : d₁.pool.pointers[id]? with _ | index <;> rw [hpointer] at hrest
  · exact absurd (congrArg Prod.fst hrest) (by simp [throw_apply])
  · cases hrest
    exact ⟨index, rfl, rfl, rfl, rfl⟩

theorem pushIdentifier_eq_ok {symbols : SymbolTable} {id : SymbolId} {word : UInt16}
    (h : pushIdentifier symbols id d = (.ok word, d')) :
    ∃ index, d.pool.pointers[id]? = some index ∧ word = UInt16.ofNat index ∧
      d'.pool = d.pool ∧ d'.assembler = d.assembler.emitAll [.push index] := by
  obtain ⟨s, d₁, hsymbol, hrest⟩ := bind_eq_ok h
  obtain ⟨-, rfl⟩ := symbol_eq_ok hsymbol
  split at hrest
  · obtain ⟨word', d₂, hpointer, hemit⟩ := bind_eq_ok hrest
    obtain ⟨index, hindex, rfl, hpool, hassembler⟩ := pointerOf_eq_ok hpointer
    cases hemit
    refine ⟨index, hindex, rfl, hpool, ?_⟩
    rw [← hassembler]
    rfl
  · exact absurd (congrArg Prod.fst hrest) (by simp [throw_apply])

theorem calleeName_eq_ok {symbols : SymbolTable} {target : Node} {count : Nat}
    {callee : SymbolId} {name : String}
    (h : calleeName symbols target count d = (.ok (callee, name), d')) :
    target = .identifier callee ∧ symbols.nameOf? callee = some name ∧
      d.pool.Accepts callee count ∧ d' = d := by
  unfold calleeName at h
  rcases ht : target.identifier? with _ | id <;> rw [ht] at h
  · exact absurd (congrArg Prod.fst h) (by simp [throw_apply])
  · obtain ⟨s, d₁, hsymbol, hrest⟩ := bind_eq_ok h
    obtain ⟨hget, rfl⟩ := symbol_eq_ok hsymbol
    rw [bind_ok (get_apply _)] at hrest
    unfold ObjectPool.definitionOf at hrest
    rcases hd : d₁.pool.definitions.lookup id with _ | signature <;> rw [hd] at hrest
    · exact absurd (congrArg Prod.fst hrest) (by simp [throw_apply])
    · dsimp only at hrest
      split at hrest
      · next haccepts =>
        cases hrest
        have htarget : target = .identifier callee := by
          cases target <;> simp [Node.identifier?] at ht
          rw [ht]
        refine ⟨htarget, ?_, ⟨signature, hd, haccepts⟩, rfl⟩
        rw [SymbolTable.nameOf?, hget]
        rfl
      · exact absurd (congrArg Prod.fst hrest) (by simp [throw_apply])

end Drafting

/-- A call of `has` is written as a quantity check, or left alone. -/
theorem FastOps.has_eq_ok {symbols : SymbolTable} {fast : Bool} {callee : SymbolId}
    {args : List Node}
    {writeArgs : Drafting Unit} {written : Bool} {d d' : Draft}
    (hfast : fast = true) (hname : symbols.nameOf? callee = some Lowering.hasName)
    (h : FastOps.has symbols args writeArgs d = (.ok written, d')) :
    (written = false ∧ d' = d ∧
      symbols.quantityAsked? fast (.identifier callee) args = none) ∨
    (written = true ∧ ∃ item quantity index,
      symbols.quantityAsked? fast (.identifier callee) args = some (item, quantity) ∧
      d.pool.pointers[item]? = some index ∧ d'.pool = d.pool ∧
      d'.assembler = d.assembler.emitAll
        [.push index, ⟨.checkQuantity, .wordByte (UInt16.ofNat index) quantity⟩]) := by
  subst hfast
  unfold FastOps.has at h
  split at h
  · next item quantity =>
    rcases hbyte : quantity.byte? with _ | count <;> rw [hbyte] at h
    · cases h
      exact .inl ⟨rfl, rfl, by simp [SymbolTable.quantityAsked?, hbyte]⟩
    · by_cases hkind : symbols.kindOf? item = some .token
      · simp only [if_pos hkind] at h
        obtain ⟨word, d₁, hpush, hrest⟩ := bind_eq_ok h
        obtain ⟨index, hindex, rfl, hpool, hassembler⟩ := Drafting.pushIdentifier_eq_ok hpush
        cases hrest
        refine .inr ⟨rfl, item, count, index, ?_, hindex, hpool, ?_⟩
        · simp [SymbolTable.quantityAsked?, hbyte, hkind, hname]
        · dsimp only
          rw [hassembler]
          rfl
      · simp only [if_neg hkind] at h
        cases h
        exact .inl ⟨rfl, rfl, by simp [SymbolTable.quantityAsked?, hkind]⟩
  · next hshape =>
    cases h
    refine .inl ⟨rfl, rfl, ?_⟩
    unfold SymbolTable.quantityAsked?
    split
    · next hargs => exact absurd rfl (hshape _ _)
    · rfl

theorem FastOps.lookup_enabled {fast : Bool} {name : String} {fastOp : FastOp}
    (h : (FastOps.enabled fast).lookup name = some fastOp) :
    fast = true ∧ name = Lowering.hasName ∧ fastOp = FastOps.has := by
  cases fast with
  | false => exact absurd h (by simp [FastOps.enabled])
  | true =>
    rw [FastOps.enabled, if_pos rfl, FastOps.standard, List.lookup_cons] at h
    split at h
    · next heq => exact ⟨rfl, eq_of_beq heq, (Option.some.inj h).symm⟩
    · exact absurd h (by simp)

/-- A call is no quantity check if no fast operation is enabled for its function. -/
theorem FastOps.quantityAsked?_of_lookup_none {symbols : SymbolTable} {fast : Bool}
    {callee : SymbolId} {name : String} (hname : symbols.nameOf? callee = some name)
    (h : (FastOps.enabled fast).lookup name = none) (args : List Node) :
    symbols.quantityAsked? fast (.identifier callee) args = none := by
  unfold SymbolTable.quantityAsked?
  split
  · next htarget =>
    refine if_neg fun hasked => ?_
    obtain ⟨rfl, hhas, -⟩ := hasked
    obtain rfl := Node.identifier.inj htarget
    rw [Option.some.inj (hname.symm.trans hhas)] at h
    exact absurd h (by simp [FastOps.enabled, FastOps.standard])
  · rfl

namespace Drafting

open Node (Codes CodesAll)

/-- What code generation does where it succeeds: from a sound pool it writes the
instructions that code the node in the pool that it leaves. -/
structure Wrote (Coded : ObjectPool → List Instruction → Prop) (d d' : Draft) : Prop where
  grows : d.pool.Grows d'.pool
  coded : ∃ code, Coded d'.pool code ∧ d'.assembler = d.assembler.emitAll code

/-- More instructions behind those that were written. -/
theorem Wrote.emit {Coded Coded' : ObjectPool → List Instruction → Prop} {d d' : Draft}
    (h : Wrote Coded d d') (i : Instruction)
    (hcoded : ∀ {code}, Coded d'.pool code → Coded' d'.pool (code ++ [i])) :
    Wrote Coded' d { d' with assembler := d'.assembler.emit i.op i.operands } := by
  obtain ⟨code, hcode, hassembler⟩ := h.coded
  refine ⟨h.grows, code ++ [i], hcoded hcode, ?_⟩
  rw [Assembler.emitAll_append, ← hassembler]
  rfl

/-- Instructions behind instructions, whose pool has grown further. -/
theorem Wrote.append {Coded Coded' Coded'' : ObjectPool → List Instruction → Prop}
    {d d' d'' : Draft} (h : Wrote Coded d d') (h' : Wrote Coded' d' d'')
    (hcoded : ∀ {code more}, Coded d'.pool code → Coded' d''.pool more →
      Coded'' d''.pool (code ++ more)) : Wrote Coded'' d d'' := by
  obtain ⟨code, hcode, hassembler⟩ := h.coded
  obtain ⟨more, hmore, hassembler'⟩ := h'.coded
  refine ⟨h.grows.trans h'.grows, code ++ more, hcoded hcode hmore, ?_⟩
  rw [Assembler.emitAll_append, ← hassembler, hassembler']

/-- One instruction, which leaves the pool. -/
theorem Wrote.single {Coded : ObjectPool → List Instruction → Prop} {d d' : Draft}
    {code : List Instruction} (hcoded : Coded d.pool code) (hpool : d'.pool = d.pool)
    (hassembler : d'.assembler = d.assembler.emitAll code) : Wrote Coded d d' :=
  ⟨hpool ▸ .refl _, code, hpool ▸ hcoded, hassembler⟩

theorem Wrote.sound {Coded : ObjectPool → List Instruction → Prop} {d d' : Draft}
    (h : Wrote Coded d d') (hd : d.pool.Sound) : d'.pool.Sound :=
  h.grows.sound hd

/-- A constant is pushed from where it was entered. -/
theorem pushConstant_wrote {Coded : ObjectPool → List Instruction → Prop}
    {op : ObjectPool → Except PoolError ObjectIndex × ObjectPool} {d d' : Draft}
    (h : pushConstant op d = (.ok (), d')) (hstep : d.pool.Step (op d.pool).2)
    (hcoded : ∀ {index p}, op d.pool = (.ok index, p) → Coded p [.push index]) :
    Wrote Coded d d' := by
  obtain ⟨index, hop, hassembler⟩ := pushConstant_eq_ok h
  rw [hop] at hstep
  exact ⟨hstep.grows, _, hcoded hop, hassembler⟩

section

variable {symbols : SymbolTable} {fast : Bool}

theorem visit_identifier (symbols : SymbolTable) (fastOps : FastOps) (id : SymbolId) :
    visit symbols fastOps (.identifier id) = (do let _ ← pushIdentifier symbols id) := by
  rw [visit]

/-- A call that no fast operation wrote. -/
theorem call_wrote {callee : SymbolId} {args : List Node} {d d' : Draft}
    (hasked : symbols.quantityAsked? fast (.identifier callee) args = none)
    (haccepts : d.pool.Accepts callee args.length)
    (hargs : ∀ {d'}, visitAll symbols (FastOps.enabled fast) args d = (.ok (), d') →
      Wrote (CodesAll (symbols.quantityAsked? fast) · args) d d')
    (h : (if args.isEmpty then do
        let index ← pointerOf symbols callee
        emit .invokeBare (.word index)
      else do
        let count ← operandCount args
        visitAll symbols (FastOps.enabled fast) args
        visit symbols (FastOps.enabled fast) (.identifier callee)
        emit .invoke (.word count) : Drafting Unit) d = (.ok (), d')) :
    Wrote (Codes (symbols.quantityAsked? fast) · (.invoke (.identifier callee) args)) d d' := by
  cases args with
  | nil =>
    obtain ⟨word, d₁, hpointer, hemit⟩ := bind_eq_ok h
    obtain ⟨index, hindex, rfl, hpool, hassembler⟩ := pointerOf_eq_ok hpointer
    cases hemit
    refine .single (.bare hasked haccepts hindex) hpool ?_
    dsimp only
    rw [hassembler]
    rfl
  | cons arg rest =>
    obtain ⟨count, d₁, hcount, hrest⟩ := bind_eq_ok h
    obtain ⟨hlength, rfl, rfl⟩ := operandCount_eq_ok hcount
    obtain ⟨⟨⟩, d₂, hall, hrest⟩ := bind_eq_ok hrest
    obtain ⟨⟨⟩, d₃, hvisit, hemit⟩ := bind_eq_ok hrest
    rw [visit_identifier] at hvisit
    obtain ⟨word, d₄, hpush, hpure⟩ := bind_eq_ok hvisit
    obtain ⟨index, hindex, -, hpool, hassembler⟩ := pushIdentifier_eq_ok hpush
    cases hpure
    cases hemit
    have hwrote := hargs hall
    have hpushed : Wrote (fun p code => p.pointers[callee]? = some index ∧ code = [.push index])
        d₂ d₃ := .single ⟨hindex, rfl⟩ hpool hassembler
    have hboth : Wrote (fun p code => ∃ inner, CodesAll (symbols.quantityAsked? fast) p
        (arg :: rest) inner ∧ p.pointers[callee]? = some index ∧ code = inner ++ [.push index])
        d₁ d₃ :=
      hwrote.append hpushed fun hcode hmore =>
        ⟨_, hcode.continued hpushed.grows.continues, hmore.1, by rw [hmore.2]⟩
    refine hboth.emit (.junction .invoke (arg :: rest)) ?_
    rintro code ⟨inner, hinner, hpointer, rfl⟩
    have hdefinitions : d₃.pool.Accepts callee (arg :: rest).length :=
      haccepts.continued hboth.grows.continues
    rw [List.append_assoc]
    exact .invoke hasked hdefinitions hlength hinner hpointer

mutual

/-- Code generation that succeeds has written the code of the node. -/
theorem visit_wrote {d d' : Draft} (hd : d.pool.Sound) :
    (node : Node) → visit symbols (FastOps.enabled fast) node d = (.ok (), d') →
      Wrote (Codes (symbols.quantityAsked? fast) · node) d d'
  | .anyOf items, h => by
    rw [visit] at h
    obtain ⟨count, d₁, hcount, h⟩ := bind_eq_ok h
    obtain ⟨hlength, rfl, heq⟩ := operandCount_eq_ok hcount
    obtain ⟨⟨⟩, d₂, hall, h⟩ := bind_eq_ok h
    cases h
    exact (visitAll_wrote hd items (heq ▸ hall)).emit (.junction .needAny items) (.anyOf hlength)
  | .every items, h => by
    rw [visit] at h
    obtain ⟨count, d₁, hcount, h⟩ := bind_eq_ok h
    obtain ⟨hlength, rfl, heq⟩ := operandCount_eq_ok hcount
    obtain ⟨⟨⟩, d₂, hall, h⟩ := bind_eq_ok h
    cases h
    exact (visitAll_wrote hd items (heq ▸ hall)).emit (.junction .needAll items) (.every hlength)
  | .boolean value, h => by
    rw [visit] at h
    cases h
    exact .single (.boolean value) rfl rfl
  | .compare op lhs rhs, h => by
    rw [visit] at h
    obtain ⟨⟨⟩, d₁, hrhs, h⟩ := bind_eq_ok h
    obtain ⟨⟨⟩, d₂, hlhs, h⟩ := bind_eq_ok h
    cases h
    have hfirst := visit_wrote hd rhs hrhs
    have hsecond := visit_wrote (hfirst.sound hd) lhs hlhs
    have hboth : Wrote (fun p code => ∃ first second,
        Codes (symbols.quantityAsked? fast) p rhs first ∧
        Codes (symbols.quantityAsked? fast) p lhs second ∧ code = first ++ second) d d₂ :=
      hfirst.append hsecond fun hcode hmore =>
        ⟨_, _, hcode.continued hsecond.grows.continues, hmore, rfl⟩
    refine hboth.emit ⟨comparisonOpcode op, .bare⟩ ?_
    rintro code ⟨first, second, hcode, hmore, rfl⟩
    rw [List.append_assoc]
    exact .compare hcode hmore
  | .identifier id, h => by
    rw [visit_identifier] at h
    obtain ⟨word, d₁, hpush, h⟩ := bind_eq_ok h
    obtain ⟨index, hindex, -, hpool, hassembler⟩ := pushIdentifier_eq_ok hpush
    cases h
    exact .single (.identifier hindex) hpool hassembler
  | .invert inner, h => by
    rw [visit] at h
    obtain ⟨⟨⟩, d₁, hinner, h⟩ := bind_eq_ok h
    cases h
    exact (visit_wrote hd inner hinner).emit ⟨.invert, .bare⟩ .invert
  | .invoke target args, h => by
    rw [visit] at h
    obtain ⟨⟨callee, name⟩, d₁, hcallee, hrest⟩ := bind_eq_ok h
    obtain ⟨rfl, hname, haccepts, rfl⟩ := calleeName_eq_ok hcallee
    dsimp only at hrest
    rcases hlookup : (FastOps.enabled fast).lookup name with _ | fastOp <;>
      rw [hlookup] at hrest
    · exact call_wrote (FastOps.quantityAsked?_of_lookup_none hname hlookup args) haccepts
        (fun hall => visitAll_wrote hd args hall) hrest
    · obtain ⟨hfast, rfl, rfl⟩ := FastOps.lookup_enabled hlookup
      obtain ⟨written, d₂, hhas, hcall⟩ := bind_eq_ok hrest
      obtain ⟨rfl, rfl, hasked⟩ |
          ⟨rfl, item, quantity, index, hasked, hindex, hpool, hassembler⟩ :=
        FastOps.has_eq_ok hfast hname hhas
      · exact call_wrote hasked haccepts (fun hall => visitAll_wrote hd args hall) hcall
      · cases hcall
        exact .single (.asked hasked hindex) hpool hassembler
  | .number value, h => by
    rw [visit] at h
    refine pushConstant_wrote h (ObjectPool.internNumber_step _ _) fun {index p} hop => ?_
    obtain ⟨o, hvalue, hobject⟩ := ObjectPool.internNumber_eq_ok hd hop
    exact .number hvalue hobject
  | .string value, h => by
    rw [visit] at h
    refine pushConstant_wrote h (ObjectPool.internString_step _ _) fun {index p} hop => ?_
    exact .string (ObjectPool.internString_eq_ok hop)

theorem visitAll_wrote {d d' : Draft} (hd : d.pool.Sound) :
    (nodes : List Node) → visitAll symbols (FastOps.enabled fast) nodes d = (.ok (), d') →
      Wrote (CodesAll (symbols.quantityAsked? fast) · nodes) d d'
  | [], h => by
    rw [visitAll] at h
    cases h
    exact .single .nil rfl rfl
  | node :: rest, h => by
    rw [visitAll] at h
    obtain ⟨⟨⟩, d₁, hnode, h⟩ := bind_eq_ok h
    have hfirst := visit_wrote hd node hnode
    have hsecond := visitAll_wrote (hfirst.sound hd) rest h
    exact hfirst.append hsecond fun hcode hmore =>
      .cons (hcode.continued hsecond.grows.continues) hmore

end

end

end Drafting

/-- Compiling a node gives the tape of the instructions that code it. -/
theorem Node.compile_eq_ok {node : Node} {symbols : SymbolTable} {fast : Bool}
    {pool pool' : ObjectPool} {code : Code} (hp : pool.Sound)
    (h : node.compile symbols (FastOps.enabled fast) pool = (.ok code, pool')) :
    pool.Grows pool' ∧ ∃ instructions,
      node.Codes (symbols.quantityAsked? fast) pool' instructions ∧
      code.tape = (Assembler.empty.emitAll instructions).tape ∧
      code.maxStack = UInt16.ofNat (Assembler.empty.emitAll instructions).deepest := by
  unfold Node.compile at h
  rcases hvisit : (Drafting.visit symbols (FastOps.enabled fast) node).run.run (.start pool)
    with ⟨e | ⟨⟩, draft⟩ <;> rw [hvisit] at h
  · exact absurd (congrArg Prod.fst h) (by simp)
  · cases h
    have hwrote := Drafting.visit_wrote (d := Draft.start pool) hp node hvisit
    obtain ⟨instructions, hcode, hassembler⟩ := hwrote.coded
    refine ⟨hwrote.grows, instructions, hcode, ?_, ?_⟩ <;> rw [Draft.code, hassembler] <;> rfl

end Passage
