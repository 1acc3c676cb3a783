import Passage.Proofs.Easing

/-!
# The code of rules that ask

Where the functions and items have their pointers, code generation for a rule that asks for items
fails for one reason only: one of the numbers in the rule cannot be entered in the pool
(`Node.Asking.enters`). So two rules with the same numbers, in the same order, compile both or fail
both, whatever else their code looks like.
-/

namespace Passage

/-! ## Numbers -/

namespace ObjectPool

/-- The pool with numbers entered in order, if that succeeds. -/
def enterAll (p : ObjectPool) : List Number → Option ObjectPool
  | [] => some p
  | value :: rest =>
      match p.internNumber value with
      | (.ok _, p) => p.enterAll rest
      | (.error _, _) => none

variable {p p' : ObjectPool} {values more : List Number}

theorem enterAll_append :
    p.enterAll (values ++ more) = (p.enterAll values).bind (·.enterAll more) := by
  induction values generalizing p with
  | nil => rfl
  | cons value rest ih =>
    rw [List.cons_append, enterAll, enterAll]
    rcases p.internNumber value with ⟨e | index, p₁⟩
    · rfl
    · exact ih

theorem enterAll_grows (h : p.enterAll values = some p') : p.Grows p' := by
  induction values generalizing p with
  | nil => exact Option.some.inj h ▸ .refl p
  | cons value rest ih =>
    have hgrows := (internNumber_step p value).grows
    rw [enterAll] at h
    rcases hres : p.internNumber value with ⟨e | index, p₁⟩ <;> rw [hres] at h hgrows
    · exact absurd h nofun
    · exact hgrows.trans (ih h)

/-- The function has a pointer, and may be called with the number of arguments. -/
def Callable (p : ObjectPool) (callee : SymbolId) (count : Nat) : Prop :=
  p.Accepts callee count ∧ ∃ index, p.pointers[callee]? = some index

theorem Callable.grown (hg : p.Grows p') {callee : SymbolId} {count : Nat}
    (h : p.Callable callee count) : p'.Callable callee count :=
  ⟨h.1.continued hg.continues, h.2.imp fun _ => hg.pointers⟩

end ObjectPool

/-- The pool has the pointers of items, and of the functions that ask for them. -/
structure Askers.Equipped (q : Askers) (IsItem : SymbolId → Prop) (p : ObjectPool) : Prop where
  item : ∀ {id}, IsItem id → ∃ index, p.pointers[id]? = some index
  has : p.Callable q.has 2
  joining : ∀ j count, p.Callable (q.joining j) count

theorem Askers.Equipped.grown {q : Askers} {IsItem : SymbolId → Prop} {p p' : ObjectPool}
    (hg : p.Grows p') (h : q.Equipped IsItem p) : q.Equipped IsItem p' where
  item hid := (h.item hid).imp fun _ => hg.pointers
  has := h.has.grown hg
  joining j count := (h.joining j count).grown hg

namespace Drafting

/-! ## Steps that enter numbers -/

/-- From every pool that is equipped, the step does to the pool what entering the numbers does, and
fails where that fails. -/
def Enters (q : Askers) (IsItem : SymbolId → Prop) (values : List Number) (m : Drafting Unit) :
    Prop :=
  ∀ d : Draft, q.Equipped IsItem d.pool →
    (∃ d', m d = (.ok (), d') ∧ d.pool.enterAll values = some d'.pool) ∨
      (∃ e d', m d = (.error e, d')) ∧ d.pool.enterAll values = none

variable {q : Askers} {IsItem : SymbolId → Prop} {values more : List Number} {m m' : Drafting Unit}

/-- A step that leaves the pool. -/
theorem Enters.still (h : ∀ d : Draft, q.Equipped IsItem d.pool →
    ∃ d', m d = (.ok (), d') ∧ d'.pool = d.pool) : Enters q IsItem [] m := by
  intro d hd
  obtain ⟨d', hok, hpool⟩ := h d hd
  exact .inl ⟨d', hok, congrArg some hpool.symm⟩

theorem enters_emit (op : Opcode) (operands : Operands) : Enters q IsItem [] (emit op operands) :=
  .still fun d _ => ⟨_, emit_apply op operands d, rfl⟩

theorem Enters.bind (h : Enters q IsItem values m) (h' : Enters q IsItem more m') :
    Enters q IsItem (values ++ more) (m >>= fun _ => m') := by
  intro d hd
  rw [ObjectPool.enterAll_append]
  obtain ⟨d₁, hok, hpool⟩ | ⟨⟨e, d₁, herror⟩, hnone⟩ := h d hd
  · rw [bind_ok hok, hpool]
    exact h' d₁ (hd.grown (ObjectPool.enterAll_grows hpool))
  · refine .inr ⟨⟨e, d₁, ?_⟩, by rw [hnone]; rfl⟩
    rw [bind_apply, herror]

/-- A step behind another one that changes nothing. -/
theorem Enters.behind {α : Type} {x : Drafting α} {a : α} {f : α → Drafting Unit}
    (hx : ∀ d : Draft, q.Equipped IsItem d.pool → x d = (.ok a, d))
    (hf : Enters q IsItem values (f a)) : Enters q IsItem values (x >>= f) := by
  intro d hd
  rw [bind_ok (hx d hd)]
  exact hf d hd

theorem operandCount_ok {nodes : List Node} (h : nodes.length < 65536) (d : Draft) :
    operandCount nodes d = (.ok (UInt16.ofNat nodes.length), d) := by
  unfold operandCount
  rw [if_pos h]
  rfl

theorem symbol_ok {symbols : SymbolTable} {id : SymbolId} {s : Symbol}
    (h : symbols.get? id = some s) (d : Draft) : symbol symbols id d = (.ok s, d) := by
  unfold symbol
  rw [h]
  rfl

/-- A symbol with a pointer is pushed. -/
theorem pushIdentifier_ok {symbols : SymbolTable} {id : SymbolId} {s : Symbol}
    (hget : symbols.get? id = some s) (hkind : isPushable s.kind = true) {d : Draft}
    {index : ObjectIndex} (hindex : d.pool.pointers[id]? = some index) :
    ∃ d', pushIdentifier symbols id d = (.ok (UInt16.ofNat index), d') ∧ d'.pool = d.pool := by
  have hpointer : ∃ d', pointerOf symbols id d = (.ok (UInt16.ofNat index), d') ∧
      d'.pool = d.pool := by
    rw [pointerOf, bind_ok (symbol_ok hget d), bind_ok (get_apply d), ObjectPool.pointerFor, hindex]
    exact ⟨_, rfl, rfl⟩
  obtain ⟨d', hd', hpool⟩ := hpointer
  rw [pushIdentifier, bind_ok (symbol_ok hget d), if_pos hkind, bind_ok hd']
  exact ⟨_, rfl, hpool⟩

theorem enters_number (symbols : SymbolTable) (fastOps : FastOps) (value : Number) :
    Enters q IsItem [value] (visit symbols fastOps (.number value)) := by
  rintro ⟨pool, assembler, consts, names⟩ -
  rw [visit, pushConstant, bind_apply, intern, ObjectPool.enterAll]
  rcases pool.internNumber value with ⟨e | index, pool'⟩
  · exact .inr ⟨⟨_, _, rfl⟩, rfl⟩
  · exact .inl ⟨_, rfl, rfl⟩

/-! ## Rules that ask -/

variable {symbols : SymbolTable}

theorem enters_name {id : SymbolId} {s : Symbol} (hget : symbols.get? id = some s)
    (hkind : isPushable s.kind = true)
    (hpointer : ∀ d : Draft, q.Equipped IsItem d.pool → ∃ index, d.pool.pointers[id]? = some index)
    (fastOps : FastOps) : Enters q IsItem [] (visit symbols fastOps (.identifier id)) := by
  refine .still fun d hd => ?_
  obtain ⟨index, hindex⟩ := hpointer d hd
  obtain ⟨d', hd', hpool⟩ := pushIdentifier_ok hget hkind hindex
  refine ⟨d', ?_, hpool⟩
  rw [visit_identifier, bind_ok hd', pure_apply]

theorem enters_all {fastOps : FastOps}
    {quantityAsked? : Node → List Node → Option (SymbolId × UInt8)}
    {nodes : List Node}
    (h :
      ∀ node ∈ nodes, Enters q IsItem (node.numerals quantityAsked?) (visit symbols fastOps node)) :
    Enters q IsItem (Node.numeralsAll quantityAsked? nodes) (visitAll symbols fastOps nodes) := by
  induction nodes with
  | nil =>
    rw [visitAll]
    exact .still fun d _ => ⟨d, rfl, rfl⟩
  | cons node rest ih =>
    obtain ⟨hnode, hrest⟩ := List.forall_mem_cons.mp h
    rw [visitAll, Node.numeralsAll]
    exact hnode.bind (ih hrest)

/-- A function that is called gets its name told. -/
theorem calleeName_ok {callee : SymbolId} {name : String} {kind : Symbol.Kind} {count : Nat}
    (hget : symbols.get? callee = some ⟨name, callee, kind⟩) {d : Draft}
    (hcall : d.pool.Callable callee count) :
    calleeName symbols (.identifier callee) count d = (.ok (callee, name), d) := by
  obtain ⟨⟨signature, hlookup, haccepts⟩, -⟩ := hcall
  show (symbol symbols callee >>= fun known => _) d = _
  rw [bind_ok (symbol_ok hget d), bind_ok (get_apply d), ObjectPool.definitionOf, hlookup]
  dsimp only
  rw [if_pos haccepts]
  rfl

/-- The code of a call that no fast operation writes. -/
theorem enters_call {fastOps : FastOps} {callee : SymbolId} {name : String}
    (hget : symbols.get? callee = some ⟨name, callee, .builtInFunction⟩) {args : List Node}
    (hcall : ∀ d : Draft, q.Equipped IsItem d.pool → d.pool.Callable callee args.length)
    (hargs : args ≠ []) (hlength : args.length < 65536)
    (hfast : ∀ fast, fastOps.lookup name = some fast →
      ∀ d, fast symbols args (visitAll symbols fastOps args) d = (.ok false, d))
    (hall : Enters q IsItem values (visitAll symbols fastOps args)) :
    Enters q IsItem values (visit symbols fastOps (.call callee args)) := by
  have hcallee := enters_name hget rfl (fun d hd => (hcall d hd).2) fastOps
  have hboth := hall.bind (hcallee.bind (enters_emit .invoke (.word (UInt16.ofNat args.length))))
  rw [List.nil_append, List.append_nil] at hboth
  have hwritten : Enters q IsItem values (do
      let count ← operandCount args
      visitAll symbols fastOps args
      visit symbols fastOps (.identifier callee)
      emit .invoke (.word count)) := .behind (fun d _ => operandCount_ok hlength d) hboth
  have hempty : ¬ args.isEmpty = true := by rwa [List.isEmpty_iff]
  rw [Node.call, visit]
  refine .behind (fun d hd => calleeName_ok hget (hcall d hd)) ?_
  dsimp only
  rcases hlookup : fastOps.lookup name with _ | fast
  · rw [pure_bind, if_neg Bool.false_ne_true, if_neg hempty]
    exact hwritten
  · refine .behind (fun d _ => hfast fast hlookup d) ?_
    rw [if_neg Bool.false_ne_true, if_neg hempty]
    exact hwritten

/-- The code of the question for a quantity: a quantity check, if it is one for a byte. -/
theorem enters_has (hq : q.Of IsItem symbols) {item : SymbolId} (hitem : IsItem item)
    (quantity : Number) :
    Enters q IsItem (Node.numerals (symbols.quantityAsked? true) (.has q.has item quantity))
      (visit symbols (.enabled true) (.has q.has item quantity)) := by
  obtain ⟨s, hget, hkind⟩ := SymbolTable.get?_of_kindOf? (hq.item hitem)
  have hpushable : isPushable s.kind = true := by
    rw [hkind]
    rfl
  have hargs : Enters q IsItem [quantity]
      (visitAll symbols (.enabled true) [.identifier item, .number quantity]) := by
    have hname : Enters q IsItem [] (visit symbols (.enabled true) (.identifier item)) :=
      enters_name hget hpushable (fun d hd => hd.item hitem) _
    have hboth : ∀ node ∈ [Node.identifier item, Node.number quantity],
        Enters q IsItem (node.numerals (symbols.quantityAsked? true))
          (visit symbols (.enabled true) node) :=
      List.forall_mem_cons.mpr ⟨hname, List.forall_mem_singleton.mpr (enters_number _ _ _)⟩
    exact enters_all hboth
  rw [Node.has, Node.call, Node.numerals, hq.asked_has hitem]
  rcases hbyte : quantity.byte? with _ | count
  · refine enters_call hq.has (fun d hd => hd.has) (List.cons_ne_nil _ _)
      (Nat.lt_of_sub_eq_succ rfl)
      (fun fast hfast d => ?_) hargs
    obtain ⟨-, -, rfl⟩ := FastOps.lookup_enabled hfast
    rw [FastOps.has, hbyte]
    rfl
  · refine .still fun d hd => ?_
    obtain ⟨index, hindex⟩ := hd.item hitem
    obtain ⟨d', hpush, hpool⟩ := pushIdentifier_ok hget hpushable hindex
    have hwritten : ∃ d'', FastOps.has symbols [.identifier item, .number quantity]
        (visitAll symbols (.enabled true) [.identifier item, .number quantity]) d =
          (.ok true, d'') ∧
          d''.pool = d'.pool := by
      rw [FastOps.has, hbyte]
      dsimp only
      rw [if_pos (hq.item hitem), bind_ok hpush, bind_ok (emit_apply _ _ _), pure_apply]
      exact ⟨_, rfl, rfl⟩
    obtain ⟨d'', hwritten, hlast⟩ := hwritten
    have hcallee : calleeName symbols (.identifier q.has)
        [Node.identifier item, Node.number quantity].length d =
          (.ok (q.has, Lowering.hasName), d) :=
      calleeName_ok hq.has hd.has
    refine ⟨d'', ?_, hlast.trans hpool⟩
    rw [visit, bind_ok hcallee]
    dsimp only
    rw [show (FastOps.enabled true).lookup Lowering.hasName = some FastOps.has from rfl]
    dsimp only
    rw [bind_ok hwritten, if_pos rfl, pure_apply]

/-- The code of a joined question: the items, and the function. -/
theorem enters_joined (hq : q.Of IsItem symbols) (j : Junction) {items : List SymbolId}
    (hitems : ∀ item ∈ items, IsItem item) (htwo : 2 ≤ items.length)
    (hlength : items.length < 65536) :
    Enters q IsItem []
      (visit symbols (.enabled true) (.call (q.joining j) (items.map .identifier))) := by
  have hall :
      Enters q IsItem (Node.numeralsAll (symbols.quantityAsked? true) (items.map .identifier))
        (visitAll symbols (.enabled true) (items.map .identifier)) := by
    refine enters_all fun node hnode => ?_
    obtain ⟨item, hitem, rfl⟩ := List.mem_map.mp hnode
    obtain ⟨s, hget, hkind⟩ := SymbolTable.get?_of_kindOf? (hq.item (hitems item hitem))
    refine enters_name hget ?_ (fun d hd => hd.item (hitems item hitem)) _
    rw [hkind]
    rfl
  rw [Node.numeralsAll_names] at hall
  refine enters_call (hq.joining j) (fun d hd => hd.joining j _) ?_ ?_ (fun fast hfast d => ?_) hall
  · rintro heq
    rw [List.map_eq_nil_iff.mp heq] at htwo
    exact absurd htwo (by decide)
  · rwa [List.length_map]
  · obtain ⟨-, hname, -⟩ := FastOps.lookup_enabled hfast
    exact absurd hname j.joining_ne_has

end Drafting

open Drafting in
/-- Code generation for a rule that asks enters the numbers of the rule, if its operands can be
counted. -/
theorem Node.Asking.enters {q : Askers} {IsItem : SymbolId → Prop} {symbols : SymbolTable}
    (hq : q.Of IsItem symbols) {node : Node} (h : node.Asking q IsItem True)
    (hneed : node.need (symbols.quantityAsked? true) < 65536) :
    Enters q IsItem (node.numerals (symbols.quantityAsked? true))
      (visit symbols (.enabled true) node) := by
  have hjunction : ∀ (j : Junction) {items : List Node},
      (j.node items).need (symbols.quantityAsked? true) < 65536 →
      (∀ item ∈ items, item.need (symbols.quantityAsked? true) < 65536 →
        Enters q IsItem (item.numerals (symbols.quantityAsked? true))
          (visit symbols (.enabled true) item)) →
      Enters q IsItem ((j.node items).numerals (symbols.quantityAsked? true))
        (visit symbols (.enabled true) (j.node items)) := by
    intro j items hneed ih
    rw [Node.need_junction] at hneed
    have hcount := Node.length_le_needAll (symbols.quantityAsked? true) items
    have hall := enters_all fun item hitem =>
      ih item hitem (Nat.lt_of_le_of_lt (Node.need_le_needAll hitem) (by omega))
    have hboth := fun op => hall.bind (enters_emit op (.word (UInt16.ofNat items.length)))
    rw [Node.numerals_junction, ← List.append_nil (Node.numeralsAll _ items)]
    cases j
    · rw [Junction.node, visit]
      exact .behind (fun d _ => operandCount_ok (by omega) d) (hboth .needAll)
    · rw [Junction.node, visit]
      exact .behind (fun d _ => operandCount_ok (by omega) d) (hboth .needAny)
  induction h with
  | name hid =>
    obtain ⟨s, hget, hkind⟩ := SymbolTable.get?_of_kindOf? (hq.item hid)
    refine enters_name hget ?_ (fun d hd => hd.item hid) _
    rw [hkind]
    rfl
  | has quantity hitem => exact enters_has hq hitem quantity
  | @joined j items _ htwo hitems =>
    rw [Node.need_joined hq.checked] at hneed
    rw [Node.numerals_joined hq.checked]
    exact enters_joined hq j hitems htwo (Nat.lt_of_succ_lt hneed)
  | @invert inner _ ih =>
    rw [Node.numerals, visit, ← List.append_nil (inner.numerals _)]
    exact (ih hneed).bind (enters_emit .invert .bare)
  | every _ _ ih => exact hjunction .every hneed ih
  | anyOf _ _ ih => exact hjunction .anyOf hneed ih

/-- A rule that asks has code if its numbers can be entered, and only then. -/
theorem Node.Asking.compiles_iff {q : Askers} {IsItem : SymbolId → Prop} {symbols : SymbolTable}
    {pool : ObjectPool} (hq : q.Of IsItem symbols) (hp : q.Equipped IsItem pool) {node : Node}
    (h : node.Asking q IsItem True)
    (hneed : node.need (symbols.quantityAsked? true) < 65536) :
    (∃ code pool', node.compile symbols (.enabled true) pool = (.ok code, pool')) ↔
      (pool.enterAll (node.numerals (symbols.quantityAsked? true))).isSome := by
  unfold Node.compile
  obtain ⟨d', hok, hpool⟩ | ⟨⟨e, d', herror⟩, hnone⟩ := h.enters hq hneed (.start pool) hp
  · rw [show (Drafting.visit symbols (.enabled true) node).run.run (.start pool) = _ from hok,
      show pool.enterAll _ = _ from hpool]
    exact ⟨fun _ => rfl, fun _ => ⟨_, _, rfl⟩⟩
  · rw [show (Drafting.visit symbols (.enabled true) node).run.run (.start pool) = _ from herror,
      show pool.enterAll _ = _ from hnone]
    exact ⟨fun ⟨_, _, hok⟩ => absurd hok nofun, nofun⟩

/-! ## Items with pointers -/

namespace Node

variable {quantityAsked? : Node → List Node → Option (SymbolId × UInt8)} {p : ObjectPool}

theorem CodesAll.of_mem {nodes : List Node} {code : List Instruction}
    (h : CodesAll quantityAsked? p nodes code) {node : Node} (hnode : node ∈ nodes) :
    ∃ code, node.Codes quantityAsked? p code := by
  induction hnode generalizing code with
  | head => cases h with | cons hfirst => exact ⟨_, hfirst⟩
  | tail _ _ ih => cases h with | cons _ hrest => exact ih hrest

/-- The code of a question has the code of its operands, unless it is a quantity check. -/
theorem Codes.args {target : Node} {args : List Node} {code : List Instruction}
    (h : (Node.invoke target args).Codes quantityAsked? p code) :
    (∃ item quantity index, quantityAsked? target args = some (item, quantity) ∧
      p.pointers[item]? = some index) ∨
      quantityAsked? target args = none ∧ ∃ code, CodesAll quantityAsked? p args code := by
  cases h with
  | asked hasked hpointer => exact .inl ⟨_, _, _, hasked, hpointer⟩
  | bare hasked => exact .inr ⟨hasked, [], .nil⟩
  | invoke hasked _ _ hargs => exact .inr ⟨hasked, _, hargs⟩

/-- What a rule asks for has pointers, if code was generated for it. -/
theorem Asking.of_codes {q : Askers} {IsItem : SymbolId → Prop} {symbols : SymbolTable}
    (hq : q.Of IsItem symbols) {node : Node} (h : node.Asking q IsItem True)
    {code : List Instruction} (hcode : node.Codes (symbols.quantityAsked? true) p code) :
    node.Asking q (fun id => IsItem id ∧ ∃ index, p.pointers[id]? = some index) True := by
  induction h generalizing code with
  | name hid =>
    cases hcode with
    | identifier hpointer => exact .name ⟨hid, _, hpointer⟩
  | @has item quantity hid =>
    refine .has quantity ⟨hid, ?_⟩
    obtain ⟨item', count, index, hasked, hpointer⟩ | ⟨-, args, hargs⟩ := hcode.args
    · rw [hq.asked_has hid] at hasked
      obtain ⟨_, -, hitem⟩ := Option.map_eq_some_iff.mp hasked
      obtain rfl := congrArg Prod.fst hitem
      exact ⟨index, hpointer⟩
    · obtain ⟨_, hname⟩ := hargs.of_mem List.mem_cons_self
      cases hname with
      | identifier hpointer => exact ⟨_, hpointer⟩
  | @joined j items hjoined htwo hitems =>
    refine .joined j hjoined htwo fun item hitem => ⟨hitems item hitem, ?_⟩
    obtain ⟨_, _, _, hasked, -⟩ | ⟨-, args, hargs⟩ := hcode.args
    · exact absurd hasked (by rw [hq.checked.joining]; nofun)
    · obtain ⟨_, hname⟩ := hargs.of_mem (List.mem_map_of_mem hitem)
      cases hname with
      | identifier hpointer => exact ⟨_, hpointer⟩
  | invert _ ih =>
    cases hcode with
    | invert hinner => exact .invert (ih hinner)
  | every hreduced _ ih =>
    cases hcode with
    | every _ hall =>
      exact .every hreduced fun item hitem => ih item hitem (hall.of_mem hitem).choose_spec
  | anyOf hreduced _ ih =>
    cases hcode with
    | anyOf _ hall =>
      exact .anyOf hreduced fun item hitem => ih item hitem (hall.of_mem hitem).choose_spec

end Node

end Passage
