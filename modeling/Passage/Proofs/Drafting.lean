import Passage.Proofs.Fallible
import Passage.Proofs.Pool
import Passage.Proofs.Upkeep

/-!
# Objects during code generation

Writing code does one thing to the pool: it enters the numbers and strings of the
node. The pool grows by these, whether or not the generation succeeds; and what the code
refers to are numbers, strings and pointers of the pool.
-/

namespace Passage

/-! ## Constants -/

/-- The entry is one that code refers to: a number, a text or the pointer of a symbol. -/
inductive ObjectPool.IsConstant (p : ObjectPool) (index : ObjectIndex) : Prop
  | number {x : Number} {o : Object} : Object.ofNumber x = .ok o → p.get? index = some o →
      IsConstant p index
  | text {s : String} : p.texts[s]? = some index → IsConstant p index
  | pointer {symbol : SymbolId} : p.pointers[symbol]? = some index → IsConstant p index

theorem ObjectPool.IsConstant.continued {p p' : ObjectPool} (hc : p.Continues p')
    {index : ObjectIndex} (h : p.IsConstant index) : p'.IsConstant index := by
  cases h with
  | number hx hget => exact .number hx (hc.values hget)
  | text htext => exact .text (hc.texts htext)
  | pointer hpointer => exact .pointer (hc.pointers hpointer)

/-! ## Drafts -/

/-- A draft that refers to constants of its pool. -/
structure Draft.Sound (d : Draft) : Prop where
  pool : d.pool.Sound
  consts : ∀ word ∈ d.consts, ∃ index, word = UInt16.ofNat index ∧ d.pool.IsConstant index

/-- The pool of the second draft has grown from that of the first by literals. -/
def Draft.Grows (d d' : Draft) : Prop := d.pool.Interns d'.pool

theorem Draft.start_sound {pool : ObjectPool} (h : pool.Sound) : (Draft.start pool).Sound :=
  ⟨h, nofun⟩

theorem Draft.grows_advances : Advances Draft.Grows where
  refl d := .refl d.pool
  trans h h' := ObjectPool.Interns.trans h h'

theorem Draft.mem_insertConst {word index : UInt16} {consts : List UInt16}
    (h : word ∈ Draft.insertConst index consts) : word = index ∨ word ∈ consts := by
  induction consts with
  | nil => exact .inl (List.mem_singleton.mp h)
  | cons other rest ih =>
    rw [insertConst] at h
    split at h
    · exact List.mem_cons.mp h
    · split at h
      · exact .inr h
      · obtain rfl | h := List.mem_cons.mp h
        · exact .inr List.mem_cons_self
        · exact (ih h).imp id (List.mem_cons_of_mem _)

/-- A draft that refers to one more constant, in a pool that has grown. -/
theorem Draft.Sound.refer {d : Draft} (h : d.Sound) {pool : ObjectPool} (hg : d.pool.Grows pool)
    {index : ObjectIndex} (hindex : pool.IsConstant index) (assembler : Assembler)
    (names : List (UInt16 × String)) :
    Draft.Sound ⟨pool, assembler, insertConst (UInt16.ofNat index) d.consts, names⟩ where
  pool := hg.sound h.pool
  consts word hword := by
    obtain rfl | hword := mem_insertConst hword
    · exact ⟨index, rfl, hindex⟩
    · obtain ⟨index', heq, hold⟩ := h.consts word hword
      exact ⟨index', heq, hold.continued hg.continues⟩

/-- A step of code generation that does to the pool what is allowed. -/
abbrev Drafting.Grows {α : Type} (m : Drafting α) : Prop :=
  Conducts Draft.Sound Draft.Grows m

/-- Fast operations that do to the pool what the writing of arguments does. -/
def FastOps.Grow (fastOps : FastOps) : Prop :=
  ∀ name fast, fastOps.lookup name = some fast → ∀ symbols args (writeArgs : Drafting Unit),
    writeArgs.Grows → (fast symbols args writeArgs).Grows

namespace Drafting

open Draft (grows_advances)

theorem emit_grows (op : Opcode) (operands : Operands) : (emit op operands).Grows :=
  fun d hd => ⟨.refl d.pool, fun _ _ => ⟨hd.pool, hd.consts⟩⟩

/-- Pushing a constant enters it, and refers to where it was entered. -/
theorem pushConstant_grows {op : ObjectPool → Except PoolError ObjectIndex × ObjectPool}
    (hop : ∀ p : ObjectPool, p.Interns (op p).2)
    (hconstant : ∀ {p p' : ObjectPool} {index : ObjectIndex}, p.Sound →
      op p = (.ok index, p') → p'.IsConstant index) : (pushConstant op).Grows := by
  intro d hd
  obtain ⟨pool, assembler, consts, names⟩ := d
  have hinterns := hop pool
  rcases hres : op pool with ⟨e | index, pool'⟩ <;> rw [hres] at hinterns
  · have hpush : pushConstant op ⟨pool, assembler, consts, names⟩ =
        (.error (.pool e), ⟨pool', assembler, consts, names⟩) := by
      rw [pushConstant, bind_apply, intern, hres]
    rw [hpush]
    exact ⟨hinterns, by simp⟩
  · have hpush : pushConstant op ⟨pool, assembler, consts, names⟩ =
        (.ok (), ⟨pool', assembler.emit .pushConst (.word (UInt16.ofNat index)),
          Draft.insertConst (UInt16.ofNat index) consts, names⟩) := by
      rw [pushConstant, bind_apply, intern, hres]
      rfl
    rw [hpush]
    exact ⟨hinterns, fun _ _ => hd.refer hinterns.toGrows (hconstant hd.pool hres) _ _⟩

theorem symbol_grows (symbols : SymbolTable) (id : SymbolId) : (symbol symbols id).Grows := by
  unfold symbol
  split
  · exact .pure grows_advances _
  · exact .throw grows_advances _

/-- The pointer of a symbol is a constant of the pool. -/
theorem pointerOf_grows (symbols : SymbolTable) (id : SymbolId) : (pointerOf symbols id).Grows := by
  refine .bind grows_advances (symbol_grows symbols id) fun known d hd => ?_
  rw [bind_ok (get_apply d), ObjectPool.pointerFor]
  rcases hpointer : d.pool.pointers[id]? with _ | index
  · exact ⟨.refl d.pool, nofun⟩
  · exact ⟨.refl d.pool, fun _ _ => hd.refer (.refl d.pool) (.pointer hpointer) _ _⟩

theorem pushIdentifier_grows (symbols : SymbolTable) (id : SymbolId) :
    (pushIdentifier symbols id).Grows := by
  refine .bind grows_advances (symbol_grows symbols id) fun known => ?_
  split
  · exact .bind grows_advances (pointerOf_grows symbols id) fun _ =>
      .bind grows_advances (emit_grows _ _) fun _ => .pure grows_advances _
  · exact .throw grows_advances _

theorem operandCount_grows (nodes : List Node) : (operandCount nodes).Grows := by
  unfold operandCount
  dsimp only
  split
  · exact .pure grows_advances _
  · exact .throw grows_advances _

theorem calleeName_grows (symbols : SymbolTable) (target : Node) (count : Nat) :
    (calleeName symbols target count).Grows := by
  unfold calleeName
  split
  · exact .throw grows_advances _
  · refine .bind grows_advances (symbol_grows symbols _) fun known =>
      .bind grows_advances (.get grows_advances) fun d => ?_
    split
    · exact .throw grows_advances _
    · split
      · exact .pure grows_advances _
      · exact .throw grows_advances _

/-- Writing code enters objects and does nothing else to the pool. -/
theorem upkeep_grows (symbols : SymbolTable) :
    Upkeep Drafting.Grows symbols (fun _ => True) fun _ => True where
  pure := .pure grows_advances
  bind hx hf := .bind grows_advances hx hf
  emit := emit_grows
  count := operandCount_grows
  number value := by
    refine pushConstant_grows (ObjectPool.internNumber_interns · value) fun hp hok => ?_
    obtain ⟨o, hx, hget⟩ := ObjectPool.internNumber_eq_ok hp hok
    exact .number hx hget
  text value :=
    pushConstant_grows (ObjectPool.internString_interns · value) fun _ hok =>
      .text (ObjectPool.internString_eq_ok hok)
  identifier _ := pushIdentifier_grows symbols _
  pointer _ := pointerOf_grows symbols _
  callee _ hf := .bind grows_advances (calleeName_grows symbols _ _) fun callee =>
    hf callee trivial

end Drafting

namespace FastOps

theorem Grow.uphold {fastOps : FastOps} (hf : fastOps.Grow) (symbols : SymbolTable) :
    fastOps.Uphold Drafting.Grows symbols fun _ => True :=
  fun name fast hfast _ _ _ hargs => hf name fast hfast symbols _ _ hargs

theorem enabled_grow (fast : Bool) : (enabled fast).Grow :=
  fun name op hop symbols _ _ hargs => (Drafting.upkeep_grows symbols).enabled fast name op hop
    (fun arg _ => arg.mentions_of_forall fun _ => trivial) hargs

end FastOps

/-- Compiling a node enters literals in the pool, also where it fails. Where it succeeds, the
code refers to constants. -/
theorem Node.compile_interns (node : Node) (symbols : SymbolTable) {fastOps : FastOps}
    (hf : fastOps.Grow) {pool : ObjectPool} (hp : pool.Sound) :
    pool.Interns (node.compile symbols fastOps pool).2 ∧
      ∀ code, (node.compile symbols fastOps pool).1 = .ok code → ∀ word ∈ code.consts,
        ∃ index, word = UInt16.ofNat index ∧
          (node.compile symbols fastOps pool).2.IsConstant index := by
  obtain ⟨hinterns, hok⟩ :=
    (Drafting.upkeep_grows symbols).visit (hf.uphold symbols) node
      (node.mentions_of_forall fun _ => trivial) (.start pool) (Draft.start_sound hp)
  unfold Node.compile
  rcases h : (Drafting.visit symbols fastOps node).run.run (.start pool) with ⟨e | ⟨⟩, draft⟩ <;>
    rw [show Drafting.visit symbols fastOps node (.start pool) = _ from h] at hinterns hok
  · exact ⟨hinterns, nofun⟩
  · refine ⟨hinterns, fun code hcode => ?_⟩
    obtain rfl := Except.ok.inj hcode
    exact (hok () rfl).consts

end Passage
