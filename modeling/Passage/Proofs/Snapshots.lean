import Passage.Proofs.Drafting
import Passage.Proofs.Encoding
import Passage.Proofs.Making
import Passage.Snapshot.Code
import Passage.Snapshot.Table

/-!
# Lossless snapshots

A frozen table and the code of a rule come back from their snapshots as they were, whatever
follows the bytes, and no part of a snapshot is taken for a whole one (`snapshots_lossless`).

What is read back depends on bounds that freezing and code generation keep: the indices of a
code have sixteen bits and its constants ascend, no index is named twice, and a table has no
more entries and functions than sixteen bits tell apart.
-/

namespace Passage

open Snapshot

/-! ## Tables -/

theorem Signature.decodes_load {s : Signature} (h : s.Bounded) :
    Decodes Signature.load s.dump s := by
  unfold load dump
  refine (decodes_text h.name).bind ((decodes_nat32 (zigzag_lt h.low h.high)).finish fun rest => ?_)
  dsimp only
  rw [unzigzag_zigzag]
  rfl

namespace ObjectTable

theorem decodes_loadObject (o : Object) : Decodes loadObject (dumpObject o) o := by
  unfold loadObject dumpObject
  refine (decodes_nat64 o.bits.toNat_lt).finish fun rest => ?_
  dsimp only
  rw [UInt64.ofNat_toNat]
  rfl

theorem decodes_loadBuiltIn {entry : Object × Signature} (h : entry.2.Bounded) :
    Decodes loadBuiltIn (dumpBuiltIn entry) entry := by
  unfold loadBuiltIn dumpBuiltIn
  exact (decodes_loadObject entry.1).bind ((Signature.decodes_load h).finish fun _ => rfl)

/-- A table is read back if its parts are counted in 64 bits and its arena is a text. -/
theorem decodes_decoder {t : ObjectTable} {arena : String} (harena : t.strings = arena.toByteArray)
    (hsize : arena.utf8ByteSize < 2 ^ 64) (hvalues : t.values.size < 2 ^ 64)
    (hfunctions : t.builtIns.length < 2 ^ 64) (hbounded : ∀ entry ∈ t.builtIns, entry.2.Bounded) :
    Decodes decoder t.dump t := by
  have hvalues : Decodes (sequence loadObject) (sequenceBytes dumpObject t.values.toList)
      t.values.toList :=
    decodes_sequence (by rwa [Array.length_toList]) fun o _ => decodes_loadObject o
  have hbuiltIns := decodes_sequence hfunctions fun entry hentry =>
    decodes_loadBuiltIn (hbounded entry hentry)
  have htext : varint t.strings.size ++ t.strings.data.toList = textBytes arena := by
    rw [harena, String.size_toByteArray]
    rfl
  rw [dump, htext, List.append_assoc]
  unfold decoder
  refine hvalues.bind ((decodes_text hsize).bind (hbuiltIns.finish fun rest => ?_))
  rw [Array.toArray_toList, String.toUTF8_eq_toByteArray, ← harena]
  rfl

end ObjectTable

/-- The signatures of a frozen table are those of the pool. -/
theorem ObjectPool.Bounded.builtIns {p : ObjectPool} (h : p.Bounded) :
    ∀ entry ∈ p.freeze.builtIns, entry.2.Bounded := by
  intro entry hentry
  obtain ⟨⟨symbol, signature⟩, hdefined, hsome⟩ := List.mem_filterMap.mp hentry
  have hsignature : entry.2 = signature := by
    obtain ⟨index, -, hsome⟩ := Option.bind_eq_some_iff.mp hsome
    obtain ⟨pointer, -, hsome⟩ := Option.bind_eq_some_iff.mp hsome
    rw [← Option.some.inj hsome]
  rw [hsignature]
  exact h.signatures _ hdefined

/-- A table that is frozen comes back from its snapshot. -/
theorem ObjectPool.Bounded.freeze_lossless {p : ObjectPool} (h : p.Bounded) :
    Lossless ObjectTable.dump ObjectTable.load p.freeze := by
  obtain ⟨arena, harena⟩ := h.arena
  have hstrings := h.strings
  have hsize := h.size
  have hfunctions := h.length_builtIns_le
  unfold arenaCapacity at hstrings
  unfold capacity at hsize hfunctions
  rw [harena, String.size_toByteArray] at hstrings
  exact (ObjectTable.decodes_decoder harena (by omega) (Nat.lt_of_le_of_lt hsize (by decide))
    (by omega) h.builtIns).lossless

/-! ## Codes -/

namespace Code

theorem decodes_loadIndex (index : UInt16) : Decodes loadIndex (dumpIndex index) index := by
  unfold loadIndex dumpIndex
  refine (decodes_nat16 index.toNat_lt).finish fun rest => ?_
  dsimp only
  rw [UInt16.ofNat_toNat]
  rfl

theorem decodes_loadName {entry : UInt16 × String} (h : entry.2.utf8ByteSize < 2 ^ 64) :
    Decodes loadName (dumpName entry) entry := by
  unfold loadName dumpName
  exact (decodes_loadIndex entry.1).bind ((decodes_text h).finish fun _ => rfl)

/-- An index without a name is named behind all others. -/
theorem putName_of_notMem {index : UInt16} (name : String) {names : List (UInt16 × String)}
    (h : index ∉ names.map (·.1)) : putName index name names = names ++ [(index, name)] := by
  induction names with
  | nil => rfl
  | cons entry rest ih =>
    rw [List.map_cons, List.mem_cons, not_or] at h
    rw [putName, if_neg (Ne.symm h.1), ih h.2, List.cons_append]

/-- Names of different indices are put back in their order. -/
theorem foldl_putName {names : List (UInt16 × String)} :
    ∀ known : List (UInt16 × String), ((known ++ names).map (·.1)).Nodup →
      names.foldl (fun known (index, name) => putName index name known) known = known ++ names := by
  induction names with
  | nil =>
    intro known _
    rw [List.foldl_nil, List.append_nil]
  | cons entry rest ih =>
    intro known h
    have hnew : entry.1 ∉ known.map (·.1) := by
      rw [List.map_append, List.map_cons] at h
      exact fun hmem => (List.nodup_append.mp h).2.2 _ hmem _ List.mem_cons_self rfl
    have hput : putName entry.1 entry.2 known = known ++ [entry] := putName_of_notMem entry.2 hnew
    have hrest := ih (known ++ [entry]) (by rwa [List.append_assoc])
    rw [List.append_assoc, ← hput] at hrest
    exact hrest

/-- What a machine of 64 bits can hold. -/
structure Addressable (code : Code) : Prop where
  tape : code.tape.size < 2 ^ 64
  names : ∀ entry ∈ code.names, entry.2.utf8ByteSize < 2 ^ 64

/-- There are no more different indices than sixteen bits tell apart. -/
theorem length_le_of_nodup {indices : List UInt16} (h : indices.Nodup) :
    indices.length ≤ 65536 := by
  have hapart : (indices.map UInt16.toNat).Nodup := h.map fun _ _ => UInt16.toNat_inj.mp
  have hbelow : indices.map UInt16.toNat ⊆ List.range 65536 := by
    intro n hn
    obtain ⟨index, -, rfl⟩ := List.mem_map.mp hn
    exact List.mem_range.mpr index.toNat_lt
  have hle := (List.subperm_of_subset hapart hbelow).length_le
  rwa [List.length_map, List.length_range] at hle

/-- A code is read back whose indices are told apart. -/
theorem decodes_decoder {code : Code} (h : code.Addressable) (hconsts : code.consts.Nodup)
    (hnames : (code.names.map (·.1)).Nodup) : Decodes decoder code.dump code := by
  have htape : Decodes (take code.tape.size) code.tape.data.toList code.tape.data.toList := by
    have h := decodes_take code.tape.data.toList
    rwa [Array.length_toList] at h
  have hlength := length_le_of_nodup hconsts
  have hlength' := length_le_of_nodup hnames
  rw [List.length_map] at hlength'
  have hindices := decodes_sequence (by omega : code.consts.length < 2 ^ 64)
    fun index _ => decodes_loadIndex index
  have hnamed := decodes_sequence (by omega : code.names.length < 2 ^ 64) fun entry hentry =>
    decodes_loadName (h.names entry hentry)
  rw [dump, List.append_assoc, List.append_assoc, List.append_assoc]
  unfold decoder
  refine (decodes_nat64 h.tape).bind (htape.bind (hindices.bind (hnamed.bind
    ((decodes_loadIndex code.maxStack).finish fun rest => ?_))))
  dsimp only
  rw [foldl_putName [] hnames]
  rfl

end Code

/-! ## Code generation -/

/-- A draft that tells its constants and its names apart. -/
structure Draft.Tidy (d : Draft) : Prop where
  consts : d.consts.Pairwise (· < ·)
  names : (d.names.map (·.1)).Nodup

/-- An index that is entered in its place keeps the others ascending. -/
theorem Draft.pairwise_insertConst (index : UInt16) {consts : List UInt16}
    (h : consts.Pairwise (· < ·)) : (insertConst index consts).Pairwise (· < ·) := by
  induction consts with
  | nil => exact List.pairwise_singleton _ index
  | cons other rest ih =>
    obtain ⟨hfirst, hrest⟩ := List.pairwise_cons.mp h
    rw [insertConst]
    split
    · next hlt =>
      refine List.pairwise_cons.mpr ⟨fun word hword => ?_, h⟩
      obtain rfl | hword := List.mem_cons.mp hword
      · exact hlt
      · exact UInt16.lt_trans hlt (hfirst word hword)
    · next hle =>
      split
      · exact h
      · next hne =>
        have hlt : other < index := by
          rw [UInt16.lt_iff_toNat_lt] at hle ⊢
          have hne' : index.toNat ≠ other.toNat := fun heq => hne (UInt16.toNat_inj.mp heq)
          omega
        refine List.pairwise_cons.mpr ⟨fun word hword => ?_, ih hrest⟩
        obtain rfl | hold := mem_insertConst hword
        · exact hlt
        · exact hfirst word hold

/-- An index is named once. -/
theorem Draft.nodup_keepName (index : UInt16) (name : String) {names : List (UInt16 × String)}
    (h : (names.map (·.1)).Nodup) : ((keepName index name names).map (·.1)).Nodup := by
  unfold keepName
  split
  · exact h
  · next hnone =>
    have hnew : index ∉ names.map (·.1) := by
      intro hmem
      obtain ⟨entry, hentry, rfl⟩ := List.mem_map.mp hmem
      have hunknown := List.lookup_eq_none_iff.mp (Option.not_isSome_iff_eq_none.mp hnone)
      exact bne_iff_ne.mp (hunknown entry hentry) rfl
    rw [List.map_append, List.map_singleton]
    exact List.nodup_append.mpr ⟨h, List.nodup_singleton index, fun known hknown other hother => by
      obtain rfl := List.mem_singleton.mp hother
      exact fun heq => hnew (heq ▸ hknown)⟩

/-- A step of code generation that keeps drafts tidy. -/
abbrev Drafting.Tidy {α : Type} (m : Drafting α) : Prop := Keeps Draft.Tidy m

/-- Fast operations that keep drafts tidy, as all steps do that they are made of. -/
def FastOps.Tidy (fastOps : FastOps) : Prop :=
  ∀ name fast, fastOps.lookup name = some fast → ∀ symbols args (writeArgs : Drafting Unit),
    writeArgs.Tidy → (fast symbols args writeArgs).Tidy

namespace Drafting

theorem emit_tidy (op : Opcode) (operands : Operands) : (emit op operands).Tidy :=
  Keeps.modify fun _ h => ⟨h.consts, h.names⟩

theorem refer_tidy (index : UInt16) : (refer index).Tidy :=
  Keeps.modify fun _ h => ⟨Draft.pairwise_insertConst index h.consts, h.names⟩

theorem intern_tidy (op : ObjectPool → Except PoolError ObjectIndex × ObjectPool) :
    (intern op).Tidy := by
  intro d h
  obtain ⟨pool, assembler, consts, names⟩ := d
  rw [intern]
  rcases op pool with ⟨e | index, pool'⟩
  · exact ⟨h.consts, h.names⟩
  · exact ⟨h.consts, h.names⟩

theorem pushConstant_tidy (op : ObjectPool → Except PoolError ObjectIndex × ObjectPool) :
    (pushConstant op).Tidy :=
  .bind (intern_tidy op) fun index => .bind (refer_tidy index) fun _ => emit_tidy _ _

theorem symbol_tidy (symbols : SymbolTable) (id : SymbolId) : (symbol symbols id).Tidy := by
  unfold symbol
  split
  · exact .pure _
  · exact .throw _

theorem pointerOf_tidy (symbols : SymbolTable) (id : SymbolId) : (pointerOf symbols id).Tidy := by
  refine .bind (symbol_tidy symbols id) fun known => .bind .get fun d => ?_
  split
  · exact .throw _
  · exact .bind (refer_tidy _) fun _ =>
      .bind (.modify fun _ h => ⟨h.consts, Draft.nodup_keepName _ _ h.names⟩) fun _ => .pure _

theorem pushIdentifier_tidy (symbols : SymbolTable) (id : SymbolId) :
    (pushIdentifier symbols id).Tidy := by
  refine .bind (symbol_tidy symbols id) fun known => ?_
  split
  · exact .bind (pointerOf_tidy symbols id) fun _ => .bind (emit_tidy _ _) fun _ => .pure _
  · exact .throw _

theorem operandCount_tidy (nodes : List Node) : (operandCount nodes).Tidy := by
  unfold operandCount
  dsimp only
  split
  · exact .pure _
  · exact .throw _

theorem calleeName_tidy (symbols : SymbolTable) (target : Node) (count : Nat) :
    (calleeName symbols target count).Tidy := by
  unfold calleeName
  split
  · exact .throw _
  · refine .bind (symbol_tidy symbols _) fun known => .bind .get fun d => ?_
    split
    · exact .throw _
    · split
      · exact .pure _
      · exact .throw _

/-- Writing code keeps a draft tidy, also where it fails. -/
theorem upkeep_tidy (symbols : SymbolTable) :
    Upkeep Tidy symbols (fun _ => True) fun _ => True where
  pure := .pure
  bind := .bind
  emit := emit_tidy
  count := operandCount_tidy
  number _ := pushConstant_tidy _
  text _ := pushConstant_tidy _
  identifier _ := pushIdentifier_tidy symbols _
  pointer _ := pointerOf_tidy symbols _
  callee _ hf := .bind (calleeName_tidy symbols _ _) fun callee => hf callee trivial

end Drafting

namespace FastOps

theorem Tidy.uphold {fastOps : FastOps} (hf : fastOps.Tidy) (symbols : SymbolTable) :
    fastOps.Uphold Drafting.Tidy symbols fun _ => True :=
  fun name fast hfast _ _ _ hargs => hf name fast hfast symbols _ _ hargs

theorem standard_tidy : standard.Tidy :=
  fun name fast hfast symbols _ _ hargs => (Drafting.upkeep_tidy symbols).standard name fast hfast
    (fun arg _ => arg.mentions_of_forall fun _ => trivial) hargs

end FastOps

/-- A code that is compiled comes back from its snapshot. -/
theorem Node.compile_lossless {node : Node} {symbols : SymbolTable} {fastOps : FastOps}
    {pool : ObjectPool} {code : Code} (hf : fastOps.Tidy)
    (h : (node.compile symbols fastOps pool).1 = .ok code) (hcode : code.Addressable) :
    Lossless Code.dump Code.load code := by
  have htidy : (Drafting.visit symbols fastOps node (.start pool)).2.Tidy :=
    (Drafting.upkeep_tidy symbols).visit (hf.uphold symbols) node
      (node.mentions_of_forall fun _ => trivial) (.start pool) ⟨List.Pairwise.nil, List.nodup_nil⟩
  unfold Node.compile at h
  rcases hvisit : (Drafting.visit symbols fastOps node).run.run (.start pool) with
    ⟨e | ⟨⟩, draft⟩ <;>
    rw [hvisit] at h <;>
    rw [show Drafting.visit symbols fastOps node (.start pool) = _ from hvisit] at htidy
  · exact absurd h nofun
  · obtain rfl := Except.ok.inj h
    exact (Code.decodes_decoder hcode (htidy.consts.imp fun hlt => UInt16.ne_of_lt hlt)
      htidy.names).lossless

/-- Snapshots are lossless, and no part of one is taken for a whole: those of the tables that
are frozen from any pool that the operations make, and those of the codes that are compiled
from any node. -/
theorem snapshots_lossless :
    (∀ pool : ObjectPool, pool.Made → Lossless ObjectTable.dump ObjectTable.load pool.freeze) ∧
      ∀ (node : Node) (symbols : SymbolTable) (fastOps : FastOps) (pool : ObjectPool) (code : Code),
        fastOps.Tidy → (node.compile symbols fastOps pool).1 = .ok code → code.Addressable →
          Lossless Code.dump Code.load code :=
  ⟨fun _ hmade => hmade.bounded.freeze_lossless,
    fun _ _ _ _ _ hf hcompile hcode => Node.compile_lossless hf hcompile hcode⟩

/-- A pool with a function, a token and a text that is not ASCII, from which another text was
taken back. -/
def chest : ObjectPool :=
  let functions := (ObjectPool.empty.define 0 (.ofPointer ⟨.function, 0⟩) ⟨"has", 2⟩).2
  let tokens := (functions.associate 1 (.ofPointer ⟨.token, 1⟩)).2
  let texts := (tokens.internString "Größe").2
  (texts.internString "Kokiri").2.rollback texts.checkpoint

theorem chest_made : chest.Made := by
  have hsignature : Signature.Bounded ⟨"has", 2⟩ := ⟨by decide, by decide, by decide⟩
  have hfunctions := ObjectPool.Made.empty.define 0 (.ofPointer ⟨.function, 0⟩) hsignature
  have htexts := (hfunctions.associate 1 (.ofPointer ⟨.token, 1⟩)).internString "Größe"
  exact htexts.undo (htexts.internString "Kokiri") (ObjectPool.internString_interns _ _).toGrows

def chestSymbols : SymbolTable :=
  ((SymbolTable.empty.declare "has" .builtInFunction).2.declare "Sword" .token).2

def chestRule : Node := .invoke (.identifier 0) [.identifier 1, .number (.ofNat 300)]

def chestCode : Code :=
  ⟨⟨#[35, 1, 0, 35, 3, 0, 35, 0, 0, 81, 2, 0]⟩, [0, 1, 3], [(1, "Sword"), (0, "has")], 3⟩

set_option maxRecDepth 4000 in
/-- The table and the code come back, with the names in the order of the code. -/
theorem chest_lossless :
    (chestRule.compile chestSymbols .standard chest).1 = .ok chestCode ∧
      Lossless ObjectTable.dump ObjectTable.load chest.freeze ∧
        Lossless Code.dump Code.load chestCode := by
  have hcompile : (chestRule.compile chestSymbols .standard chest).1 =
      .ok chestCode := by decide +kernel
  have hcode : chestCode.Addressable := ⟨by decide, by decide⟩
  exact ⟨hcompile, snapshots_lossless.1 chest chest_made,
    snapshots_lossless.2 chestRule chestSymbols .standard chest chestCode FastOps.standard_tidy
      hcompile hcode⟩

end Passage
