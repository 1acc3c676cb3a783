import Passage.Proofs.Evaluation
import Passage.Proofs.Pool

/-!
# Functions and their pointers

Each built-in function of a pool has a pointer of its own: `ObjectPool.Functions` is the
invariant, and defining a further function under the next address keeps it
(`Functions.define`). A machine that can be made of the frozen table therefore calls,
behind each of these pointers, the host's function of the name under which it was
defined (`Machine.lookup_ofTable`).
-/

namespace Passage

/-! ## Binding -/

/-- What is found when only some keys are kept. -/
theorem List.lookup_filter_key {α β : Type} [DecidableEq α] (keep : α → Bool)
    (entries : List (α × β)) (a : α) :
    (entries.filter fun entry => keep entry.1).lookup a =
      if keep a then entries.lookup a else none := by
  induction entries with
  | nil => simp
  | cons entry rest ih =>
    obtain ⟨b, c⟩ := entry
    rw [List.filter_cons]
    by_cases hab : a = b
    · subst hab
      cases hkeep : keep a <;> simp [hkeep, ih]
    · cases hkeep : keep b <;> simp [ih, List.lookup_cons, beq_false_of_ne hab]

theorem List.lookup_filter_ne {α β : Type} [DecidableEq α] (entries : List (α × β)) (a b : α) :
    (entries.filter fun entry => entry.1 != a).lookup b =
      if b = a then none else entries.lookup b := by
  rw [List.lookup_filter_key (· != a)]
  by_cases hb : b = a <;> simp [hb]

/-- A host without one of its functions has its other functions. -/
theorem Host.find?_of_erase {host : Host} {name name' : String} {function : HostFunction}
    (h : (host.erase name).find? name' = some function) : host.find? name' = some function := by
  unfold Host.find? Host.erase at h
  rw [List.lookup_filter_ne] at h
  split at h
  · exact absurd h (by simp)
  · exact h

theorem Host.find?_erase_of_ne {host : Host} {name name' : String} (h : name' ≠ name) :
    (host.erase name).find? name' = host.find? name' := by
  unfold Host.find? Host.erase
  rw [List.lookup_filter_ne, if_neg h]

namespace Machine

/-- Binding binds each pointer to its function, and no other pointer. -/
theorem functions_of_bind {functions functions' : List (Object × Callable)} {host : Host}
    {entries : List (Object × Signature)} (h : bind functions host entries = .ok functions')
    (hapart : (entries.map (·.1)).Nodup) :
    (∀ pointer, pointer ∉ entries.map (·.1) →
      functions'.lookup pointer = functions.lookup pointer) ∧
    ∀ entry ∈ entries, ∃ function, host.find? entry.2.name = some function ∧
      functions'.lookup entry.1 = some ⟨entry.2, function⟩ := by
  induction entries generalizing functions host with
  | nil =>
    cases h
    exact ⟨fun _ _ => rfl, fun _ he => absurd he List.not_mem_nil⟩
  | cons entry rest ih =>
    obtain ⟨pointer, signature⟩ := entry
    rw [bind] at h
    rcases hfind : host.find? signature.name with _ | function <;> rw [hfind] at h
    · exact absurd h (by simp)
    · obtain ⟨hfresh, hrest⟩ := List.nodup_cons.mp hapart
      obtain ⟨hother, hbound⟩ := ih h hrest
      refine ⟨fun pointer' hp => ?_, fun entry he => ?_⟩
      · have hne : pointer' ≠ pointer := fun heq => hp (heq ▸ List.mem_cons_self)
        rw [hother pointer' fun hmem => hp (List.mem_cons_of_mem _ hmem), List.lookup_cons,
          beq_false_of_ne hne, List.lookup_filter_ne, if_neg hne]
      · obtain rfl | he := List.mem_cons.mp he
        · refine ⟨function, hfind, ?_⟩
          rw [hother pointer hfresh, List.lookup_cons_self]
        · obtain ⟨function', hfunction, hlookup⟩ := hbound entry he
          exact ⟨function', Host.find?_of_erase hfunction, hlookup⟩

/-- Functions of different names are bound unless the host lacks one of them. -/
theorem bind_unmapped_iff {functions : List (Object × Callable)} {host : Host}
    {entries : List (Object × Signature)} (hnames : (entries.map (·.2.name)).Nodup) :
    (∃ name, bind functions host entries = .error (.unmapped name)) ↔
      ∃ entry ∈ entries, host.find? entry.2.name = none := by
  induction entries generalizing functions host with
  | nil => exact ⟨fun ⟨_, h⟩ => absurd h nofun, fun ⟨_, h, _⟩ => absurd h List.not_mem_nil⟩
  | cons entry rest ih =>
    obtain ⟨pointer, signature⟩ := entry
    obtain ⟨hfresh, hrest⟩ := List.nodup_cons.mp hnames
    rw [bind]
    rcases hfind : host.find? signature.name with _ | function
    · exact ⟨fun _ => ⟨_, List.mem_cons_self, hfind⟩, fun _ => ⟨_, rfl⟩⟩
    · -- The function that is given away is none of the others.
      have hothers : ∀ entry ∈ rest,
          (host.erase signature.name).find? entry.2.name = host.find? entry.2.name :=
        fun entry he => Host.find?_erase_of_ne fun heq =>
          hfresh (List.mem_map.mpr ⟨entry, he, heq⟩)
      refine (ih hrest).trans ⟨fun ⟨entry, he, hnone⟩ => ?_, fun ⟨entry, he, hnone⟩ => ?_⟩
      · exact ⟨entry, List.mem_cons_of_mem _ he, (hothers entry he).symm.trans hnone⟩
      · obtain rfl | he := List.mem_cons.mp he
        · exact absurd (hfind.symm.trans hnone) nofun
        · exact ⟨entry, he, (hothers entry he).trans hnone⟩

theorem ofTable_unmapped_iff {table : ObjectTable} {host : Host}
    (hnames : (table.builtIns.map (·.2.name)).Nodup) :
    (∃ name, ofTable table host = .error (.unmapped name)) ↔
      ∃ entry ∈ table.builtIns, host.find? entry.2.name = none := by
  refine Iff.trans ?_ (@bind_unmapped_iff [] _ _ hnames)
  unfold ofTable
  rcases bind [] host table.builtIns with ⟨⟨name⟩⟩ | functions
  · exact ⟨fun _ => ⟨name, rfl⟩, fun _ => ⟨name, rfl⟩⟩
  · exact ⟨fun ⟨_, h⟩ => absurd h nofun, fun ⟨_, h⟩ => absurd h nofun⟩

theorem ofTable_eq_ok {table : ObjectTable} {host : Host} {m : Machine}
    (h : ofTable table host = .ok m) :
    m.table = table ∧ bind [] host table.builtIns = .ok m.functions := by
  unfold ofTable at h
  rcases hbind : bind [] host table.builtIns with e | functions <;> rw [hbind] at h
  · exact absurd h nofun
  · cases h
    exact ⟨rfl, rfl⟩

end Machine

/-! ## Pointers of functions -/

/-- The pointer of the function at an address. -/
def functionPointer (address : Nat) : Object := .ofPointer ⟨.function, UInt32.ofNat address⟩

/-- Pointers tell apart what they point at and which of these it is. -/
theorem Object.ofPointer_tag_address {tag tag' : PointerTag} {address address' : Nat}
    (h : address < 2 ^ 32) (h' : address' < 2 ^ 32)
    (heq : ofPointer ⟨tag, UInt32.ofNat address⟩ = ofPointer ⟨tag', UInt32.ofNat address'⟩) :
    tag = tag' ∧ address = address' := by
  have hpointer := ofPointer_injective heq
  have haddress := congrArg (fun p : Pointer => p.address.toNat) hpointer
  simp only [UInt32.toNat_ofNat'] at haddress
  rw [Nat.mod_eq_of_lt h, Nat.mod_eq_of_lt h'] at haddress
  exact ⟨congrArg Pointer.tag hpointer, haddress⟩

theorem functionPointer_injective {address address' : Nat} (h : address < 2 ^ 32)
    (h' : address' < 2 ^ 32) (heq : functionPointer address = functionPointer address') :
    address = address' :=
  (Object.ofPointer_tag_address h h' heq).2

namespace ObjectPool

/-- The functions of the pool, `count` in number, have pointers of their own. -/
structure Functions (p : ObjectPool) (count : Nat) : Prop where
  length : p.definitions.length = count
  defined : ∀ entry ∈ p.definitions, ∃ address < count,
    p.pointer? entry.1 = some (functionPointer address)
  apart : p.definitions.Pairwise fun entry entry' => p.pointer? entry.1 ≠ p.pointer? entry'.1

theorem empty_functions : empty.Functions 0 :=
  ⟨rfl, fun _ h => absurd h List.not_mem_nil, .nil⟩

theorem Retains.pointer? {p p' : ObjectPool} (h : p.Retains p') {id : SymbolId} {o : Object}
    (ho : p.pointer? id = some o) : p'.pointer? id = some o := by
  obtain ⟨index, hindex, hget⟩ := Option.bind_eq_some_iff.mp ho
  rw [ObjectPool.pointer?, h.pointers hindex]
  exact h.values hget

theorem Grows.pointer? {p p' : ObjectPool} (h : p.Grows p') {id : SymbolId} {o : Object}
    (ho : p.pointer? id = some o) : p'.pointer? id = some o := by
  obtain ⟨index, hindex, hget⟩ := Option.bind_eq_some_iff.mp ho
  rw [ObjectPool.pointer?, h.pointers hindex]
  exact h.values hget

theorem Continues.pointer? {p p' : ObjectPool} (h : p.Continues p') {id : SymbolId} {o : Object}
    (ho : p.pointer? id = some o) : p'.pointer? id = some o := by
  obtain ⟨index, hindex, hget⟩ := Option.bind_eq_some_iff.mp ho
  rw [ObjectPool.pointer?, h.pointers hindex]
  exact h.values hget

/-- A symbol that is given a pointer has it. -/
theorem pointer?_associate {p p' : ObjectPool} (hp : p.Sound) {symbol : SymbolId}
    {pointer : Object} {index : ObjectIndex} (h : p.associate symbol pointer = (.ok index, p')) :
    p'.pointer? symbol = some pointer := by
  obtain ⟨hpointer, hobject⟩ := hasPointer_associate hp h
  rw [ObjectPool.pointer?, hpointer]
  exact hobject

namespace Functions

variable {p p' : ObjectPool} {count : Nat}

theorem grown (h : p.Functions count) (hg : p.Grows p') : p'.Functions count where
  length := hg.definitions ▸ h.length
  defined := by
    rw [hg.definitions]
    intro entry he
    obtain ⟨address, hlt, hpointer⟩ := h.defined entry he
    exact ⟨address, hlt, hg.pointer? hpointer⟩
  apart := by
    rw [hg.definitions]
    refine h.apart.imp_of_mem fun {entry entry'} he he' hne heq => hne ?_
    obtain ⟨address, -, hpointer⟩ := h.defined entry he
    obtain ⟨address', -, hpointer'⟩ := h.defined entry' he'
    rw [hg.pointer? hpointer, hg.pointer? hpointer'] at heq
    rw [hpointer, hpointer', heq]

/-- There are no more functions than entries. -/
theorem count_le (h : p.Functions count) (hp : p.Sound) : count ≤ capacity := by
  let index (entry : SymbolId × Signature) : Nat := (p.pointers[entry.1]?).getD 0
  have hindex : ∀ entry ∈ p.definitions, p.pointers[entry.1]? = some (index entry) := by
    intro entry he
    have hsome := hp.definitions entry he
    obtain ⟨i, hi⟩ := Option.isSome_iff_exists.mp hsome
    simp [index, hi]
  have hapart : (p.definitions.map index).Nodup := by
    refine List.pairwise_map.mpr (h.apart.imp_of_mem fun {entry entry'} he he' hne heq => hne ?_)
    rw [ObjectPool.pointer?, ObjectPool.pointer?, hindex entry he, hindex entry' he', heq]
  have hbelow : p.definitions.map index ⊆ List.range p.values.size := by
    intro i hi
    obtain ⟨entry, he, rfl⟩ := List.mem_map.mp hi
    exact List.mem_range.mpr (hp.pointers (hindex entry he))
  have hle := (List.subperm_of_subset hapart hbelow).length_le
  rw [List.length_map, List.length_range, h.length] at hle
  exact Nat.le_trans hle hp.size

end Functions

/-- A symbol without a signature is given one behind all others. -/
theorem putDefinition_of_notMem {symbol : SymbolId} (signature : Signature)
    {definitions : List (SymbolId × Signature)} (h : ∀ entry ∈ definitions, entry.1 ≠ symbol) :
    putDefinition symbol signature definitions = definitions ++ [(symbol, signature)] := by
  induction definitions with
  | nil => rfl
  | cons entry rest ih =>
    rw [putDefinition, if_neg (h entry List.mem_cons_self),
      ih fun other ho => h other (List.mem_cons_of_mem _ ho)]
    rfl

theorem define_eq_ok {p p' : ObjectPool} {symbol : SymbolId} {pointer : Object}
    {signature : Signature} {index : ObjectIndex}
    (h : p.define symbol pointer signature = (.ok index, p')) :
    ∃ p₁, p.associate symbol pointer = (.ok index, p₁) ∧
      p' = { p₁ with definitions := putDefinition symbol signature p₁.definitions } := by
  unfold define at h
  rcases ha : p.associate symbol pointer with ⟨e | i, p₁⟩ <;> rw [ha] at h
  · exact absurd (congrArg Prod.fst h) (by simp)
  · cases h
    exact ⟨p₁, rfl, rfl⟩

/-- A definition that fails leaves the pool as it was. -/
theorem define_error {p p' : ObjectPool} (hp : p.Sound) {symbol : SymbolId} {pointer : Object}
    {signature : Signature} {e : PoolError}
    (h : p.define symbol pointer signature = (.error e, p')) : p' = p := by
  unfold define at h
  obtain ⟨e', ha⟩ | ⟨i, -, -, ha⟩ | ⟨-, -, ha⟩ := associate_cases hp symbol pointer <;>
    rw [ha] at h <;> cases h
  rfl

/-- Defining a function at the next address enters its pointer, and its signature behind all
others: a symbol that has a function already cannot be given another pointer. -/
theorem Functions.define_eq {p p' : ObjectPool} {count : Nat} (h : p.Functions count) (hp : p.Sound)
    {symbol : SymbolId} {signature : Signature} {index : ObjectIndex}
    (hd : p.define symbol (functionPointer count) signature = (.ok index, p')) :
    ∃ p₁, p.associate symbol (functionPointer count) = (.ok index, p₁) ∧ p.Grows p₁ ∧
      p₁.pointer? symbol = some (functionPointer count) ∧
      (∀ entry ∈ p₁.definitions, p₁.pointer? entry.1 ≠ p₁.pointer? symbol) ∧
      p' = { p₁ with definitions := p₁.definitions ++ [(symbol, signature)] } := by
  obtain ⟨p₁, hassociate, rfl⟩ := define_eq_ok hd
  have hgrows : p.Grows p₁ := by
    have hstep := (associate_step hp symbol (functionPointer count)).grows
    rwa [hassociate] at hstep
  have hcapacity := h.count_le hp
  unfold capacity at hcapacity
  have hnew : p₁.pointer? symbol = some (functionPointer count) :=
    pointer?_associate hp hassociate
  have hdiffer : ∀ entry ∈ p₁.definitions, p₁.pointer? entry.1 ≠ p₁.pointer? symbol := by
    intro entry he heq
    obtain ⟨address, hlt, hpointer⟩ := (h.grown hgrows).defined entry he
    rw [hpointer, hnew] at heq
    have haddress := functionPointer_injective (by omega) (by omega) (Option.some.inj heq)
    omega
  have hput := putDefinition_of_notMem signature fun entry he heq =>
    hdiffer entry he (congrArg p₁.pointer? heq)
  exact ⟨p₁, hassociate, hgrows, hnew, hdiffer, by rw [hput]⟩

/-- With a function at the next address, the functions still have pointers of their own. -/
theorem Functions.define {p p' : ObjectPool} {count : Nat} (h : p.Functions count) (hp : p.Sound)
    {symbol : SymbolId} {signature : Signature} {index : ObjectIndex}
    (hd : p.define symbol (functionPointer count) signature = (.ok index, p')) :
    p'.Functions (count + 1) := by
  obtain ⟨p₁, -, hgrows, hnew, hdiffer, rfl⟩ := h.define_eq hp hd
  have hold := h.grown hgrows
  refine ⟨?_, ?_, ?_⟩ <;> dsimp only
  · rw [List.length_append, hold.length, List.length_singleton]
  · intro entry he
    obtain he | he := List.mem_append.mp he
    · obtain ⟨address, hlt, hpointer⟩ := hold.defined entry he
      exact ⟨address, Nat.lt_succ_of_lt hlt, hpointer⟩
    · obtain rfl := List.mem_singleton.mp he
      exact ⟨count, Nat.lt_succ_self _, hnew⟩
  · refine List.pairwise_append.mpr ⟨hold.apart, List.pairwise_singleton _ _, ?_⟩
    intro entry he entry' he'
    obtain rfl := List.mem_singleton.mp he'
    exact hdiffer entry he

/-- Defining a function at the next address continues the pool. -/
theorem Functions.define_continues {p p' : ObjectPool} {count : Nat} (h : p.Functions count)
    (hp : p.Sound) {symbol : SymbolId} {signature : Signature} {index : ObjectIndex}
    (hd : p.define symbol (functionPointer count) signature = (.ok index, p')) :
    p.Continues p' := by
  obtain ⟨p₁, -, hgrows, -, -, rfl⟩ := h.define_eq hp hd
  have hcontinues := hgrows.continues
  exact ⟨hcontinues.values, hcontinues.pointers, hcontinues.texts,
    hcontinues.definitions.trans (List.prefix_append _ _)⟩

/-- A function that is defined at the next address is found, as are those before it. -/
theorem Functions.lookup_define {p p' : ObjectPool} {count : Nat} (h : p.Functions count)
    (hp : p.Sound) {symbol : SymbolId} {signature : Signature} {index : ObjectIndex}
    (hd : p.define symbol (functionPointer count) signature = (.ok index, p')) :
    p'.definitions.lookup symbol = some signature ∧
      ∀ {id known}, p.definitions.lookup id = some known →
        p'.definitions.lookup id = some known := by
  obtain ⟨p₁, -, hgrows, -, hdiffer, rfl⟩ := h.define_eq hp hd
  dsimp only
  have hfresh : p₁.definitions.lookup symbol = none :=
    List.lookup_eq_none_iff.mpr fun entry he =>
      bne_iff_ne.mpr fun heq => hdiffer entry he (congrArg p₁.pointer? heq.symm)
  refine ⟨?_, fun {id known} hknown => ?_⟩
  · rw [List.lookup_append, hfresh, Option.none_or, List.lookup_cons_self]
  · rw [List.lookup_append, hgrows.definitions, hknown, Option.some_or]

end ObjectPool

end Passage
