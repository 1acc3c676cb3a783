import Passage.Proofs.Fallible
import Passage.Proofs.Pool
import Passage.Proofs.Symbols
import Passage.World.Basic

/-!
# Growth of the world

While a rule is compiled, the world only grows: symbols and objects are entered,
connections are recorded, and nothing else happens to it. `World.Grows` says so of
its three parts together, and `World.Grows.rollback_eq` draws the conclusion that
undoing a failing rule rests on. `World.Extends` leaves out the connections, which
are also taken while they are compiled.
-/

namespace Passage

/-! ## Contexts -/

/-- Nothing has happened to the context but that connections were recorded. -/
structure Context.Grows (c c' : Context) : Prop where
  region : c'.region = c.region
  generation : c'.generation = c.generation
  pending : ∃ more, c'.pending = c.pending ++ more

namespace Context.Grows

theorem refl (c : Context) : c.Grows c := ⟨rfl, rfl, #[], by simp⟩

theorem trans {c d e : Context} (h : c.Grows d) (h' : d.Grows e) : c.Grows e := by
  obtain ⟨more, hmore⟩ := h.pending
  obtain ⟨more', hmore'⟩ := h'.pending
  exact ⟨h'.region.trans h.region, h'.generation.trans h.generation, more ++ more', by
    rw [hmore', hmore, Array.append_assoc]⟩

end Context.Grows

theorem Context.rollback_region (c : Context) (mark : Checkpoint) :
    (c.rollback mark).region = c.region := by
  unfold rollback
  split <;> rfl

namespace Context.Grows

/-- Dropping what was recorded gives back the context. -/
theorem rollback_eq {c c' : Context} (h : c.Grows c') : c'.rollback c.checkpoint = c := by
  obtain ⟨more, hmore⟩ := h.pending
  rw [rollback, checkpoint, if_pos h.generation, hmore]
  have htake : (c.pending ++ more).take c.pending.size = c.pending := by simp
  simp only [htake]
  rw [h.region, h.generation]

end Context.Grows

theorem Context.record_grows (c : Context) (origin destination placement : String) (rule : Node) :
    c.Grows (c.record origin destination placement rule) :=
  ⟨rfl, rfl, #[⟨origin, destination, placement, rule, c.generation⟩], Array.push_eq_append⟩

/-! ## Worlds -/

namespace World

/-- A world whose symbols and objects are sound. -/
structure Sound (w : World) : Prop where
  symbols : w.symbols.Sound
  pool : w.pool.Sound

/-- Nothing has happened to the world but that names were declared, objects
entered and connections recorded. -/
structure Grows (w w' : World) : Prop where
  symbols : w.symbols.Grows w'.symbols
  pool : w.pool.Grows w'.pool
  context : w.context.Grows w'.context

/-- As `Grows`, where connections may also have been taken. -/
structure Extends (w w' : World) : Prop where
  symbols : w.symbols.Grows w'.symbols
  pool : w.pool.Grows w'.pool
  region : w'.context.region = w.context.region

theorem Grows.extends {w w' : World} (h : w.Grows w') : w.Extends w' :=
  ⟨h.symbols, h.pool, h.context.region⟩

theorem grows_advances : Advances Grows where
  refl _ := ⟨.refl _, .refl _, .refl _⟩
  trans h h' := ⟨h.symbols.trans h'.symbols, h.pool.trans h'.pool, h.context.trans h'.context⟩

theorem extends_advances : Advances Extends where
  refl _ := ⟨.refl _, .refl _, rfl⟩
  trans h h' := ⟨h.symbols.trans h'.symbols, h.pool.trans h'.pool, h'.region.trans h.region⟩

theorem Extends.sound {w w' : World} (h : w.Extends w') (hw : w.Sound) : w'.Sound :=
  ⟨h.symbols.sound hw.symbols, h.pool.sound hw.pool⟩

theorem Grows.sound {w w' : World} (h : w.Grows w') (hw : w.Sound) : w'.Sound :=
  h.extends.sound hw

theorem empty_sound : empty.Sound := ⟨SymbolTable.empty_sound, ObjectPool.empty_sound⟩

/-- Undoing gives back the symbols and objects of a world that was extended. -/
theorem Extends.rollback_eq {w w' : World} (hw : w.Sound) (h : w.Extends w') :
    w'.rollback w.checkpoint = ⟨w.symbols, w.pool, w'.context.rollback w.context.checkpoint⟩ := by
  show World.mk _ _ _ = _
  rw [show w'.symbols.rollback w.checkpoint.symbols = w.symbols from h.symbols.rollback_eq,
    show w'.pool.rollback w.checkpoint.pool = w.pool from h.pool.rollback_eq hw.pool]
  rfl

/-- Undoing gives back the world that has grown. -/
theorem Grows.rollback_eq {w w' : World} (hw : w.Sound) (h : w.Grows w') :
    w'.rollback w.checkpoint = w := by
  rw [h.extends.rollback_eq hw, h.context.rollback_eq]

/-! ## Operations on parts of the world -/

theorem onSymbols_grows {ε α : Type} {op : SymbolTable → Except ε α × SymbolTable} {w : World}
    (h : w.symbols.Grows (op w.symbols).2) : w.Grows (onSymbols op w).2 :=
  ⟨h, .refl _, .refl _⟩

theorem onPool_grows {ε α : Type} {op : ObjectPool → Except ε α × ObjectPool} {w : World}
    (h : w.pool.Grows (op w.pool).2) : w.Grows (onPool op w).2 :=
  ⟨.refl _, h, .refl _⟩

end World

end Passage
