import Passage.Proofs.Generation
import Passage.Proofs.Traversal

/-!
# Taking and undoing

Connections are recorded by the pass for rules about regions, whatever becomes of the pass
(`Pass.connections_records`), and are taken all at once. `Ledger` keeps the books: what was taken
and what waits are together what waited at a mark and what was recorded since. Until connections
are taken, going back to the mark drops what was recorded since. From then on it drops nothing,
for the mark is of an earlier generation, and what was recorded behind the taking waits on. Only
where connections are taken so often that the number of the generation is that of the mark again,
as many are left as waited there, although these were taken long ago.
-/

namespace Passage

/-! ## Recording -/

theorem World.context_advances : Advances fun w w' : World => w.context.Grows w'.context where
  refl _ := .refl _
  trans := Context.Grows.trans

/-- Whatever the symbols and objects are, passes record connections, and do nothing else to the
context. -/
theorem Supports.context :
    Supports (fun _ => True) fun w w' : World => w.context.Grows w'.context where
  advances := World.context_advances
  function _ _ _ := ⟨.refl _, fun _ _ => trivial⟩
  generate := Elsewhere.generate_conducts_of World.context_advances
    (fun _ _ _ _ => ⟨.refl _, fun _ _ => trivial⟩)
    (fun _ _ _ _ => ⟨.refl _, fun _ _ => trivial⟩)
    fun origin destination placement rule w _ =>
      ⟨w.context.record_grows origin destination placement rule, fun _ _ => trivial⟩

/-- The pass for rules about regions records connections, be it that it fails or not. -/
theorem Pass.connections_records (scripts : Scripts) (node : Node) (w : World) :
    w.context.Grows (Pass.connections.apply scripts node w).2.context := by
  have hrules : (Pass.connections.rules scripts).Conduct (fun _ => True)
      fun w w' : World => w.context.Grows w'.context :=
    { Rules.conduct_default World.context_advances with intercept := Supports.context.elsewhere }
  exact (hrules.transform World.context_advances node w trivial).1

namespace Context

/-- What happens to a context. Each rule is rewritten among symbols and objects of its own. -/
inductive Move where
  | rewrite (scripts : Scripts) (symbols : SymbolTable) (pool : ObjectPool) (node : Node)
  | take
  | enter (region : Option String)

/-- A context with the connections that were taken from it, in the order of their taking. -/
structure Course where
  context : Context
  taken : Array Connection

def Course.move (r : Course) : Move → Course
  | .rewrite scripts symbols pool node =>
      { r with
        context := (Pass.connections.apply scripts node ⟨symbols, pool, r.context⟩).2.context }
  | .take => ⟨r.context.take.2, r.taken ++ r.context.take.1⟩
  | .enter region => { r with context := { r.context with region } }

/-- The course of a context that moves in order. -/
def moved (c : Context) (moves : List Move) : Course := moves.foldl Course.move ⟨c, #[]⟩

/-! ## What was taken and what waits -/

/-- How often connections are taken. -/
def takings : List Move → Nat
  | [] => 0
  | .take :: moves => takings moves + 1
  | _ :: moves => takings moves

theorem takings_eq_zero {moves : List Move} : takings moves = 0 ↔ Move.take ∉ moves := by
  induction moves with
  | nil => simp [takings]
  | cons m moves ih => cases m <;> simp [takings, ih]

/-- The course of a context from which connections were taken some number of times. -/
structure Ledger (c : Context) (times : Nat) (r : Course) : Prop where
  /-- No connection is lost, and none overtakes another. -/
  balance : ∃ recorded, r.taken ++ r.context.pending = c.pending ++ recorded
  generation : r.context.generation = c.generation + UInt32.ofNat times
  untouched : times = 0 → r.taken = #[]
  /-- The first taking takes all that waited at the mark. -/
  taken : 0 < times → c.pending.size ≤ r.taken.size

namespace Ledger

variable {c : Context} {times : Nat} {r : Course}

theorem start (c : Context) : c.Ledger 0 ⟨c, #[]⟩ where
  balance := ⟨#[], by simp⟩
  generation := (UInt32.add_zero _).symm
  untouched _ := rfl
  taken := nofun

/-- Connections that are recorded wait behind the others. -/
theorem recorded (h : c.Ledger times r) (context : Context)
    (hgeneration : context.generation = r.context.generation)
    (hpending : ∃ more, context.pending = r.context.pending ++ more) :
    c.Ledger times { r with context } where
  balance := by
    obtain ⟨recorded, hrecorded⟩ := h.balance
    obtain ⟨more, hmore⟩ := hpending
    exact ⟨recorded ++ more, by rw [hmore, ← Array.append_assoc, hrecorded, Array.append_assoc]⟩
  generation := hgeneration.trans h.generation
  untouched := h.untouched
  taken := h.taken

/-- All that wait are taken, those of the mark among them. -/
theorem take (h : c.Ledger times r) : c.Ledger (times + 1) (r.move .take) where
  balance := by
    obtain ⟨recorded, hrecorded⟩ := h.balance
    exact ⟨recorded, by rw [← hrecorded]; exact Array.append_empty⟩
  generation := by
    show r.context.generation + 1 = _
    rw [h.generation, UInt32.ofNat_add, UInt32.add_assoc]
    rfl
  untouched := nofun
  taken _ := by
    simp only [Course.move, Context.take, Array.size_append]
    -- If nothing was taken before, what waits begins with what waited at the mark.
    rcases Nat.eq_zero_or_pos times with hnone | hsome
    · obtain ⟨recorded, hrecorded⟩ := h.balance
      have hsize := congrArg Array.size hrecorded
      simp only [Array.size_append] at hsize
      omega
    · exact Nat.le_add_right_of_le (h.taken hsome)

theorem move (h : c.Ledger times r) (m : Move) : c.Ledger (times + takings [m]) (r.move m) := by
  cases m with
  | rewrite scripts symbols pool node =>
    have hgrows := Pass.connections_records scripts node ⟨symbols, pool, r.context⟩
    exact h.recorded _ hgrows.generation hgrows.pending
  | take => exact h.take
  | enter region =>
    exact h.recorded { r.context with region } rfl ⟨#[], Array.append_empty.symm⟩

theorem run (moves : List Move) (h : c.Ledger times r) :
    c.Ledger (times + takings moves) (moves.foldl Course.move r) := by
  induction moves generalizing times r with
  | nil => exact h
  | cons m moves ih =>
    have hrun := ih (h.move m)
    have htimes : times + takings [m] + takings moves = times + takings (m :: moves) := by
      cases m <;> simp only [takings] <;> omega
    rwa [htimes] at hrun

/-- The generation is that of the mark if its number is that of the mark again. -/
theorem generation_eq (h : c.Ledger times r) :
    r.context.generation = c.generation ↔ 2 ^ 32 ∣ times := by
  rw [h.generation, UInt32.add_eq_left, ← UInt32.toNat_inj, UInt32.toNat_ofNat']
  exact (Nat.dvd_iff_mod_eq_zero ..).symm

/-- In the generation of the mark, going back leaves as many as waited there. -/
theorem rollback_of_dvd (h : c.Ledger times r) (htimes : 2 ^ 32 ∣ times) :
    (r.context.rollback c.checkpoint).pending = r.context.pending.take c.pending.size := by
  rw [rollback, checkpoint, if_pos (h.generation_eq.mpr htimes)]

/-- In other generations, it leaves all that waits. -/
theorem rollback_of_not_dvd (h : c.Ledger times r) (htimes : ¬ 2 ^ 32 ∣ times) :
    (r.context.rollback c.checkpoint).pending = r.context.pending := by
  rw [rollback, checkpoint, if_neg (mt h.generation_eq.mp htimes)]

end Ledger

theorem moved_ledger (c : Context) (moves : List Move) :
    c.Ledger (takings moves) (c.moved moves) := by
  have hrun := (Ledger.start c).run moves
  rwa [Nat.zero_add] at hrun

/-- What was taken and what waits are what waited at a mark and what was recorded since. Going
back to the mark leaves just what waited there and was not taken, if nothing was taken since or
nothing waits, or if nothing waited at the mark and the number of its generation has come round
again; and only then. -/
theorem rollback_moved (c : Context) (moves : List Move) :
    (∃ recorded, (c.moved moves).taken ++ (c.moved moves).context.pending =
        c.pending ++ recorded) ∧
      (((c.moved moves).context.rollback c.checkpoint).pending =
          c.pending.drop (c.moved moves).taken.size ↔
        Move.take ∉ moves ∨ (c.moved moves).context.pending = #[] ∨
          2 ^ 32 ∣ takings moves ∧ c.pending = #[]) := by
  have h := moved_ledger c moves
  refine ⟨h.balance, ?_⟩
  rw [← takings_eq_zero]
  rcases Nat.eq_zero_or_pos (takings moves) with hnone | hsome
  · -- What waits begins with what waited at the mark, and that is what is left.
    obtain ⟨recorded, hrecorded⟩ := h.balance
    rw [h.untouched hnone, Array.empty_append] at hrecorded
    rw [h.rollback_of_dvd (hnone ▸ Nat.dvd_zero _), h.untouched hnone, hrecorded]
    simp [hnone]
  · -- A taking takes all that waited at the mark, so nothing should be left of it.
    have hall : c.pending.drop (c.moved moves).taken.size = #[] := by
      simpa using h.taken hsome
    rw [hall]
    by_cases htimes : 2 ^ 32 ∣ takings moves
    · rw [h.rollback_of_dvd htimes]
      simp only [htimes, hsome.ne', true_and, false_or]
      simp [or_comm]
    · rw [h.rollback_of_not_dvd htimes]
      simp only [htimes, hsome.ne', false_and, false_or, or_false]

/-- A context in which a connection waits. -/
def forest : Context := Context.empty.record "Forest" "t0" "p0" (.boolean true)

/-- The connection is taken, and then a rule about another region is rewritten. -/
def toTheLake : Course :=
  let symbols := (SymbolTable.empty.declare "has" .builtInFunction).2
  let lake : Node := .invoke (.identifier 1) [.string "Lake", .boolean true]
  forest.moved [.take, .rewrite .empty (symbols.declare "at" .compilerFunction).2 .empty lake]

/-- Going back keeps the connection that was recorded behind the taking. -/
theorem rollback_keeps_recorded :
    forest.pending.drop toTheLake.taken.size = #[] ∧
      ((toTheLake.context.rollback forest.checkpoint).pending.map fun connection =>
        (connection.origin, connection.generation)) = #[("Lake", 1)] := by
  have hall : (forest.pending.drop toTheLake.taken.size |>.size,
      (toTheLake.context.rollback forest.checkpoint).pending.map fun connection =>
        (connection.origin, connection.generation)) = (0, #[("Lake", 1)]) := by decide +kernel
  obtain ⟨hnone, hlake⟩ := Prod.mk.inj hall
  exact ⟨Array.eq_empty_of_size_eq_zero hnone, hlake⟩

end Context

end Passage
