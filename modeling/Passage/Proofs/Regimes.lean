import Passage.Proofs.Junctions
import Passage.Proofs.Nesting

/-!
# Steps along a regime

What is said of a node is often said of it in a world: that its symbols are declared, say, or
that some pass would leave it alone. It is still true of the node in the worlds that come
later, if these have enough in common with the earlier one. A `Regime` fixes what that is, and
`Regime.Leads` says of a step what is true of its answer in the world that the step leaves;
what was true before may be used, since it is true there as well.

`Rules.Lead` is the same about the parts of a pass, and `Rules.Lead.transform` makes the
induction over nodes once.
-/

namespace Passage

variable {ε σ α β : Type}

/-- How states follow one another: what holds in all of them, what a state has in common with
those before it, and what holds where a step fails. -/
structure Regime (σ ε : Type) where
  holds : σ → Prop
  onward : σ → σ → Prop
  fails : ε → σ → Prop
  advances : Advances onward

namespace Regime

/-- From every state that comes behind the first one, the step leads further on, and what it
answers satisfies `Q` there, unless the step fails as it may. -/
def Leads (G : Regime σ ε) (first : σ) (Q : σ → α → Prop) (m : ExceptT ε (StateM σ) α) : Prop :=
  ∀ s, G.holds s → G.onward first s →
    (∀ e s', m s = (.error e, s') → G.fails e s') ∧
      ∀ a s', m s = (.ok a, s') → G.holds s' ∧ G.onward s s' ∧ Q s' a

namespace Leads

variable {G : Regime σ ε} {first : σ} {Q : σ → α → Prop} {Q' : σ → β → Prop}

theorem pure {a : α} (h : ∀ s, G.holds s → G.onward first s → Q s a) :
    G.Leads first Q (pure a : ExceptT ε (StateM σ) α) := by
  intro s hs hon
  refine ⟨fun e s' he => absurd (congrArg Prod.fst he) nofun, fun a' s' ha => ?_⟩
  obtain ⟨rfl, rfl⟩ : a = a' ∧ s = s' :=
    ⟨Except.ok.inj (congrArg Prod.fst ha), congrArg Prod.snd ha⟩
  exact ⟨hs, G.advances.refl s, h s hs hon⟩

theorem throw {e : ε} (h : ∀ s, G.holds s → G.onward first s → G.fails e s) :
    G.Leads first Q (throw e : ExceptT ε (StateM σ) α) := by
  intro s hs hon
  refine ⟨fun e' s' he => ?_, fun a s' ha => absurd (congrArg Prod.fst ha) nofun⟩
  obtain ⟨rfl, rfl⟩ : e = e' ∧ s = s' :=
    ⟨Except.error.inj (congrArg Prod.fst he), congrArg Prod.snd he⟩
  exact h s hs hon

/-- A step behind another one begins where that one led, with what it answered. -/
theorem bind {x : ExceptT ε (StateM σ) α} {f : α → ExceptT ε (StateM σ) β}
    (hx : G.Leads first Q x)
    (hf : ∀ s a, G.holds s → G.onward first s → Q s a → G.Leads s Q' (f a)) :
    G.Leads first Q' (x >>= f) := by
  intro s hs hon
  obtain ⟨herror, hok⟩ := hx s hs hon
  rw [bind_apply]
  rcases hres : x s with ⟨e | a, s₁⟩
  · refine ⟨fun e' s' he => ?_, fun b s' hb => absurd (congrArg Prod.fst hb) nofun⟩
    obtain ⟨rfl, rfl⟩ : e = e' ∧ s₁ = s' :=
      ⟨Except.error.inj (congrArg Prod.fst he), congrArg Prod.snd he⟩
    exact herror e s₁ hres
  · obtain ⟨hs₁, hon₁, ha⟩ := hok a s₁ hres
    obtain ⟨herror', hok'⟩ := hf s₁ a hs₁ (G.advances.trans hon hon₁) ha s₁ hs₁ (G.advances.refl s₁)
    refine ⟨herror', fun b s' hb => ?_⟩
    obtain ⟨hs', hon', hb⟩ := hok' b s' hb
    exact ⟨hs', G.advances.trans hon₁ hon', hb⟩

/-- What leads on from all that comes behind a state, leads on from it. -/
theorem of_onward {m : ExceptT ε (StateM σ) α}
    (h : ∀ s, G.holds s → G.onward first s → G.Leads s Q m) : G.Leads first Q m :=
  fun s hs hon => h s hs hon s hs (G.advances.refl s)

/-- Reading the state answers with the state. -/
theorem get : G.Leads first (fun s a => a = s) (get : ExceptT ε (StateM σ) σ) := by
  intro s hs hon
  refine ⟨fun e s' he => absurd (congrArg Prod.fst he) nofun, fun a s' ha => ?_⟩
  obtain ⟨rfl, rfl⟩ : s = a ∧ s = s' :=
    ⟨Except.ok.inj (congrArg Prod.fst ha), congrArg Prod.snd ha⟩
  exact ⟨hs, G.advances.refl s, rfl⟩

/-- Steps in a row. -/
theorem forM_of_mem {f : α → ExceptT ε (StateM σ) PUnit} {as : List α}
    (hf : ∀ a ∈ as, ∀ s, G.Leads s (fun _ _ => True) (f a)) :
    G.Leads first (fun _ _ => True) (as.forM f) := by
  induction as generalizing first with
  | nil => exact .pure fun _ _ _ => trivial
  | cons a as ih =>
    exact .bind (hf a List.mem_cons_self first) fun s _ _ _ _ =>
      ih fun a ha => hf a (List.mem_cons_of_mem _ ha)

end Leads

end Regime

/-! ## Passes -/

theorem Transforming.symbols_leads {G : Regime World PassError} {first : World} :
    G.Leads first (fun w symbols => symbols = w.symbols) Transforming.symbols := by
  intro w hw hon
  refine ⟨fun e w' he => absurd (congrArg Prod.fst he) nofun, fun symbols w' hok => ?_⟩
  obtain ⟨rfl, rfl⟩ : w.symbols = symbols ∧ w = w' :=
    ⟨Except.ok.inj (congrArg Prod.fst hok), congrArg Prod.snd hok⟩
  exact ⟨hw, G.advances.refl w, rfl⟩

theorem Transforming.region_leads {G : Regime World PassError} {first : World} :
    G.Leads first (fun w region => region = w.context.region) Transforming.region := by
  intro w hw hon
  refine ⟨fun e w' he => absurd (congrArg Prod.fst he) nofun, fun region w' hok => ?_⟩
  obtain ⟨rfl, rfl⟩ : w.context.region = region ∧ w = w' :=
    ⟨Except.ok.inj (congrArg Prod.fst hok), congrArg Prod.snd hok⟩
  exact ⟨hw, G.advances.refl w, rfl⟩

variable {G : Regime World PassError} {p Q : World → Node → Prop}

/-- Rules that lead from parts with `Q` to a node with `Q`, where `p` is true of all that the
tree was built of. -/
structure Rules.Lead (G : Regime World PassError) (p Q : World → Node → Prop)
    (r : Rules Transforming) :
    Prop where
  anyOf : ∀ {w items}, G.holds w → (∀ item ∈ items, Q w item) → G.Leads w Q (r.anyOf items)
  every : ∀ {w items}, G.holds w → (∀ item ∈ items, Q w item) → G.Leads w Q (r.every items)
  boolean : ∀ {w} value, G.holds w → Q w (.boolean value)
  number : ∀ {w} value, G.holds w → Q w (.number value)
  compare : ∀ {w} op {lhs rhs}, G.holds w → Q w lhs → Q w rhs → G.Leads w Q (r.compare op lhs rhs)
  identifier : ∀ {w id}, G.holds w → p w (.identifier id) → G.Leads w Q (r.identifier id)
  invert : ∀ {w inner}, G.holds w → Q w inner → G.Leads w Q (r.invert inner)
  string : ∀ {w} value, G.holds w → G.Leads w Q (r.string value)
  intercept : ∀ {w target args}, G.holds w → (Node.invoke target args).Each (p w) →
    G.Leads w (fun w' taken => ∀ node, taken = some node → Q w' node) (r.intercept target args)
  invoke : ∀ {w target args}, G.holds w → Q w target → (∀ arg ∈ args, Q w arg) →
    G.Leads w Q (r.invoke target args)

/-- What is true of nodes later on. -/
def Regime.Keeps (G : Regime World PassError) (p : World → Node → Prop) : Prop :=
  ∀ ⦃w w' node⦄, G.onward w w' → p w node → p w' node

theorem Regime.Keeps.each (hp : G.Keeps p) : G.Keeps fun w node => node.Each (p w) :=
  fun _ _ _ hon h => h.imp fun hpart => hp hon hpart

namespace Rules.Lead

variable {r : Rules Transforming}

mutual

/-- What the parts of rules lead to, a transformation leads to. -/
theorem transform (hr : r.Lead G p Q) (hp : G.Keeps p) (hQ : G.Keeps Q) :
    (node : Node) → ∀ {w : World}, node.Each (p w) → G.Leads w Q (r.transform node)
  | .anyOf items, w, h => by
    cases h with | anyOf _ hitems =>
    rw [Rules.transform]
    exact .bind (transformAll hr hp hQ items hitems nofun) fun w' items hw' _ h => hr.anyOf hw' h
  | .every items, w, h => by
    cases h with | every _ hitems =>
    rw [Rules.transform]
    exact .bind (transformAll hr hp hQ items hitems nofun) fun w' items hw' _ h => hr.every hw' h
  | .boolean value, w, h => by
    rw [Rules.transform]
    exact .pure fun w' hw' _ => hr.boolean value hw'
  | .compare op lhs rhs, w, h => by
    cases h with | compare _ hlhs hrhs =>
    rw [Rules.transform]
    refine .bind (transform hr hp hQ lhs hlhs) fun w' lhs' hw' hon hl => ?_
    refine .bind (transform hr hp hQ rhs (hp.each hon hrhs)) fun w'' rhs' hw'' hon' hr' => ?_
    exact hr.compare op hw'' (hQ hon' hl) hr'
  | .identifier id, w, h => by
    rw [Rules.transform]
    exact .of_onward fun w' hw' hon => hr.identifier hw' (hp hon h.self)
  | .invert inner, w, h => by
    cases h with | invert _ hinner =>
    rw [Rules.transform]
    exact .bind (transform hr hp hQ inner hinner) fun w' inner' hw' _ h => hr.invert hw' h
  | .invoke target args, w, h => by
    rw [Rules.transform]
    have hintercept : G.Leads w (fun w' taken => ∀ node, taken = some node → Q w' node)
        (r.intercept target args) :=
      .of_onward fun w' hw' hon => hr.intercept hw' (hp.each hon h)
    refine .bind hintercept fun w₁ taken hw₁ hon₁ htaken => ?_
    cases taken with
    | some node => exact .pure fun w' _ hon => hQ hon (htaken node rfl)
    | none =>
      cases h with | invoke _ htarget hargs =>
      refine .bind (transform hr hp hQ target (hp.each hon₁ htarget)) fun w₂ target' hw₂
        hon₂ ht => ?_
      have hargs₂ := fun arg harg => hp.each hon₂ (hp.each hon₁ (hargs arg harg))
      refine .bind (transformAll hr hp hQ args hargs₂ nofun) fun w₃ args' hw₃ hon₃ ha => ?_
      exact hr.invoke hw₃ (hQ hon₃ ht) ha
  | .number value, w, h => by
    rw [Rules.transform]
    exact .pure fun w' hw' _ => hr.number value hw'
  | .string value, w, h => by
    rw [Rules.transform]
    exact .of_onward fun w' hw' _ => hr.string value hw'

theorem transformAll (hr : r.Lead G p Q) (hp : G.Keeps p) (hQ : G.Keeps Q) :
    (nodes : List Node) → ∀ {w : World} {done : List Node}, (∀ node ∈ nodes, node.Each (p w)) →
      (∀ node ∈ done, Q w node) →
      G.Leads w (fun w' nodes' => ∀ node ∈ nodes', Q w' node) (r.transformAll done nodes)
  | [], w, done, _, hdone => by
    rw [Rules.transformAll]
    exact .pure fun w' _ hon node hnode => hQ hon (hdone node (List.mem_reverse.mp hnode))
  | node :: rest, w, done, hnodes, hdone => by
    obtain ⟨hnode, hrest⟩ := List.forall_mem_cons.mp hnodes
    rw [Rules.transformAll]
    refine .bind (transform hr hp hQ node hnode) fun w' node' hw' hon h => ?_
    exact transformAll hr hp hQ rest (fun node hnode => hp.each hon (hrest node hnode))
      (List.forall_mem_cons.mpr ⟨h, fun node hnode => hQ hon (hdone node hnode)⟩)

end

end Rules.Lead

/-! ## Runs -/

namespace Pipeline

/-- Where a run stands: it has failed as it may, or `p` is true of its trees throughout. -/
structure Led (G : Regime World PassError) (p : World → Node → Prop) (r : PipelineRun)
    (w : World) : Prop where
  fails : ∀ e, r.result = .error e → G.fails e w
  holds : ∀ node, r.result = .ok node → G.holds w
  trees : ∀ node, r.result = .ok node →
    node.Each (p w) ∧ ∀ step ∈ r.done, step.node.Each (p w)

variable {scripts : Scripts} {passes : List Pass}

theorem runPasses_led (hp : G.Keeps p)
    (hpasses : ∀ pass ∈ passes, (pass.rules scripts).Lead G p fun w node => node.Each (p w))
    (round : Nat) {r : PipelineRun} {w : World} (h : Led G p r w) :
    Led G p (runPasses scripts round r w passes).1 (runPasses scripts round r w passes).2 := by
  induction passes generalizing r w with
  | nil => exact h
  | cons pass rest ih =>
    rw [runPasses]
    rcases hr : r.result with e | node
    · exact h
    · obtain ⟨hnode, hdone⟩ := h.trees node hr
      obtain ⟨herror, hok⟩ := (hpasses pass List.mem_cons_self).transform hp hp.each node hnode w
        (h.holds node hr) (G.advances.refl w)
      dsimp only
      rcases hstep : (pass.rules scripts).transform node w with ⟨e | node', w'⟩
      · refine ⟨fun e' he => ?_, fun _ h => ?_, fun _ h => ?_⟩
        · exact Except.error.inj he ▸ herror e w' hstep
        · cases h
        · cases h
      · obtain ⟨hw', hon, hnode'⟩ := hok node' w' hstep
        refine ih (fun pass hpass => hpasses pass (List.mem_cons_of_mem _ hpass))
          ⟨fun _ h => ?_, fun _ _ => hw', fun _ heq => ?_⟩
        · cases h
        · obtain rfl := Except.ok.inj heq
          exact ⟨hnode',
            List.forall_mem_cons.mpr ⟨hnode', fun step hs => hp.each hon (hdone step hs)⟩⟩

theorem runRounds_led (hp : G.Keeps p)
    (hpasses : ∀ pass ∈ passes, (pass.rules scripts).Lead G p fun w node => node.Each (p w))
    (left round : Nat) {r : PipelineRun} {w : World} (h : Led G p r w) :
    Led G p (runRounds scripts passes round r w left).1
      (runRounds scripts passes round r w left).2 := by
  induction left generalizing round r w with
  | zero => exact h
  | succ left ih =>
    rw [runRounds]
    rcases hr : r.result with e | node
    · exact h
    · exact ih (round + 1) (runPasses_led hp hpasses round h)

/-- What passes lead to, a run leads to. -/
theorem run_led (p' : Pipeline) (hp : G.Keeps p)
    (hpasses : ∀ pass ∈ p'.passes, (pass.rules scripts).Lead G p fun w node => node.Each (p w))
    {node : Node} {w : World} (hw : G.holds w) (hnode : node.Each (p w)) :
    Led G p (p'.run scripts node w).1 (p'.run scripts node w).2 := by
  rw [run_eq]
  refine runRounds_led hp hpasses _ _ ⟨fun _ h => absurd h nofun, fun _ _ => hw, fun _ heq => ?_⟩
  obtain rfl := Except.ok.inj heq
  exact ⟨hnode, nofun⟩

end Pipeline

end Passage
