import Passage.Pass.Standard
import Passage.Proofs.Growth
import Passage.Proofs.Nesting

/-!
# What passes preserve

A pass reaches the world only through the declarations of a few functions,
through the connections it generates, and through the compiler functions it
answers calls with. `Supports` lists these operations, and the theorems below say
that an assertion which they conduct is conducted by every pass, every pipeline
and every run of one. The induction over nodes is made once, in
`Rules.Conduct.transform`.
-/

namespace Passage

variable {P : World → Prop} {R : World → World → Prop}

/-- The operations on the world that every pass may use. -/
structure Supports (P : World → Prop) (R : World → World → Prop) : Prop where
  advances : Advances R
  function : ∀ name, Conducts P R (Transforming.declare name .function)
  generate : ∀ origin rule, Conducts P R (Elsewhere.generate origin rule)

/-- Rules all of whose parts conduct an assertion. -/
structure Rules.Conduct (P : World → Prop) (R : World → World → Prop) (r : Rules Transforming) :
    Prop where
  anyOf : ∀ items, Conducts P R (r.anyOf items)
  every : ∀ items, Conducts P R (r.every items)
  compare : ∀ op lhs rhs, Conducts P R (r.compare op lhs rhs)
  identifier : ∀ id, Conducts P R (r.identifier id)
  invert : ∀ inner, Conducts P R (r.invert inner)
  string : ∀ value, Conducts P R (r.string value)
  intercept : ∀ target args, Conducts P R (r.intercept target args)
  invoke : ∀ target args, Conducts P R (r.invoke target args)

/-- The rules that only rebuild. -/
theorem Rules.conduct_default (hR : Advances R) : Rules.Conduct P R {} where
  anyOf _ := .pure hR _
  every _ := .pure hR _
  compare _ _ _ := .pure hR _
  identifier _ := .pure hR _
  invert _ := .pure hR _
  string _ := .pure hR _
  intercept _ _ := .pure hR _
  invoke _ _ := .pure hR _

namespace Rules.Conduct

variable {r : Rules Transforming}

mutual

/-- What the parts of the rules conduct, a transformation conducts. -/
theorem transform (hR : Advances R) (hr : r.Conduct P R) :
    (node : Node) → Conducts P R (r.transform node)
  | .anyOf items => by
    rw [Rules.transform]
    exact .bind hR (transformAll hR hr [] items) hr.anyOf
  | .every items => by
    rw [Rules.transform]
    exact .bind hR (transformAll hR hr [] items) hr.every
  | .boolean value => by
    rw [Rules.transform]
    exact .pure hR _
  | .compare op lhs rhs => by
    rw [Rules.transform]
    exact .bind hR (transform hR hr lhs) fun lhs =>
      .bind hR (transform hR hr rhs) fun rhs => hr.compare op lhs rhs
  | .identifier id => by
    rw [Rules.transform]
    exact hr.identifier id
  | .invert inner => by
    rw [Rules.transform]
    exact .bind hR (transform hR hr inner) hr.invert
  | .invoke target args => by
    rw [Rules.transform]
    refine .bind hR (hr.intercept target args) fun taken => ?_
    cases taken with
    | some node => exact .pure hR node
    | none =>
      exact .bind hR (transform hR hr target) fun target =>
        .bind hR (transformAll hR hr [] args) fun args => hr.invoke target args
  | .number value => by
    rw [Rules.transform]
    exact .pure hR _
  | .string value => by
    rw [Rules.transform]
    exact hr.string value

theorem transformAll (hR : Advances R) (hr : r.Conduct P R) (done : List Node) :
    (nodes : List Node) → Conducts P R (r.transformAll done nodes)
  | [] => by
    rw [Rules.transformAll]
    exact .pure hR _
  | node :: rest => by
    rw [Rules.transformAll]
    exact .bind hR (transform hR hr node) fun node => transformAll hR hr (node :: done) rest

end

end Rules.Conduct

/-! ## The standard passes -/

namespace Supports

theorem symbols (h : Supports P R) : Conducts P R Transforming.symbols :=
  .bind h.advances (.get h.advances) fun _ => .pure h.advances _

theorem region (h : Supports P R) : Conducts P R Transforming.region :=
  .bind h.advances (.get h.advances) fun _ => .pure h.advances _

/-- The question for one of an item declares `has` and nothing else. -/
theorem held (h : Supports P R) (token : SymbolId) : Conducts P R (Item.held token) :=
  .bind h.advances (h.function _) fun _ => .pure h.advances _

theorem question (h : Supports P R) (name : String) (others subjects : List Node) :
    Conducts P R (Item.question name others subjects) := by
  match subjects with
  | [] => exact .pure h.advances _
  | [subject] => exact .bind h.advances (h.function _) fun _ => .pure h.advances _
  | _ :: _ :: _ => exact .bind h.advances (h.function _) fun _ => .pure h.advances _

theorem join (h : Supports P R) (name : String) (items : List Node) :
    Conducts P R (Item.join name items) :=
  .bind h.advances h.symbols fun _ => h.question _ _ _

theorem promoteIdentifier (h : Supports P R) (id : SymbolId) :
    Conducts P R (Item.promoteIdentifier id) := by
  refine .bind h.advances h.symbols fun symbols => ?_
  cases symbols.get? id with
  | none => exact .throw h.advances _
  | some symbol =>
    dsimp only
    cases Item.tokenOf? symbols symbol with
    | some token => exact h.held token
    | none => exact .pure h.advances _

theorem promoteString (h : Supports P R) (value : String) :
    Conducts P R (Item.promoteString value) := by
  refine .bind h.advances h.symbols fun symbols => ?_
  cases Item.tokenNamed? symbols value with
  | some token => exact h.held token
  | none => exact .pure h.advances _

theorem bareCall (h : Supports P R) (scripts : Scripts) (id : SymbolId) :
    Conducts P R (BareCall.identifier scripts id) := by
  refine .bind h.advances h.symbols fun symbols => ?_
  rcases symbols.get? id with _ | symbol
  · exact .throw h.advances _
  · dsimp only
    cases symbol.kind
    case function | scriptedFunction =>
      dsimp only
      split
      · exact .throw h.advances _
      · split
        · exact .pure h.advances _
        · exact .throw h.advances _
    all_goals exact .pure h.advances _

theorem setting (h : Supports P R) (settings : Settings) (id : SymbolId) :
    Conducts P R (SettingValue.identifier settings id) := by
  refine .bind h.advances h.symbols fun symbols => ?_
  rcases symbols.get? id with _ | symbol
  · exact .pure h.advances _
  · dsimp only
    split
    · exact .pure h.advances _
    · split
      · split
        · exact .pure h.advances _
        · exact .throw h.advances _
      · exact .throw h.advances _

theorem foldCompare (h : Supports P R) (op : Comparison) (lhs rhs : Node) :
    Conducts P R (Fold.compare op lhs rhs) := by
  unfold Fold.compare
  split
  · exact .pure h.advances _
  · exact .pure h.advances _
  · exact .throw h.advances _

theorem foldInvert (h : Supports P R) (inner : Node) : Conducts P R (Fold.invert inner) := by
  unfold Fold.invert
  split
  · exact .pure h.advances _
  · exact .pure h.advances _

theorem inRegion (h : Supports P R) (args : List Node) :
    Conducts P R (Elsewhere.inRegion args) := by
  unfold Elsewhere.inRegion
  split
  · exact h.generate _ _
  · exact .throw h.advances _
  · exact .throw h.advances _

theorem inCurrentRegion (h : Supports P R) (args : List Node) :
    Conducts P R (Elsewhere.inCurrentRegion args) := by
  unfold Elsewhere.inCurrentRegion
  split
  · refine .bind h.advances h.region fun region => ?_
    cases region with
    | some origin => exact h.generate _ _
    | none => exact .throw h.advances _
  · exact .throw h.advances _

theorem elsewhere (h : Supports P R) (target : Node) (args : List Node) :
    Conducts P R (Elsewhere.intercept target args) := by
  refine .bind h.advances h.symbols fun symbols => ?_
  dsimp only
  split
  · exact .bind h.advances (h.inRegion args) fun _ => .pure h.advances _
  · split
    · exact .bind h.advances (h.inCurrentRegion args) fun _ => .pure h.advances _
    · exact .pure h.advances _

theorem inline (h : Supports P R) (scripts : Scripts) (limit left : Nat) :
    (Inline.rules scripts limit left).Conduct P R := by
  -- The body of a function is transformed by the rules for one call less.
  have hexpand : ∀ expand : String → Node → Transforming Node,
      (∀ name body, Conducts P R (expand name body)) →
      ∀ target args, Conducts P R (Inline.intercept scripts expand target args) := by
    intro expand hexpand target args
    refine .bind h.advances h.symbols fun symbols => ?_
    split
    · exact .pure h.advances _
    · split
      · exact .bind h.advances (hexpand _ _) fun _ => .pure h.advances _
      · exact .throw h.advances _
  induction left with
  | zero =>
    exact { Rules.conduct_default h.advances with
      intercept := hexpand _ fun _ _ => .throw h.advances _ }
  | succ left ih =>
    exact { Rules.conduct_default h.advances with
      intercept := hexpand _ fun _ body => ih.transform h.advances body }

end Supports

/-- Compiler functions whose answers conduct an assertion. -/
def CompilerFunctions.Conduct (P : World → Prop) (R : World → World → Prop)
    (functions : CompilerFunctions) : Prop :=
  ∀ name function, functions.find? name = some function → ∀ args, Conducts P R (function args)

/-- A pass whose rules conduct an assertion. -/
def Pass.Conduct (P : World → Prop) (R : World → World → Prop) (pass : Pass) : Prop :=
  ∀ scripts, (pass.rules scripts).Conduct P R

theorem CompilerFunctions.Conduct.answer (h : Supports P R) {functions : CompilerFunctions}
    (hf : functions.Conduct P R) (target : Node) (args : List Node) :
    Conducts P R (functions.answer target args) := by
  refine .bind h.advances h.symbols fun symbols => ?_
  rcases hfind : functions.functionOf? symbols target with _ | function
  · exact .pure h.advances _
  · obtain ⟨name, -, hname⟩ := Option.bind_eq_some_iff.mp hfind
    exact hf name function hname args

/-- Every standard pass conducts what the operations on the world conduct. -/
theorem Pass.conduct_of_ofKind? (h : Supports P R) {inlineDepth : Nat} {settings : Option Settings}
    {functions : Option CompilerFunctions} (hf : ∀ fs, functions = some fs → fs.Conduct P R)
    {kind : PassKind} {pass : Pass}
    (hpass : Pass.ofKind? inlineDepth settings functions kind = some pass) : pass.Conduct P R := by
  have hdefault := Rules.conduct_default (P := P) h.advances
  have hkeep :
      ∀ target args, Conducts P R (Rules.keepCalls target args : Transforming (Option Node)) :=
    fun _ _ => .pure h.advances _
  intro scripts
  cases kind with
  | connections =>
    cases hpass
    exact { hdefault with intercept := h.elsewhere }
  | inlineCalls =>
    cases hpass
    exact h.inline scripts inlineDepth inlineDepth
  | fold =>
    cases hpass
    exact { hdefault with compare := h.foldCompare, invert := h.foldInvert }
  | bareCalls =>
    cases hpass
    exact { hdefault with identifier := h.bareCall scripts, intercept := hkeep }
  | collapseHas =>
    cases hpass
    exact { hdefault with
      anyOf := fun items => .bind h.advances (h.join _ items) fun _ => .pure h.advances _
      every := fun items => .bind h.advances (h.join _ items) fun _ => .pure h.advances _ }
  | promoteTokens =>
    cases hpass
    exact { hdefault with
      identifier := h.promoteIdentifier
      string := h.promoteString
      intercept := hkeep }
  | settings =>
    obtain ⟨values, -, rfl⟩ := Option.map_eq_some_iff.mp hpass
    exact { hdefault with identifier := h.setting values }
  | compilerCalls =>
    obtain ⟨fs, hfs, rfl⟩ := Option.map_eq_some_iff.mp hpass
    exact { hdefault with invoke := (hf fs hfs).answer h }

/-! ## Runs -/

namespace Pipeline

/-- What a run has done to the world, and what holds unless there was a fault. -/
def Conducted (P : World → Prop) (R : World → World → Prop) (w : World)
    (outcome : PipelineRun × World) : Prop :=
  R w outcome.2 ∧ ∀ node, outcome.1.result = .ok node → P outcome.2

theorem runPasses_conducted (hR : Advances R) (scripts : Scripts) {passes : List Pass}
    (hp : ∀ pass ∈ passes, pass.Conduct P R) (round : Nat) {r : PipelineRun} {w : World}
    (hw : ∀ node, r.result = .ok node → P w) :
    Conducted P R w (runPasses scripts round r w passes) := by
  induction passes generalizing r w with
  | nil => exact ⟨hR.refl w, hw⟩
  | cons pass rest ih =>
    rw [runPasses]
    rcases hr : r.result with e | node
    · exact ⟨hR.refl w, fun node h => absurd (hr.symm.trans h) (by simp)⟩
    · obtain ⟨hmove, hok⟩ := (hp pass List.mem_cons_self scripts).transform hR node w (hw node hr)
      dsimp only
      rcases hstep : (pass.rules scripts).transform node w with ⟨e | node', w'⟩ <;>
        rw [hstep] at hmove hok
      · exact ⟨hmove, fun _ h => absurd h (by simp)⟩
      · obtain ⟨hmove', hok'⟩ := ih (fun p h => hp p (List.mem_cons_of_mem _ h))
          (r := ⟨⟨round, pass.name, node'⟩ :: r.done, .ok node'⟩) fun _ _ => hok node' rfl
        exact ⟨hR.trans hmove hmove', hok'⟩

theorem runRounds_conducted (hR : Advances R) {scripts : Scripts} {passes : List Pass}
    (hp : ∀ pass ∈ passes, pass.Conduct P R) (left round : Nat) {r : PipelineRun} {w : World}
    (hw : ∀ node, r.result = .ok node → P w) :
    Conducted P R w (runRounds scripts passes round r w left) := by
  induction left generalizing round r w with
  | zero => exact ⟨hR.refl w, hw⟩
  | succ left ih =>
    rw [runRounds]
    rcases hr : r.result with e | node
    · exact ⟨hR.refl w, fun node h => absurd (hr.symm.trans h) (by simp)⟩
    · obtain ⟨hmove, hok⟩ := runPasses_conducted hR scripts hp round hw
      obtain ⟨hmove', hok'⟩ := ih (round + 1) hok
      exact ⟨hR.trans hmove hmove', hok'⟩

/-- A run of a pipeline conducts what its passes conduct. -/
theorem run_conducted (hR : Advances R) {p : Pipeline} (hp : ∀ pass ∈ p.passes, pass.Conduct P R)
    (scripts : Scripts) (node : Node) {w : World} (hw : P w) :
    Conducted P R w (p.run scripts node w) := by
  rw [run_eq]
  exact runRounds_conducted hR hp p.rounds 1 fun _ _ => hw

end Pipeline

end Passage
