import Passage.Config
import Passage.Pass.Standard
import Passage.Proofs.Joining

/-!
# Rounds keep the truth

Faithful passes run one after another, and rounds of them again and again
(`Pipeline.Faithful`). Wherever the passes run that call bare names and ask for bare items,
one round ends in a rule in which no name stands alone, however the other passes are chosen
(`Pipeline.run_rewrites`).
-/

namespace Passage

variable {r : Reading} {w : World} {alone alone' alone'' : SymbolId → Prop}

namespace Pipeline

variable {scripts : Scripts}

/-- Passes that are faithful one after another, from the names that stand alone at first to
those that do at last. -/
inductive Faithful (r : Reading) (w : World) (scripts : Scripts) :
    (SymbolId → Prop) → List Pass → (SymbolId → Prop) → Prop
  | nil {alone : SymbolId → Prop} : Faithful r w scripts alone [] alone
  | cons {alone alone' alone'' : SymbolId → Prop} {pass : Pass} {rest : List Pass} :
      (pass.rules scripts).Faithful r w alone alone' → Faithful r w scripts alone' rest alone'' →
      Faithful r w scripts alone (pass :: rest) alone''

theorem Faithful.append {passes rest : List Pass} (h : Faithful r w scripts alone passes alone')
    (h' : Faithful r w scripts alone' rest alone'') :
    Faithful r w scripts alone (passes ++ rest) alone'' := by
  induction h with
  | nil => exact h'
  | cons hpass _ ih => exact .cons hpass (ih h')

/-- Passes each of which leaves the names that stand alone. -/
theorem faithful_of_forall {passes : List Pass}
    (h : ∀ pass ∈ passes, (pass.rules scripts).Faithful r w alone alone) :
    Faithful r w scripts alone passes alone := by
  induction passes with
  | nil => exact .nil
  | cons pass rest ih =>
    obtain ⟨hpass, hrest⟩ := List.forall_mem_cons.mp h
    exact .cons hpass (ih hrest)

theorem Faithful.runPasses {passes : List Pass} (h : Faithful r w scripts alone passes alone')
    (round : Nat) (run : PipelineRun) {node : Node} (hnode : run.result = .ok node)
    (hwithin : node.Within r alone) :
    ∃ run' node', Pipeline.runPasses scripts round run w passes = (run', w) ∧
      run'.result = .ok node' ∧ node'.Within r alone' ∧ node'.truth r = node.truth r := by
  induction h generalizing run node with
  | nil => exact ⟨run, node, rfl, hnode, hwithin, rfl⟩
  | @cons _ _ _ pass rest hpass _ ih =>
    obtain ⟨node₁, hstep, hwithin₁, htruth₁⟩ := hpass.transform hwithin
    obtain ⟨run', node', hrun, hresult, hwithin', htruth'⟩ :=
      ih ⟨⟨round, pass.name, node₁⟩ :: run.done, .ok node₁⟩ rfl hwithin₁
    refine ⟨run', node', ?_, hresult, hwithin', htruth'.trans htruth₁⟩
    rw [Pipeline.runPasses, hnode]
    dsimp only
    rw [hstep]
    exact hrun

/-- Rounds that lead from the names that stand alone to fewer of them can be repeated. The
last of them decides which are left. -/
theorem Faithful.runRounds {passes : List Pass} (h : Faithful r w scripts alone passes alone')
    (hless : ∀ id, alone' id → alone id) (left round : Nat) (run : PipelineRun) {node : Node}
    (hnode : run.result = .ok node) (hwithin : node.Within r alone) :
    ∃ run' node', Pipeline.runRounds scripts passes round run w left = (run', w) ∧
      run'.result = .ok node' ∧ node'.Within r alone ∧ (0 < left → node'.Within r alone') ∧
      node'.truth r = node.truth r := by
  induction left generalizing round run node with
  | zero => exact ⟨run, node, rfl, hnode, hwithin, fun hpos => absurd hpos (Nat.lt_irrefl 0), rfl⟩
  | succ left ih =>
    obtain ⟨run₁, node₁, hround, hresult₁, hwithin₁, htruth₁⟩ := h.runPasses round run hnode hwithin
    obtain ⟨run', node', hrun, hresult, hwithin', hlast, htruth⟩ :=
      ih (round + 1) run₁ hresult₁ (hwithin₁.imp hless)
    refine ⟨run', node', ?_, hresult, hwithin', fun _ => ?_, htruth.trans htruth₁⟩
    · rw [Pipeline.runRounds, hnode]
      dsimp only
      rw [hround]
      exact hrun
    · by_cases hleft : 0 < left
      · exact hlast hleft
      · -- This was the last round.
        obtain rfl : left = 0 := by omega
        rw [Pipeline.runRounds] at hrun
        obtain rfl : run₁ = run' := congrArg Prod.fst hrun
        obtain rfl : node₁ = node' := Except.ok.inj (hresult₁.symm.trans hresult)
        exact hwithin₁

end Pipeline

/-- The passes of a round, of which those that call bare names and ask for bare items run. -/
theorem PassSwitches.enabled_eq {switches : PassSwitches} (hbare : switches.isOn .bareCalls = true)
    (hpromote : switches.isOn .promoteTokens = true) :
    switches.enabled =
      [.connections, .inlineCalls, .fold].filter switches.isOn ++ .bareCalls ::
        ([.collapseHas].filter switches.isOn ++ .promoteTokens ::
          [.settings, .compilerCalls].filter switches.isOn) := by
  have hall : PassKind.all = [PassKind.connections, .inlineCalls, .fold] ++ PassKind.bareCalls ::
      ([PassKind.collapseHas] ++ PassKind.promoteTokens :: [.settings, .compilerCalls]) := rfl
  rw [PassSwitches.enabled, hall, List.filter_append, List.filter_cons_of_pos hbare,
    List.filter_append, List.filter_cons_of_pos hpromote]

/-- A round of the standard passes, without settings and compiler functions, in which bare
names are called and bare items asked for, leaves no name alone. -/
theorem round_faithful (hr : r.Of w.symbols) (hc : r.Coherent) {switches : PassSwitches}
    (hbare : switches.isOn .bareCalls = true) (hpromote : switches.isOn .promoteTokens = true)
    (limit : Nat) (scripts : Scripts) :
    Pipeline.Faithful r w scripts (fun id => r.IsItem id ∨ r.IsFact id)
      (switches.enabled.filterMap (Pass.ofKind? limit none none)) fun _ => False := by
  have hkept : ∀ (alone : SymbolId → Prop) (kinds : List PassKind),
      (∀ kind ∈ kinds, kind = .connections ∨ kind = .inlineCalls ∨ kind = .fold ∨
        kind = .collapseHas) →
      Pipeline.Faithful r w scripts alone
        ((kinds.filter switches.isOn).filterMap (Pass.ofKind? limit none none)) alone := by
    intro alone kinds hkinds
    refine Pipeline.faithful_of_forall fun pass hpass => ?_
    obtain ⟨kind, hkind, hofKind⟩ := List.mem_filterMap.mp hpass
    obtain rfl | rfl | rfl | rfl := hkinds kind (List.mem_filter.mp hkind).1
    · obtain rfl := Option.some.inj hofKind
      exact connections_faithful hr scripts alone
    · obtain rfl := Option.some.inj hofKind
      exact inlineCalls_faithful hr limit scripts alone
    · obtain rfl := Option.some.inj hofKind
      exact fold_faithful scripts alone
    · obtain rfl := Option.some.inj hofKind
      exact collapseHas_faithful hr hc scripts alone
  have hlast : ([.settings, .compilerCalls].filter switches.isOn).filterMap
      (Pass.ofKind? limit none none) = [] := by
    refine List.filterMap_eq_nil_iff.mpr fun kind hkind => ?_
    have hmem := (List.mem_filter.mp hkind).1
    simp only [List.mem_cons, List.not_mem_nil, or_false] at hmem
    obtain rfl | rfl := hmem <;> rfl
  rw [PassSwitches.enabled_eq hbare hpromote, List.filterMap_append,
    List.filterMap_cons_some (rfl : Pass.ofKind? limit none none .bareCalls = some .bareCalls),
    List.filterMap_append,
    List.filterMap_cons_some
      (rfl : Pass.ofKind? limit none none .promoteTokens = some .promoteTokens), hlast]
  have hbareCalls :
      (Pass.bareCalls.rules scripts).Faithful r w (fun id => r.IsItem id ∨ r.IsFact id)
      fun id => (r.IsItem id ∨ r.IsFact id) ∧ r.IsItem id :=
    bareCalls_faithful hr hc scripts fun _ h => h
  have hpromoteTokens : (Pass.promoteTokens.rules scripts).Faithful r w
      (fun id => (r.IsItem id ∨ r.IsFact id) ∧ r.IsItem id) fun _ => False :=
    promoteTokens_faithful hr hc scripts fun _ h => h.2
  exact (hkept _ _ (by decide)).append
    (.cons hbareCalls ((hkept _ _ (by decide)).append (.cons hpromoteTokens .nil)))

/-- Rounds of the standard passes keep the truth of rules about items and facts, and leave
no name alone. -/
theorem Pipeline.run_rewrites (hr : r.Of w.symbols) (hc : r.Coherent) {switches : PassSwitches}
    (hbare : switches.isOn .bareCalls = true) (hpromote : switches.isOn .promoteTokens = true)
    (limit : Nat) (scripts : Scripts) {rounds : Nat} (hrounds : 1 ≤ rounds) {node : Node}
    (h : node.Within r fun id => r.IsItem id ∨ r.IsFact id) :
    ∃ run node', Pipeline.run ⟨switches.enabled.filterMap (Pass.ofKind? limit none none), rounds⟩
        scripts node w = (run, w) ∧
      run.result = .ok node' ∧ node'.Within r (fun _ => False) ∧ node'.truth r = node.truth r := by
  obtain ⟨run, node', hrun, hresult, -, hwithin, htruth⟩ :=
    (round_faithful hr hc hbare hpromote limit scripts).runRounds (fun _ => False.elim) rounds 1
      (.start node) rfl h
  exact ⟨run, node', (Pipeline.run_eq _ _ _ _).trans hrun, hresult, hwithin hrounds, htruth⟩

end Passage
