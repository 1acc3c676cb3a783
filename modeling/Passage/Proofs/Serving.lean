import Passage.Proofs.Correctness
import Passage.Proofs.Entering
import Passage.Proofs.Framing
import Passage.Proofs.Lasting
import Passage.Proofs.Lowering

/-!
# Environments for rules that ask

An environment with the standard functions knows by name what asks for items. Rules whose names
are those of tokens are lowered there to nodes that ask (`Rule.Tree.Asks.lower`), with all
questions apart. However an environment was filled, its fast operations are those that its
configuration asks for, and no compiler function goes by the name of a built-in one
(`Environment.serves_of_reached`).
-/

namespace Passage

/-! ## Rules that ask -/

/-- The tree is made of names of tokens and of questions for quantities of them. -/
inductive Rule.Tree.Asks (t : SymbolTable) : Rule.Tree → Prop
  | item {name : String} {id : SymbolId} : Lowering.trick? name = none → t.Knows name .token id →
      Rule.Tree.Asks t (.identifier name)
  | has {name : String} {id : SymbolId} (quantity : Number) : Lowering.trick? name = none →
      t.Knows name .token id →
      Rule.Tree.Asks t (.call (.identifier Lowering.hasName) [.identifier name, .number quantity])
  | not {operand : Rule.Tree} : Rule.Tree.Asks t operand → Rule.Tree.Asks t (.not operand)
  | connect (op : Rule.Connective) {lhs rhs : Rule.Tree} : Rule.Tree.Asks t lhs →
      Rule.Tree.Asks t rhs → Rule.Tree.Asks t (.connect op lhs rhs)

section

variable {q : Askers} {IsItem : SymbolId → Prop} {joined : Prop} {t : SymbolTable}

/-- A node brings one item into a junction, or more. -/
theorem Node.Asking.itemsOf {node : Node} (h : node.Asking q IsItem joined) (j : Junction) :
    1 ≤ (j.itemsOf node).length ∧ ∀ part ∈ j.itemsOf node,
      part.Asking q IsItem joined ∧ ∀ inner, part ≠ j.node inner := by
  by_cases hnode : ∃ inner, node = j.node inner
  · obtain ⟨inner, rfl⟩ := hnode
    obtain ⟨hreduced, hinner⟩ := h.of_junction
    rw [Junction.itemsOf_node]
    exact ⟨Nat.le_of_succ_le hreduced.two, fun part hpart =>
      ⟨hinner part hpart, hreduced.flat part hpart⟩⟩
  · have hne : ∀ inner, node ≠ j.node inner := fun inner heq => hnode ⟨inner, heq⟩
    rw [Junction.itemsOf_of_ne hne]
    exact ⟨Nat.le_refl 1, List.forall_mem_singleton.mpr ⟨h, hne⟩⟩

/-- Two nodes that ask make up a junction that asks. -/
theorem Node.Asking.reduce_eq {lhs rhs : Node} (hlhs : lhs.Asking q IsItem joined)
    (hrhs : rhs.Asking q IsItem joined) (j : Junction) :
    j.reduce [lhs, rhs] = j.node (j.itemsOf lhs ++ j.itemsOf rhs) ∧
      (j.reduce [lhs, rhs]).Asking q IsItem joined := by
  obtain ⟨hleft, hparts⟩ := hlhs.itemsOf j
  obtain ⟨hright, hparts'⟩ := hrhs.itemsOf j
  have hall : ∀ part ∈ j.itemsOf lhs ++ j.itemsOf rhs,
      part.Asking q IsItem joined ∧ ∀ inner, part ≠ j.node inner :=
    List.forall_mem_append.mpr ⟨hparts, hparts'⟩
  have hflatten : j.flatten [lhs, rhs] = j.itemsOf lhs ++ j.itemsOf rhs := by
    rw [Junction.flatten_eq]
    · rw [List.flatMap_cons, List.flatMap_cons, List.flatMap_nil, List.append_nil]
    · exact List.forall_mem_cons.mpr ⟨fun part hpart => (hparts part hpart).2,
        List.forall_mem_singleton.mpr fun part hpart => (hparts' part hpart).2⟩
  have hreduced : j.Reduced (j.itemsOf lhs ++ j.itemsOf rhs) := by
    refine ⟨?_, fun part hpart => (hall part hpart).2, fun part hpart =>
      (hall part hpart).1.ne_boolean⟩
    rw [List.length_append]
    omega
  have hflat := Junction.flatten_of_flat hreduced.flat
  have heq : j.reduce [lhs, rhs] = j.node (j.itemsOf lhs ++ j.itemsOf rhs) := by
    rw [← hreduced.reduce_eq, Junction.reduce_of_undecided (hflatten ▸ hreduced.undecided),
      Junction.reduce_of_undecided (by rw [hflat]; exact hreduced.undecided), hflatten, hflat]
  exact ⟨heq, heq ▸ .junction hreduced fun part hpart => (hall part hpart).1⟩

open Rule.Tree in
/-- A question for a quantity is lowered to one. -/
theorem Rule.Tree.lower_has (hq : q.Of IsItem t) {name : String} {id : SymbolId}
    (htrick : Lowering.trick? name = none) (hknown : t.Knows name .token id) (quantity : Number) :
    lower (.call (.identifier Lowering.hasName) [.identifier name, .number quantity]) t =
      (.ok (.has q.has id quantity), t) := by
  have hargs : lowerAll [] [.identifier name, .number quantity] t =
      (.ok [.identifier id, .number quantity], t) := by
    rw [lowerAll, bind_ok (lower_identifier htrick hknown), lowerAll]
    rfl
  exact lower_call hq.sound (by decide) hq.knows_has hargs

open Rule.Tree in
/-- A rule that asks is lowered to a node that asks, and nothing is declared for it. -/
theorem Rule.Tree.Asks.lower (hq : q.Of IsItem t)
    (hitem : ∀ {id}, t.kindOf? id = some .token → IsItem id) {tree : Rule.Tree} (h : tree.Asks t) :
    ∃ node, tree.lower t = (.ok node, t) ∧ node.Asking q IsItem False := by
  induction h with
  | @item name id htrick hknown =>
    exact ⟨.identifier id, lower_identifier htrick hknown, .name (hitem (hknown.kindOf? hq.sound))⟩
  | @has name id quantity htrick hknown =>
    exact ⟨.has q.has id quantity, lower_has hq htrick hknown quantity,
      .has quantity (hitem (hknown.kindOf? hq.sound))⟩
  | not _ ih =>
    obtain ⟨inner, hlower, hasking⟩ := ih
    refine ⟨.invert inner, ?_, .invert hasking⟩
    rw [Rule.Tree.lower, bind_ok hlower, pure_apply]
  | connect op _ _ ihl ihr =>
    obtain ⟨lhs, hlhs, hleft⟩ := ihl
    obtain ⟨rhs, hrhs, hright⟩ := ihr
    cases op with
    | and =>
      refine ⟨.conjoin [lhs, rhs], ?_, (hleft.reduce_eq hright .every).2⟩
      rw [Rule.Tree.lower, bind_ok hlhs, bind_ok hrhs]
      rfl
    | or =>
      refine ⟨.disjoin [lhs, rhs], ?_, (hleft.reduce_eq hright .anyOf).2⟩
      rw [Rule.Tree.lower, bind_ok hlhs, bind_ok hrhs]
      rfl

end

/-! ## The functions of an environment -/

/-- The world has the functions that ask for items, under their own names. -/
structure World.Offers (q : Askers) (w : World) : Prop where
  has : w.symbols.get? q.has = some ⟨Lowering.hasName, q.has, .builtInFunction⟩ ∧
    w.pool.definitions.lookup q.has = some ⟨Lowering.hasName, 2⟩
  joining : ∀ j, w.symbols.get? (q.joining j) = some ⟨j.joining, q.joining j, .builtInFunction⟩ ∧
    w.pool.definitions.lookup (q.joining j) = some ⟨j.joining, Signature.anyCount⟩

/-- The symbol is one of a token. -/
def SymbolTable.IsItem (t : SymbolTable) (id : SymbolId) : Prop := t.kindOf? id = some .token

namespace World.Offers

variable {q : Askers} {w : World}

theorem of (h : w.Offers q) (hw : w.Sound) : q.Of w.symbols.IsItem w.symbols where
  sound := hw.symbols
  has := h.has.1
  joining j := (h.joining j).1
  item := id

/-- Where items have pointers, all is there that rules about them take. -/
theorem equipped (h : w.Offers q) (hw : w.Sound) {IsItem : SymbolId → Prop}
    (hitem : ∀ {id}, IsItem id → ∃ index, w.pool.pointers[id]? = some index) :
    q.Equipped IsItem w.pool := by
  have hcallable : ∀ {id signature count}, w.pool.definitions.lookup id = some signature →
      signature.accepts count = true → w.pool.Callable id count := by
    intro id signature count hlookup haccepts
    refine ⟨⟨signature, hlookup, haccepts⟩, ?_⟩
    exact Option.isSome_iff_exists.mp (hw.pool.definitions _ (ObjectPool.mem_of_lookup hlookup))
  exact ⟨hitem, hcallable h.has.2 rfl, fun j count => hcallable (h.joining j).2 rfl⟩

end World.Offers

namespace Environment

/-- The environment compiles rules that ask for items, with fast operations. -/
structure Serves (q : Askers) (env : Environment) : Prop where
  world : env.world.Sound
  offers : env.world.Offers q
  fastOps : env.fastOps = .enabled true
  functions : ∀ fs, env.functions = some fs →
    ∀ name ∈ [Lowering.hasName, Item.everyName, Item.anyName], fs.find? name = none

/-! ### Names of compiler functions -/

/-- The names are those of compiler functions. -/
def NamesFunctions (names : List String) (t : SymbolTable) : Prop :=
  ∀ name ∈ names, ∃ id, t.Knows name .compilerFunction id

/-- The name of a compiler function stays one. -/
theorem namesFunctions_lasting (names : List String) :
    SymbolTable.Lasting (fun _ => True) (NamesFunctions names) where
  declare := by
    intro t name kind ht h _ known hmem
    obtain ⟨id, hknown⟩ := h known hmem
    refine ⟨id, hknown.declare_of ht fun refined => ?_⟩
    cases kind <;> cases refined <;> decide
  byname := by
    intro t name ht h known hmem
    obtain ⟨id, s, hlookup, hkind, hid⟩ := h known hmem
    obtain ⟨hbound, hget⟩ := SymbolTable.names_of_lookup? ht hlookup
    refine ⟨id, s,
      SymbolTable.lookup?_of_names ((SymbolTable.bindAlias_grows _ _ _).names hbound) ?_,
      hkind, hid⟩
    rw [SymbolTable.get?_bindAlias, hget]

/-- Where names are declared, those that were declared are names of compiler functions. -/
theorem namesFunctions_of_forM {names done : List String} {env env' : Environment}
    (hs : env.world.symbols.Sound) (hdone : NamesFunctions done env.world.symbols)
    (h : (names.forM fun name => do
      let _ ← onSymbols (·.declare name .compilerFunction)) env = (.ok (), env')) :
    NamesFunctions (done ++ names) env'.world.symbols := by
  induction names generalizing done env with
  | nil =>
    obtain rfl := congrArg Prod.snd h
    rwa [List.append_nil]
  | cons name rest ih =>
    rw [List.forM] at h
    obtain ⟨_, env₁, hfirst, hrest⟩ := bind_eq_ok h
    obtain ⟨id, env₂, hdeclare, hpure⟩ := bind_eq_ok hfirst
    obtain ⟨-, rfl⟩ := pure_eq_ok hpure
    have hlasts : NamesFunctions done (env.world.symbols.declare name .compilerFunction).2 :=
      (namesFunctions_lasting done).declare name hs hdone trivial
    have hgrows := SymbolTable.declare_grows hs name .compilerFunction
    have hvalue : (env.world.symbols.declare name .compilerFunction).1 = .ok id :=
      ok_of_mapError (congrArg Prod.fst hdeclare)
    have hworld : env₂.world.symbols = (env.world.symbols.declare name .compilerFunction).2 :=
      (congrArg (fun outcome => outcome.2.world.symbols) hdeclare).symm
    rw [← hworld] at hlasts hgrows
    have hknows : env₂.world.symbols.Knows name .compilerFunction id := by
      refine SymbolTable.declare_knows_of hs (fun {known refined} => ?_)
        (Prod.ext hvalue hworld.symm)
      cases known <;> cases refined <;> decide
    have hnow : NamesFunctions (done ++ [name]) env₂.world.symbols :=
      List.forall_mem_append.mpr ⟨hlasts, List.forall_mem_singleton.mpr ⟨id, hknows⟩⟩
    have hall := ih (hgrows.sound hs) hnow hrest
    rwa [List.append_assoc] at hall

theorem withFunctions_names {functions fs : CompilerFunctions} {env : Environment}
    (hs : env.world.symbols.Sound)
    (hlasts : ∀ fs, env.functions = some fs →
      NamesFunctions fs.names (withFunctions functions env).2.world.symbols)
    (hfs : (withFunctions functions env).2.functions = some fs) :
    NamesFunctions fs.names (withFunctions functions env).2.world.symbols := by
  let declared : Compiling StageError Unit := functions.names.forM fun name => do
    let _ ← onSymbols (·.declare name .compilerFunction)
  have hkeeps : Keeps (fun e : Environment => e.functions = env.functions) declared :=
    .forM_of_mem fun _ _ => .bind (fun _ h => h) fun _ => .pure _
  have hwith : withFunctions functions env = (declared >>= fun _ =>
    modify fun env => { env with functions := some functions, pipeline := none }) env := rfl
  rcases hdeclared : declared env with ⟨e | _, env₁⟩
  · have hsame : (withFunctions functions env).2 = env₁ := by
      rw [hwith, bind_apply, hdeclared]
    have hafter := hkeeps env rfl
    rw [hdeclared] at hafter
    exact hlasts fs (hafter.symm.trans (hsame ▸ hfs))
  · have hdone : (withFunctions functions env).2 =
        { env₁ with functions := some functions, pipeline := none } := by
      rw [hwith, bind_ok hdeclared, modify_apply]
    rw [hdone] at hfs ⊢
    obtain rfl := Option.some.inj hfs
    have hnone : NamesFunctions [] env.world.symbols := List.forall_mem_nil _
    have hnames := namesFunctions_of_forM hs hnone hdeclared
    exact hnames

/-- The fast operations are those of the configuration, and the names of compiler functions are
declared as such. -/
structure Regular (env : Environment) : Prop where
  configured : env.Configured
  functions : ∀ fs, env.functions = some fs → NamesFunctions fs.names env.world.symbols

theorem regular_of_reached {answers : List Answer} {env : Environment}
    (hr : Reached (Request.Declare fun _ => True) answers env) :
    Holds (CompilerFunctions.Declare fun _ => True) (World.Lasts fun _ => True) env ∧
      env.Regular := by
  have hanything : SymbolTable.Lasting (fun _ => True) fun _ => True :=
    ⟨fun _ _ _ _ _ => trivial, fun _ _ => trivial⟩
  induction hr with
  | start config =>
      exact ⟨hanything.reached trivial (.start config), rfl, fun _ h => absurd h nofun⟩
  | @step answers env request hr hrequest ih =>
    obtain ⟨hholds, hconfigured, hfunctions⟩ := ih
    refine ⟨hanything.respond (fun _ _ => trivial) hholds hrequest fun _ _ => trivial, ?_⟩
    have hlasts : ∀ fs, env.functions = some fs →
        NamesFunctions fs.names (env.respond request).2.world.symbols := fun fs hfs =>
      ((namesFunctions_lasting fs.names).respond (fun _ _ => trivial)
        ⟨⟨hholds.world.toSound, hfunctions fs hfs⟩, hholds.ready⟩ hrequest
        fun _ _ => trivial).world.table
    have hsame : (env.respond request).2.given = env.given → (env.respond request).2.Regular := by
      intro hgiven
      constructor
      · rw [Configured, show (env.respond request).2.fastOps = env.fastOps from
          congrArg (·.2.1) hgiven, show (env.respond request).2.config = env.config from
          congrArg (·.1) hgiven]
        exact hconfigured
      · intro fs hfs
        exact hlasts fs ((congrArg (·.2.2.2.2) hgiven).symm.trans hfs)
    by_cases hscripts : ∃ declarations, request = .scripts declarations
    · obtain ⟨declarations, rfl⟩ := hscripts
      have hstands := withScripts_stands declarations env rfl
      have hkeeps : Keeps (fun e : Environment => e.functions = env.functions)
          (withScripts declarations) :=
        .bind (fun _ h => h) fun _ => .modify fun _ h => h
      exact ⟨.of_standing hconfigured hstands, fun fs hfs =>
        hlasts fs ((hkeeps env rfl).symm.trans hfs)⟩
    · by_cases hvalues : ∃ values, request = .settingValues values
      · obtain ⟨values, rfl⟩ := hvalues
        exact ⟨hconfigured, hfunctions⟩
      · by_cases hbrings : ∃ functions, request = .functions functions
        · obtain ⟨functions, rfl⟩ := hbrings
          exact ⟨.of_standing hconfigured (withFunctions_stands functions env rfl), fun fs hfs =>
            withFunctions_names hholds.world.symbols hlasts hfs⟩
        · have hsustained := hanything.sustained fun _ _ => trivial
          exact hsame (@respond_resembles env _ _ _ [] hsustained hholds request
            (fun _ h => hscripts ⟨_, h⟩) (fun _ h => hbrings ⟨_, h⟩) fun _ h => hvalues ⟨_, h⟩)

/-- An environment that was filled with the functions serves rules that ask, if fast operations
are switched on. -/
theorem serves_of_reached {answers : List Answer} {env : Environment}
    (hr : Reached (Request.Declare fun _ => True) answers env) (hfast : env.config.fastOps = true)
    {q : Askers} (hq : env.world.Offers q) : env.Serves q := by
  obtain ⟨hholds, hconfigured, hfunctions⟩ := regular_of_reached hr
  refine ⟨hholds.world.toSound, hq, ?_, fun fs hfs name hname => ?_⟩
  · rw [hconfigured, hfast]
  · have hknown : ∃ id, env.world.symbols.Knows name .builtInFunction id := by
      have hof := hq.of hholds.world.toSound
      simp only [List.mem_cons, List.not_mem_nil, or_false] at hname
      obtain rfl | rfl | rfl := hname
      · exact ⟨_, hof.knows_has⟩
      · exact ⟨_, hof.knows_joining .every⟩
      · exact ⟨_, hof.knows_joining .anyOf⟩
    obtain ⟨id, hknown⟩ := hknown
    refine Option.eq_none_iff_forall_ne_some.mpr fun function hfind => ?_
    obtain ⟨before, after, hentries, -⟩ := List.lookup_eq_some_iff.mp hfind
    have hmem : name ∈ fs.names := by
      rw [CompilerFunctions.names, hentries, List.map_append, List.map_cons]
      exact List.mem_append_right _ List.mem_cons_self
    obtain ⟨id', hfunction⟩ := hfunctions fs hfs name hmem
    exact absurd (hknown.unique hfunction).1 (by decide)

end Environment

end Passage
