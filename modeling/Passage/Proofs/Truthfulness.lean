import Passage.Proofs.Filling
import Passage.Proofs.Inventories
import Passage.Proofs.Lowering
import Passage.Proofs.Rounds
import Passage.Proofs.Stages

/-!
# Rules are answered truthfully

An environment that was filled with the standard functions and with tokens compiles the
text of a formula to code that answers the truth value of the formula, where the host
answers from an inventory: whatever the switches of the configuration, as long as bare names
are called and bare items asked for in at least one round (`Environment.compile_truthful`).

Parsing, lowering and the passes leave the truth value as it is and the symbols alone; the
machine evaluates what is left. What is shown here is that all of them speak of the same
reading, which is that of the host (`Environment.reading`).
-/

namespace Passage

/-! ## Names of items and facts -/

/-- The names of items in rules: tokens whose names are words, and no tricks. -/
def IsItemName (tokens : List String) (name : String) : Prop :=
  name ∈ tokens ∧ Rule.TokenKind.ofWord name = .identifier ∧ ¬"logic_".toList <+: name.toList

/-- The names of facts in rules: the standard functions that take nothing. -/
def IsFactName (name : String) : Prop := ⟨name, 0⟩ ∈ Signature.standard

/-- What every name of a fact is. -/
theorem IsFactName.forall {P : String → Prop}
    (h : ∀ signature ∈ Signature.standard, signature.params = 0 → P signature.name) {name : String}
    (hname : IsFactName name) : P name :=
  h ⟨name, 0⟩ hname rfl

theorem IsFactName.word {name : String} (h : IsFactName name) :
    Rule.TokenKind.ofWord name = .identifier :=
  IsFactName.forall (P := fun name => Rule.TokenKind.ofWord name = .identifier) (by decide) h

theorem IsFactName.trick? {name : String} (h : IsFactName name) : Lowering.trick? name = none :=
  IsFactName.forall (P := fun name => Lowering.trick? name = none) (by decide) h

theorem IsItemName.trick? {name : String} {tokens : List String} (h : IsItemName tokens name) :
    Lowering.trick? name = none :=
  Lowering.trick?_eq_none h.2.2

namespace World

/-! ## The reading of the host -/

open Classical in
/-- What the host says of the names of a world: whether it answers that a quantity is held,
and of a function that stands alone whether it is a fact. -/
noncomputable def reading (w : World) (table : ObjectTable) (host : Host) (facts : String → Bool)
    (has every any : SymbolId) : Reading where
  has := has
  every := every
  any := any
  IsItem id := ∃ name, w.symbols.IsToken (name, id) ∧
    w.pool.pointer? id = some (Elsewhere.tokenPointer id)
  IsFact id := w.symbols.kindOf? id = some .builtInFunction ∧
    ∃ name, ⟨name, 0⟩ ∈ Signature.standard ∧ w.pool.definitions.lookup id = some ⟨name, 0⟩
  holds id quantity := decide (∃ function, host.find? Lowering.hasName = some function ∧
    function table [Elsewhere.tokenPointer id, ⟨quantity.bits⟩] = .ok (.ofBool true))
  states id :=
    if w.symbols.kindOf? id = some .token then
      decide (∃ function, host.find? Lowering.hasName = some function ∧
        function table [Elsewhere.tokenPointer id, ⟨Item.one.bits⟩] = .ok (.ofBool true))
    else (w.pool.definitions.lookup id).any (facts ·.name)

variable {w : World} {table : ObjectTable} {host : Host} {check : QuantityCheck}
  {held : String → Nat}
  {facts : String → Bool} {tokens : List String} {has every any : SymbolId}

/-- The reading agrees with the inventory that the host answers from. -/
theorem holds_eq (h : host.Answers check w.symbols table held facts) {name : String}
    {item : SymbolId} (hitem : w.symbols.IsToken (name, item)) (count : Nat) :
    (w.reading table host facts has every any).holds item (.ofNat count) =
      decide (count ≤ held name) := by
  obtain ⟨function, hfind, hanswer⟩ := h.has
  refine decide_eq_decide.mpr ⟨fun ⟨function', hfind', hanswer'⟩ => ?_, fun hle => ?_⟩
  · obtain rfl := Option.some.inj (hfind.symm.trans hfind')
    have hsame := Except.ok.inj ((hanswer hitem count).symm.trans hanswer')
    have htruthy := congrArg Object.isTruthy hsame
    rw [Object.isTruthy_ofBool, Object.isTruthy_ofBool] at htruthy
    exact of_decide_eq_true htruthy
  · refine ⟨function, hfind, ?_⟩
    rw [hanswer hitem count, decide_eq_true hle]

theorem states_fact {id : SymbolId} {signature : Signature}
    (hkind : w.symbols.kindOf? id = some .builtInFunction)
    (h : w.pool.definitions.lookup id = some signature) :
    (w.reading table host facts has every any).states id = facts signature.name := by
  show (if w.symbols.kindOf? id = some .token then _ else
    (w.pool.definitions.lookup id).any (facts ·.name)) = facts signature.name
  rw [if_neg (by rw [hkind]; decide), h]
  rfl

/-- The names that questions are asked by. -/
structure Asks (w : World) (has every any : SymbolId) : Prop where
  has : w.symbols.Knows Lowering.hasName .builtInFunction has ∧
    w.pool.definitions.lookup has = some ⟨Lowering.hasName, 2⟩
  every : w.symbols.Knows Item.everyName .builtInFunction every ∧
    w.pool.definitions.lookup every = some ⟨Item.everyName, Signature.anyCount⟩
  any : w.symbols.Knows Item.anyName .builtInFunction any ∧
    w.pool.definitions.lookup any = some ⟨Item.anyName, Signature.anyCount⟩

theorem asks_of_stocks (h : w.Stocks Signature.standard tokens) :
    ∃ has every any, w.Asks has every any := by
  obtain ⟨has, hhas⟩ := h.function ⟨Lowering.hasName, 2⟩ (by decide)
  obtain ⟨every, hevery⟩ := h.function ⟨Item.everyName, Signature.anyCount⟩ (by decide)
  obtain ⟨any, hany⟩ := h.function ⟨Item.anyName, Signature.anyCount⟩ (by decide)
  exact ⟨has, every, any, hhas, hevery, hany⟩

/-- Symbols with different definitions are different. -/
theorem ne_of_definitions {p : ObjectPool} {id id' : SymbolId} {signature signature' : Signature}
    (h : p.definitions.lookup id = some signature)
    (h' : p.definitions.lookup id' = some signature') (hne : signature ≠ signature') :
    id ≠ id' := by
  rintro rfl
  exact hne (Option.some.inj (h.symm.trans h'))

/-- The reading of the host is coherent: no two functions have one definition. -/
theorem Asks.coherent (h : w.Asks has every any) (hs : w.symbols.Sound) :
    (w.reading table host facts has every any).Coherent where
  item := by
    rintro id ⟨name, htoken, -⟩
    exact if_pos (htoken.kindOf? hs)
  fact := by
    rintro id ⟨-, name, -, hlookup⟩
    have hne : ∀ {id' : SymbolId} {signature : Signature},
        w.pool.definitions.lookup id' = some signature → signature.params ≠ 0 →
        id ≠ id' := fun h' hparams =>
      ne_of_definitions hlookup h' fun heq => hparams (congrArg Signature.params heq).symm
    exact ⟨hne h.has.2 (by decide), hne h.every.2 (by decide), hne h.any.2 (by decide)⟩
  every := ne_of_definitions h.every.2 h.has.2 (by decide)
  any := ⟨ne_of_definitions h.any.2 h.has.2 (by decide),
    ne_of_definitions h.any.2 h.every.2 (by decide)⟩

/-! ## What names mean -/

/-- The names of rules mean in the environment what the host answers about them. -/
theorem reading_names (h : host.Answers check w.symbols table held facts)
    (hw : w.Stocks Signature.standard tokens) (hasks : w.Asks has every any) :
    (w.reading table host facts has every any).Names w.symbols (IsItemName tokens) IsFactName
      held facts where
  of := {
    sound := hw.symbols
    has := hasks.has.1
    every := hasks.every.1
    any := hasks.any.1
    item := fun ⟨_, htoken, _⟩ => htoken.kindOf? hw.symbols
    fact := fun hfact => hfact.1
    elsewhere := hw.elsewhere }
  coherent := hasks.coherent hw.symbols
  item {name} hname := by
    obtain ⟨id, hknown, hpointer⟩ := hw.token name hname.1
    exact ⟨hname.trick?, id, hknown, ⟨name, hknown, hpointer⟩,
      holds_eq h hknown⟩
  fact {name} hname := by
    obtain ⟨id, hknown, hlookup⟩ := hw.function ⟨name, 0⟩ hname
    have hkind := hknown.kindOf? hw.symbols
    exact ⟨hname.trick?, id, hknown, ⟨hkind, name, hname, hlookup⟩, states_fact hkind hlookup⟩

/-! ## Questions -/

/-- Names of items have the pointers of tokens. -/
theorem evaluateAll_items {m : Meaning} {items : List SymbolId}
    (h : ∀ item ∈ items, m.pool.pointer? item = some (Elsewhere.tokenPointer item)) :
    Node.evaluateAll m (items.map .identifier) = .ok (items.map Elsewhere.tokenPointer) := by
  induction items with
  | nil => rfl
  | cons item rest ih =>
    obtain ⟨hitem, hrest⟩ := List.forall_mem_cons.mp h
    rw [List.map_cons, Node.evaluateAll, Node.evaluate, hitem, ih hrest]
    rfl

/-- Items with their names. -/
theorem exists_named {items : List SymbolId}
    (h : ∀ item ∈ items, ∃ name, w.symbols.IsToken (name, item)) :
    ∃ named : List (String × SymbolId), named.map Prod.snd = items ∧
      ∀ item ∈ named, w.symbols.IsToken item := by
  induction items with
  | nil => exact ⟨[], rfl, List.forall_mem_nil _⟩
  | cons item rest ih =>
    obtain ⟨⟨name, hname⟩, hrest⟩ := List.forall_mem_cons.mp h
    obtain ⟨named, hnamed, htokens⟩ := ih hrest
    exact ⟨(name, item) :: named, congrArg (item :: ·) hnamed,
      List.forall_mem_cons.mpr ⟨hname, htokens⟩⟩

/-- Questions have the answers of the host, also when objects have been added. -/
theorem reading_agrees {pool : ObjectPool} (h : host.Answers check w.symbols pool.freeze held facts)
    (hw : w.Stocks Signature.standard tokens) (hasks : w.Asks has every any)
    (hg : w.pool.Grows pool) (fast : Bool) :
    Meaning.Agrees ⟨w.symbols, pool, host, check, fast⟩
      (w.reading pool.freeze host facts has every any) where
  holds {item quantity} hitem := by
    obtain ⟨name, htoken, hpointer⟩ := hitem
    rw [Meaning.holds]
    show (Meaning.defined (pool.pointer? item) >>= fun token =>
      Meaning.asked _ (check pool.freeze token quantity)) = _
    rw [hg.pointer? hpointer]
    show Meaning.asked _ (check pool.freeze (Elsewhere.tokenPointer (name, item).2) quantity) = _
    rw [h.check htoken, holds_eq h htoken]
    rfl
  question {target args} hq := by
    have hdefined : ∀ {id : SymbolId} {signature : Signature},
        w.pool.definitions.lookup id = some signature →
        pool.definitions.lookup id = some signature := fun h => hg.definitions ▸ h
    have hone : ∀ {named : List (String × SymbolId)}, (∀ item ∈ named, w.symbols.IsToken item) →
        named.map (fun item => decide (1 ≤ held item.1)) = named.map fun item =>
          (w.reading pool.freeze host facts has every any).holdsOne (.identifier item.2) :=
      fun hnamed => List.map_congr_left fun item hitem => (holds_eq h (hnamed item hitem) 1).symm
    have hcoherent : (w.reading pool.freeze host facts has every any).Coherent :=
      hasks.coherent hw.symbols
    cases hq with
    | @has item count hitem =>
      obtain ⟨name, htoken, hpointer⟩ := hitem
      obtain ⟨function, hfind, hanswer⟩ := h.has
      refine ⟨has, [Elsewhere.tokenPointer item, ⟨(Number.ofNat count).bits⟩], rfl, ?_, ?_⟩
      · rw [Node.evaluateAll, Node.evaluate, Node.evaluateAll, Node.evaluate]
        show (Meaning.defined (pool.pointer? item) >>= _) = _
        rw [hg.pointer? hpointer, Number.ofNumber_ofNat]
        rfl
      · refine Meaning.call_ofBool (hdefined hasks.has.2) hfind ?_
        refine (hanswer htoken count).trans
          (congrArg (Except.ok ∘ Object.ofBool) ?_)
        exact (holds_eq h htoken count).symm.trans
          (Reading.Coherent.answer_has _ _).symm
    | @every items hitems =>
      obtain ⟨named, rfl, hnamed⟩ := exists_named fun item hitem =>
        (hitems item hitem).imp fun _ h => h.1
      obtain ⟨function, hfind, hanswer⟩ := h.every
      refine ⟨every, _, rfl, evaluateAll_items fun item hitem =>
        hg.pointer? (hitems item hitem).choose_spec.2,
        Meaning.call_ofBool (hdefined hasks.every.2) hfind ?_⟩
      rw [List.map_map]
      refine (hanswer hnamed).trans (congrArg (Except.ok ∘ Object.ofBool)
        (.trans ?_ (hcoherent.answer_every _).symm))
      have hall := congrArg (List.all · id) (hone hnamed)
      rw [List.all_map, List.all_map] at hall
      rw [List.all_map, List.all_map]
      exact hall
    | @any items hitems =>
      obtain ⟨named, rfl, hnamed⟩ := exists_named fun item hitem =>
        (hitems item hitem).imp fun _ h => h.1
      obtain ⟨function, hfind, hanswer⟩ := h.any
      refine ⟨any, _, rfl, evaluateAll_items fun item hitem =>
        hg.pointer? (hitems item hitem).choose_spec.2,
        Meaning.call_ofBool (hdefined hasks.any.2) hfind ?_⟩
      rw [List.map_map]
      refine (hanswer hnamed).trans (congrArg (Except.ok ∘ Object.ofBool)
        (.trans ?_ (hcoherent.answer_any _).symm))
      have hany := congrArg (List.any · id) (hone hnamed)
      rw [List.any_map, List.any_map] at hany
      rw [List.any_map, List.any_map]
      exact hany
    | @fact id hfact =>
      obtain ⟨hkind, name, hname, hlookup⟩ := hfact
      obtain ⟨function, hfind, hanswer⟩ := h.fact hname
      refine ⟨id, [], rfl, rfl, Meaning.call_ofBool (hdefined hlookup) hfind ?_⟩
      refine hanswer.trans (congrArg (Except.ok ∘ Object.ofBool) ?_)
      rw [hcoherent.answer_fact ⟨hkind, name, hname, hlookup⟩]
      exact (states_fact hkind hlookup).symm

end World

/-! ## Compilation -/

namespace Environment

variable {config : Config} {functions : List Signature} {tokens : List String}
  {env env' : Environment}

/-- The pipeline of an environment that was filled with functions and tokens. -/
theorem Filled.kept_eq (h : Filled config functions tokens env) :
    env.kept =
      ⟨config.passes.enabled.filterMap (Pass.ofKind? config.inlineDepth none none),
        config.rounds⟩ := by
  rw [h.same]
  rfl

/-- What is left to do of the compilation of a formula: code is generated for a rule of the
same truth, in which no name stands alone. -/
theorem Filled.compile_eq_codegen (h : Filled config functions tokens env) {r : Reading}
    {IsItem IsFact : String → Prop} {held : String → Nat} {facts : String → Bool}
    (hr : r.Names env.world.symbols IsItem IsFact held facts)
    (hitem : ∀ {name}, IsItem name → Rule.TokenKind.ofWord name = .identifier)
    (hfact : ∀ {name}, IsFact name → Rule.TokenKind.ofWord name = .identifier)
    (hbare : config.passes.isOn .bareCalls = true)
    (hpromote : config.passes.isOn .promoteTokens = true) (hrounds : 1 ≤ config.rounds)
    {text : String} {ls : List Lexeme} {f : Formula} (hspelled : Spelled ls text.toList)
    (hreads : Reads IsItem IsFact .disjunction ls f) {code : Code}
    (hcompile : compile text env = (.ok code, env')) :
    ∃ node, node.Within r (fun _ => False) ∧ node.truth r = f.truth held facts ∧
      codegen node { env with pipeline := some env.kept } = (.ok code, env') := by
  obtain ⟨lowered, hlower, hwithin, htruth⟩ := Formula.lower_tree hr hreads
  have hlowered : lower text env = (.ok lowered, env) :=
    lower_eq (parse_of_reads hitem hfact hspelled hreads) hlower
  obtain ⟨run, node, hrun, hresult, hnode, hvalue⟩ :=
    Pipeline.run_rewrites hr.of hr.coherent hbare hpromote config.inlineDepth env.scripts hrounds
      hwithin
  rw [← h.kept_eq] at hrun
  refine ⟨node, hnode, hvalue.trans htruth, ?_⟩
  have hoptimized : env.optimized lowered = (run, env.world) := by
    rw [optimized, hrun]
    dsimp only
    rw [hresult]
  have hstage : optimizeStage lowered env =
      (.ok node, { env with pipeline := some env.kept }) := by
    rw [optimizeStage, optimize, optimizeTraced_eq, hoptimized]
    dsimp only
    rw [hresult]
    rfl
  rw [compile, atomically_ok (congrArg Prod.fst hcompile), bind_ok hlowered, bind_ok hstage]
    at hcompile
  exact hcompile

/-- In an environment of the standard functions and of tokens, the code of a formula answers
the truth value of the formula, if the host answers from an inventory. The passes that call
bare names and ask for bare items must run; all else is configured freely. -/
theorem compile_truthful (hbare : config.passes.isOn .bareCalls = true)
    (hpromote : config.passes.isOn .promoteTokens = true) (hrounds : 1 ≤ config.rounds)
    (hfilled : fill Signature.standard tokens (ofConfig config) = (.ok (), env))
    {text : String} {ls : List Lexeme} (hspelled : Spelled ls text.toList)
    (hexpression : IsExpression (IsItemName tokens) IsFactName ls) {code : Code}
    (hcompile : compile text env = (.ok code, env')) (hstack : code.maxStack.toNat ≤ stackLimit)
    {host : Host} {m : Machine} (hm : Machine.ofTable env'.freeze host = .ok m)
    {check : QuantityCheck} {held : String → Nat} {facts : String → Bool}
    (hanswers : host.Answers check env.world.symbols env'.freeze held facts) :
    (∃ f, Reads (IsItemName tokens) IsFactName .disjunction ls f) ∧
      ∀ f, Reads (IsItemName tokens) IsFactName .disjunction ls f →
        ((m.withCheck check).run code.tape).result = .ok (.ofBool (f.truth held facts)) := by
  refine ⟨hexpression.exists_reads, fun f hreads => ?_⟩
  have hfill := filled_of_ok hfilled
  have hstocks : env.world.Stocks Signature.standard tokens := hfill.toStocks
  obtain ⟨has, every, any, hasks⟩ := World.asks_of_stocks hstocks
  obtain ⟨node, hwithin, htruth, hcodegen⟩ :=
    hfill.compile_eq_codegen (World.reading_names hanswers hstocks hasks) (fun h => h.2.1)
      (fun h => h.word) hbare hpromote hrounds hspelled hreads hcompile
  have hfurnished : Furnished { env with pipeline := some env.kept } :=
    ⟨hfill.furnished.pool, hfill.furnished.functions, hfill.furnished.fastOps⟩
  obtain ⟨pool, hpool, henv'⟩ := codegen_eq_ok hcodegen
  have hgrows : env.world.pool.Grows pool := by
    obtain ⟨hgrows, -⟩ := Node.compile_eq_ok hfill.furnished.pool
      (show node.compile env.world.symbols (FastOps.enabled env.config.fastOps) env.world.pool =
        (.ok code, pool) from hfill.furnished.fastOps ▸ hpool)
    exact hgrows
  have hvalue : node.evaluate (env'.meaning host check) = .ok (.ofBool (f.truth held facts)) := by
    subst henv'
    rw [← htruth]
    exact hwithin.evaluate (World.reading_agrees hanswers hstocks hasks hgrows _)
  have hspoken : node.evaluate (env'.meaning host check) ≠ .error .silent := by
    rw [hvalue]
    nofun
  have hrun := hfurnished.codegen_runs hcodegen hstack hm hspoken
  rw [hvalue] at hrun
  rcases hresult : ((m.withCheck check).run code.tape).result with fault | o <;>
    rw [hresult] at hrun
  · exact absurd hrun nofun
  · exact congrArg Except.ok (Except.ok.inj hrun)

/-- An environment of the standard functions and two tokens. -/
def storehouse : Environment :=
  (fill Signature.standard ["Sword", "Boots"] (ofConfig { Config.standard with rounds := 1 })).2

theorem fill_storehouse :
    fill Signature.standard ["Sword", "Boots"] (ofConfig { Config.standard with rounds := 1 }) =
      (.ok (), storehouse) := by
  have hok : (fill Signature.standard ["Sword", "Boots"]
      (ofConfig { Config.standard with rounds := 1 })).1.toOption = some () := by decide +kernel
  unfold storehouse
  rcases hfill : fill Signature.standard ["Sword", "Boots"]
    (ofConfig { Config.standard with rounds := 1 }) with ⟨_ | _, env⟩ <;> rw [hfill] at hok
  cases hok

/-- A host of a world in which one of everything is held, and nothing is a fact. -/
def storehouseHost : Host :=
  ⟨(Lowering.hasName, fun _ args => Inventory.has (fun _ => 1) args) ::
    (Item.everyName, fun _ args => Inventory.hasEvery (fun _ => 1) args) ::
    (Item.anyName, fun _ args => Inventory.hasAnyOf (fun _ => 1) args) ::
    Signature.standard.map fun signature => (signature.name, fun _ _ => .ok (.ofBool false))⟩

/-- It answers from that inventory. -/
theorem storehouseHost_answers (symbols : SymbolTable) (table : ObjectTable) :
    storehouseHost.Answers (Inventory.check fun _ => 1) symbols table (fun _ => 1)
      fun _ => false := by
  refine Inventory.answers (fun _ _ => rfl) (fun _ => by decide) rfl rfl rfl fun name hname => ?_
  -- Only the first three functions of the host are asked about items.
  have hnames : ∀ signature ∈ Signature.standard, signature.params = 0 →
      signature.name ∈ ["is_adult", "is_child", "has_bottle", "is_starting_age"] := by decide
  have hmem : name ∈ ["is_adult", "is_child", "has_bottle", "is_starting_age"] :=
    hnames ⟨name, 0⟩ hname rfl
  simp only [List.mem_cons, List.not_mem_nil, or_false] at hmem
  obtain rfl | rfl | rfl | rfl := hmem <;> rfl

def swordNotBoots : String := "Sword and not has(Boots, 2)"

/-- Its lexemes. -/
def swordNotBootsLexemes : List Lexeme :=
  [.word "Sword", .word "and", .word "not", .word "has", .openParen, .word "Boots", .comma,
    .numeral "2", .closeParen]

theorem spelled_swordNotBoots : Spelled swordNotBootsLexemes swordNotBoots.toList := by
  have hblank : ∀ {cs : List Char}, cs.all Rule.isBlank = true →
      ∀ c ∈ cs, Rule.isBlank c = true := List.all_eq_true.mp
  have hend : ∀ {l : Lexeme} {c : Char} {rest : List Char}, Rule.isSeparator c = true →
      l.IsRun → ∀ d ∈ (c :: rest).head?, Rule.isSeparator d = true :=
    fun h _ _ hd => Option.some.inj hd ▸ h
  have hrest : Spelled [.openParen, .word "Boots", .comma, .numeral "2", .closeParen]
      ([] ++ "(".toList ++ ([] ++ "Boots".toList ++ ([] ++ ",".toList ++ ([' '] ++ "2".toList ++
        ([] ++ ")".toList ++ []))))) :=
    .lexeme (hblank rfl) trivial nofun
      (.lexeme (hblank rfl) (Lexeme.wellFormed_word rfl (by decide) (by decide)) (hend (by decide))
        (.lexeme (hblank rfl) trivial nofun
          (.lexeme (hblank (by decide)) ⟨by decide, List.all_eq_true.mp (by decide)⟩
            (hend (by decide))
            (.lexeme (hblank rfl) trivial nofun (.done (hblank rfl))))))
  have hchars : swordNotBoots.toList = [] ++ "Sword".toList ++ ([' '] ++ "and".toList ++
      ([' '] ++ "not".toList ++ ([' '] ++ "has".toList ++ ([] ++ "(".toList ++
        ([] ++ "Boots".toList ++ ([] ++ ",".toList ++ ([' '] ++ "2".toList ++
          ([] ++ ")".toList ++ [])))))))) := by decide
  rw [hchars]
  exact .lexeme (hblank rfl) (Lexeme.wellFormed_word rfl (by decide) (by decide)) (hend (by decide))
    (.lexeme (hblank (by decide)) (Lexeme.wellFormed_word rfl (by decide) (by decide))
      (hend (by decide))
      (.lexeme (hblank (by decide)) (Lexeme.wellFormed_word rfl (by decide) (by decide))
        (hend (by decide))
        (.lexeme (hblank (by decide)) (Lexeme.wellFormed_word rfl (by decide) (by decide))
          (hend (by decide))
          hrest)))

/-- In an environment of the two tokens the text compiles, and the code answers that there is a
sword, but no two boots. -/
theorem swordNotBoots_truthful :
    ∃ code env' m, compile swordNotBoots storehouse = (.ok code, env') ∧
      Machine.ofTable env'.freeze storehouseHost = .ok m ∧
      ((m.withCheck (Inventory.check fun _ => 1)).run code.tape).result = .ok (.ofBool true) := by
  have hevaluated : ((compile swordNotBoots storehouse).1.toOption.map (·.maxStack.toNat),
      (Machine.ofTable (compile swordNotBoots storehouse).2.freeze
        storehouseHost).toOption.isSome) =
      (some 2, true) := by cbv
  obtain ⟨hdepth, hmachine⟩ := Prod.mk.inj hevaluated
  have hfilled := fill_storehouse
  have hsword : IsItemName ["Sword", "Boots"] "Sword" := by unfold IsItemName; decide
  have hboots : IsItemName ["Sword", "Boots"] "Boots" := by unfold IsItemName; decide
  generalize hcompile : compile swordNotBoots storehouse = compiled at *
  obtain ⟨result, env'⟩ := compiled
  dsimp only at *
  cases result with
  | error e => exact absurd hdepth (by simp [Except.toOption])
  | ok code =>
    rcases hm : Machine.ofTable env'.freeze storehouseHost with e | m <;> rw [hm] at hmachine
    · exact absurd hmachine (by simp [Except.toOption])
    · have hstack : code.maxStack.toNat ≤ stackLimit := by
        rw [show code.maxStack.toNat = 2 from Option.some.inj hdepth]
        decide
      have hruns := compile_truthful rfl rfl (Nat.le_refl 1) hfilled spelled_swordNotBoots
        (.and (.item hsword) (.not (.quantity "2" hboots))) hcompile hstack hm
        (storehouseHost_answers _ _)
      exact ⟨code, env', m, rfl, hm, hruns.2 _ (.disjunction (.and
        (.conjunction (.literal (.item hsword)))
        (.not (.literal (.quantity "2" hboots)))))⟩

end Environment

end Passage
