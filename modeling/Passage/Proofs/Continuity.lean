import Passage.Proofs.Correctness
import Passage.Proofs.Framing
import Passage.Proofs.Lockstep
import Passage.Proofs.Pointers

/-!
# Code stays valid

Code refers to objects by index, and the environment goes on after it was compiled: further
rules enter objects, failing ones are undone, names are added. `Environment.Continued` is
the invariant of all environments behind the one in which some pool was found: they go on
from that pool. So code keeps its constants, its texts and its functions, and runs to the
same result on the table of every later environment (`code_stays_valid`).
-/

namespace Passage

namespace ObjectPool

/-- The functions of the frozen table stand where they stood. -/
theorem Continues.builtIns {p p' : ObjectPool} {count : Nat} (h : p.Continues p')
    (hf : p.Functions count) : p.freeze.builtIns <+: p'.freeze.builtIns := by
  obtain ⟨more, hmore⟩ := h.definitions
  rw [freeze_builtIns, freeze_builtIns, ← hmore, List.filterMap_append]
  have hsame : p.definitions.filterMap (fun entry =>
        (p'.pointer? entry.1).map fun pointer => (pointer, entry.2)) =
      p.definitions.filterMap fun entry =>
        (p.pointer? entry.1).map fun pointer => (pointer, entry.2) := by
    refine List.filterMap_congr fun entry hentry => ?_
    obtain ⟨address, -, hpointer⟩ := hf.defined entry hentry
    rw [hpointer, h.pointer? hpointer]
  rw [hsame]
  exact List.prefix_append _ _

end ObjectPool

/-! ## Constants in later tables -/

namespace ObjectPool

variable {p p' : ObjectPool}

/-- No string stands as the pointer of a symbol. -/
def PointersOnly (p : ObjectPool) : Prop :=
  ∀ {id o}, p.pointer? id = some o → ∃ pointer, o = .ofPointer pointer

theorem category_ofPointer (pointer : Pointer) : (Object.ofPointer pointer).category = .pointer :=
  Object.category_boxed _ ⟨nofun, nofun⟩

/-- A constant is the same object in a pool that continues this one, and if it is a string
both tables read the same text behind it. -/
theorem IsConstant.kept (h : p.Continues p') (hp : p.Sound) (hp' : p'.Sound)
    (hpointers : p.PointersOnly) {index : ObjectIndex} (hindex : p.IsConstant index) :
    ∃ o, p.get? index = some o ∧ p'.get? index = some o ∧
      p.freeze.ReadsAlike p'.freeze o ∧
      (o.category = .string → ∃ text, p.freeze.decodeString o = .ok text) := by
  cases hindex with
  | @number x o hx hget =>
    have hcategory : o.category = .number := Object.category_ofNumber hx
    refine ⟨o, hget, h.values hget, ObjectTable.readsAlike_of_category ?_ _ _, ?_⟩ <;>
      rw [hcategory] <;> simp
  | text htext =>
    obtain ⟨o, hget, hlies⟩ := hp.texts htext
    obtain ⟨o', hget', hlies'⟩ := hp'.texts (h.texts htext)
    obtain rfl : o = o' := Option.some.inj ((h.values hget).symm.trans hget')
    have hread : p.freeze.decodeString o = .ok _ := Lies.decodeString hlies
    have hread' : p'.freeze.decodeString o = .ok _ := Lies.decodeString hlies'
    exact ⟨o, hget, hget', hread'.trans hread.symm, fun _ => ⟨_, hread⟩⟩
  | @pointer symbol hpointer =>
    obtain ⟨o, hget⟩ := get?_of_lt (hp.pointers hpointer)
    have ho : p.pointer? symbol = some o := by
      rw [ObjectPool.pointer?, hpointer]
      exact hget
    obtain ⟨pointer, rfl⟩ := hpointers ho
    refine ⟨_, hget, h.values hget, ObjectTable.readsAlike_of_category ?_ _ _, ?_⟩ <;>
      rw [category_ofPointer] <;> simp

end ObjectPool

/-- A host whose functions look at nothing but the decoded values of their arguments. -/
def Host.ByValue (host : Host) : Prop :=
  ∀ {name function}, host.find? name = some function → HostFunction.ByValue function

/-- Machines of the frozen tables of a pool and of one that continues it are in tandem. -/
theorem Machine.inTandem_of_continues {p p' : ObjectPool} {count count' : Nat}
    (h : p.Continues p') (hp : p.Sound) (hp' : p'.Sound) (hf : p.Functions count)
    (hf' : p'.Functions count') (hpointers : p.PointersOnly) {host : Host} (hhost : host.ByValue)
    {m m' : Machine} (hm : ofTable p.freeze host = .ok m) (hm' : ofTable p'.freeze host = .ok m')
    {check : Option QuantityCheck} (hcheck : ∀ c, check = some c → c.ByValue) :
    InTandem p { m with check } { m' with check } where
  constants hindex := by
    obtain ⟨o, hget, hget', hread, -⟩ := hindex.kept h hp hp' hpointers
    refine ⟨Nat.lt_of_lt_of_le (ObjectPool.get?_eq_some_lt hget) hp.size, o, hget, ?_⟩
    dsimp only
    rw [(ofTable_eq_ok hm).1, (ofTable_eq_ok hm').1]
    exact ⟨hget, hget', hread⟩
  functions := by
    rintro callee count pointer ⟨signature, hlookup, -⟩ hpointer
    obtain ⟨function, hfind, hfunction⟩ := hf.lookup_ofTable hm hlookup hpointer
    obtain ⟨function', hfind', hfunction'⟩ :=
      hf'.lookup_ofTable hm' (h.lookup hlookup) (h.pointer? hpointer)
    obtain rfl : function = function' := Option.some.inj (hfind.symm.trans hfind')
    exact ⟨⟨signature, function⟩, hfunction, hfunction', hhost hfind⟩
  check := rfl
  byValue := hcheck _

/-! ## Code and its pool -/

/-- The code refers to constants of the pool, and its tape is that of a node over the pool. -/
structure Code.Belongs (p : ObjectPool) (code : Code) : Prop where
  consts : ∀ word ∈ code.consts, ∃ index, word = UInt16.ofNat index ∧ p.IsConstant index
  tape : ∃ quantityAsked? node instructions, Node.Codes quantityAsked? p node instructions ∧
    code.tape = (Assembler.empty.emitAll instructions).tape

theorem Code.Belongs.continued {p p' : ObjectPool} (hc : p.Continues p') {code : Code}
    (h : code.Belongs p) : code.Belongs p' where
  consts word hword := by
    obtain ⟨index, heq, hindex⟩ := h.consts word hword
    exact ⟨index, heq, hindex.continued hc⟩
  tape := by
    obtain ⟨asked, node, instructions, hcode, htape⟩ := h.tape
    exact ⟨asked, node, instructions, hcode.continued hc, htape⟩

/-- The code that an answer hands out. -/
def Answer.codes : Answer → List Code
  | .code (.ok written) => [written]
  | .compiled (.ok source) => [source.code]
  | .batch (.ok sources) => sources.map (·.code)
  | _ => []

namespace Environment

theorem codegen_belongs {env env' : Environment} (hc : env.Configured)
    (hp : env.world.pool.Sound) {node : Node} {code : Code}
    (h : codegen node env = (.ok code, env')) : code.Belongs env'.world.pool := by
  obtain ⟨pool, hcompile, rfl⟩ := codegen_eq_ok h
  rw [hc] at hcompile
  obtain ⟨-, hconsts⟩ :=
    node.compile_interns env.world.symbols (FastOps.enabled_grow env.config.fastOps) hp
  rw [hcompile] at hconsts
  obtain ⟨-, instructions, hcode, htape, -⟩ := Node.compile_eq_ok hp hcompile
  exact ⟨hconsts code rfl, _, node, instructions, hcode, htape⟩

end Environment

namespace Sustained

open Environment (Follows Holds Configured)

variable {may : String → Symbol.Kind → Prop} {allowed : CompilerFunctions → Prop}
  {P : List String → World → Prop} {delivered : List String} {env env' : Environment}

/-- Code belongs to the pool that its compilation leaves. -/
theorem compile_belongs (h : Sustained may allowed P) (henv : Holds allowed (P delivered) env)
    (hc : env.Configured) {text : String} {code : Code}
    (hok : Environment.compile text env = (.ok code, env')) : code.Belongs env'.world.pool := by
  have hsame := Environment.atomically_ok (congrArg Prod.fst hok)
  rw [show Environment.compile text env = _ from hsame] at hok
  obtain ⟨node, env₁, hlower, hok⟩ := bind_eq_ok hok
  obtain ⟨optimized, env₂, hoptimize, hcodegen⟩ := bind_eq_ok hok
  have hstands₁ := Environment.lower_stands text env rfl
  have hholds₁ := (h.lower text env henv).2 node (congrArg Prod.fst hlower)
  rw [hlower] at hstands₁ hholds₁
  have hstands₂ := Environment.optimizeStage_stands node env₁ rfl
  have hholds₂ := (h.optimizeStage node env₁ hholds₁).2 optimized (congrArg Prod.fst hoptimize)
  rw [hoptimize] at hstands₂ hholds₂
  exact Environment.codegen_belongs ((hc.of_standing hstands₁).of_standing hstands₂)
    (h.sound hholds₂.world).pool hcodegen

theorem compileStages_belongs (h : Sustained may allowed P)
    (henv : Holds allowed (P delivered) env) (hc : env.Configured) {source : Source}
    {compiled : CompiledSource}
    (hok : Environment.compileStages source env = (.ok compiled, env')) :
    compiled.code.Belongs env'.world.pool := by
  have hrest : ∀ node env₁, Holds allowed (P delivered) env₁ → env₁.Configured → ((do
      let optimized ← Environment.optimizeIn source.origin node
      let code ← Environment.codegen optimized
      pure ⟨source, node, optimized, code⟩ : Compiling StageError CompiledSource)) env₁ =
        (.ok compiled, env') → compiled.code.Belongs env'.world.pool := by
    intro node env₁ henv₁ hc₁ hok
    obtain ⟨optimized, env₂, hoptimize, hok⟩ := bind_eq_ok hok
    obtain ⟨code, env₃, hcodegen, hpure⟩ := bind_eq_ok hok
    cases hpure
    have hstands := Environment.optimizeIn_stands source.origin node env₁ rfl
    have hholds := (h.optimizeIn source.origin node env₁ henv₁).2 optimized
      (congrArg Prod.fst hoptimize)
    rw [hoptimize] at hstands hholds
    exact Environment.codegen_belongs (hc₁.of_standing hstands) (h.sound hholds.world).pool
      hcodegen
  unfold Environment.compileStages at hok
  rcases hnode : source.node with _ | node <;> rw [hnode] at hok
  · obtain ⟨node, env₁, hlower, hok⟩ := bind_eq_ok hok
    have hstands := Environment.lower_stands source.text env rfl
    have hholds := (h.lower source.text env henv).2 node (congrArg Prod.fst hlower)
    rw [hlower] at hstands hholds
    exact hrest node env₁ hholds (hc.of_standing hstands) hok
  · exact hrest node env henv hc hok

/-- A batch keeps the code that belongs to the pool, and adds such. -/
theorem compileBatch_belongs (h : Sustained may allowed P) {connections : List Connection}
    {done done' : List CompiledSource} (henv : Holds allowed (P delivered) env)
    (hc : env.Configured) (hdone : ∀ source ∈ done, source.code.Belongs env.world.pool)
    (hok : Environment.compileBatch done connections env = (.ok done', env')) :
    ∀ source ∈ done', source.code.Belongs env'.world.pool := by
  induction connections generalizing done env with
  | nil =>
    cases hok
    exact hdone
  | cons connection rest ih =>
    rw [Environment.compileBatch_cons] at hok
    obtain ⟨compiled, env₁, hcompile, hok⟩ := bind_eq_ok hok
    obtain ⟨hfollows, hholds⟩ := h.compileStages (connection.source env.world.symbols) env henv
    have hstands := Environment.compileStages_stands (connection.source env.world.symbols) env rfl
    rw [hcompile] at hfollows hholds hstands
    refine ih (hholds compiled rfl) (hc.of_standing hstands) ?_ hok
    refine List.forall_mem_cons.mpr ⟨h.compileStages_belongs henv hc hcompile, fun source hs => ?_⟩
    exact (hdone source hs).continued hfollows.world.pool.continues

theorem compileBatches_belongs (h : Sustained may allowed P) {left : Nat}
    {done compiled : List CompiledSource} (henv : Holds allowed (P delivered) env)
    (hc : env.Configured) (hdone : ∀ source ∈ done, source.code.Belongs env.world.pool)
    (hok : Environment.compileBatches done left env = (.ok compiled, env')) :
    ∀ source ∈ compiled, source.code.Belongs env'.world.pool := by
  induction left generalizing done delivered env with
  | zero =>
    cases hok
    exact fun source hs => hdone source (List.mem_reverse.mp hs)
  | succ left ih =>
    obtain ⟨-, htaken⟩ := h.takeConnections henv
    rw [Environment.compileBatches_succ] at hok
    split at hok
    · cases hok
      exact fun source hs => hdone source (List.mem_reverse.mp hs)
    · obtain ⟨done', env₁, hbatch, hok⟩ := bind_eq_ok hok
      have hbelongs := h.compileBatch_belongs htaken hc hdone hbatch
      obtain ⟨-, hafter⟩ :=
        h.compileBatch (Environment.takeConnections env).1.toList done htaken
      have hstands := Environment.compileBatch_stands done
        (Environment.takeConnections env).1.toList (Environment.takeConnections env).2 rfl
      rw [hbatch] at hafter hstands
      obtain ⟨hholds, -⟩ := hafter done' rfl
      exact ih hholds (Configured.of_standing hc hstands) hbelongs hok

/-- The code that an answer hands out belongs to the pool that the answer leaves. -/
theorem respond_belongs (h : Sustained may allowed P) (henv : Holds allowed (P delivered) env)
    (hc : env.Configured) {request : Request} {code : Code}
    (hcode : code ∈ (env.respond request).1.codes) :
    code.Belongs (env.respond request).2.world.pool := by
  cases request with
  | codegen node =>
    have hrespond : env.respond (.codegen node) =
      (.code (Environment.codegen node env).1, (Environment.codegen node env).2) := rfl
    rw [hrespond] at hcode ⊢
    rcases hres : Environment.codegen node env with ⟨e | written, env'⟩ <;> rw [hres] at hcode
    · exact absurd hcode List.not_mem_nil
    · obtain rfl := List.mem_singleton.mp hcode
      exact Environment.codegen_belongs hc (h.sound henv.world).pool hres
  | compile text =>
    have hrespond : env.respond (.compile text) =
      (.code (Environment.compile text env).1, (Environment.compile text env).2) := rfl
    rw [hrespond] at hcode ⊢
    rcases hres : Environment.compile text env with ⟨e | written, env'⟩ <;> rw [hres] at hcode
    · exact absurd hcode List.not_mem_nil
    · obtain rfl := List.mem_singleton.mp hcode
      exact h.compile_belongs henv hc hres
  | source source =>
    have hrespond : env.respond (.source source) = (.compiled (Environment.compileSource source
      env).1, (Environment.compileSource source env).2) := rfl
    rw [hrespond] at hcode ⊢
    rcases hres : Environment.compileSource source env with ⟨e | compiled, env'⟩ <;>
      rw [hres] at hcode
    · exact absurd hcode List.not_mem_nil
    · obtain rfl := List.mem_singleton.mp hcode
      have hsame := Environment.atomically_ok (congrArg Prod.fst hres)
      exact h.compileStages_belongs henv hc (hsame.symm.trans hres)
  | generated =>
    have hrespond : env.respond .generated =
      (.batch (Environment.compileConnections env).1, (Environment.compileConnections env).2) := rfl
    rw [hrespond] at hcode ⊢
    obtain ⟨hresult, hkept⟩ := Environment.compileConnections_eq env
    rcases hres : (Environment.compileConnections env).1 with e | sources <;> rw [hres] at hcode
    · exact absurd hcode List.not_mem_nil
    · obtain ⟨source, hsource, rfl⟩ := List.mem_map.mp hcode
      have hok := hresult.symm.trans hres
      rw [hkept sources hok]
      exact h.compileBatches_belongs henv hc (fun _ h => absurd h List.not_mem_nil)
        (Prod.ext hok rfl) source hsource
  | _ => exact absurd hcode nofun

end Sustained

/-! ## Later environments -/

/-- Compiler functions that may declare all names, enter all objects and give pointers to
declared symbols, as long as these are pointers. -/
def Latitude.pointers : Latitude := ⟨fun _ => True, fun _ o => ∃ pointer, o = .ofPointer pointer⟩

theorem Latitude.pointers_ample : Latitude.pointers.Ample :=
  ⟨fun _ => trivial, fun _ pointer => ⟨pointer, rfl⟩⟩

/-- Functions have pointers of their own, in a pool that goes on from another one. -/
def GoesOn (p₀ : ObjectPool) (count : Nat) (_ _ : Nat) (p : ObjectPool) : Prop :=
  p.Functions count ∧ p₀.Continues p

theorem goesOn_tally (p₀ : ObjectPool) (count : Nat) : Tally (GoesOn p₀ count) where
  entered h _ hg := ⟨h.1.grown hg, h.2.trans hg.continues⟩
  taken h := h
  recorded h _ hg _ := ⟨h.1.grown hg, h.2.trans hg.continues⟩

namespace Environment

/-- The objects of the environment go on from the pool. -/
structure Continued (p₀ : ObjectPool) (env : Environment) : Prop where
  holds : Holds (CompilerFunctions.Within Latitude.pointers)
    (World.Pointed Latitude.pointers.gives) env
  furnished : env.Furnished
  pool : p₀.Continues env.world.pool

namespace Continued

variable {p₀ : ObjectPool} {env : Environment}

theorem start (config : Config) :
    (ofConfig config).Continued (ofConfig config).world.pool where
  holds := ⟨World.Pointed.start config, ofConfig_ready config⟩
  furnished := ofConfig_furnished config
  pool := .refl _

theorem pointersOnly (h : env.Continued p₀) : env.world.pool.PointersOnly :=
  fun ho => (h.holds.world.given ho).2

theorem addBuiltIn (signature : Signature) :
    Keeps (Continued p₀) (addBuiltIn signature) := by
  intro env h
  refine ⟨World.Pointed.addBuiltIn_keeps Latitude.pointers_ample signature env h.holds,
    addBuiltIn_furnished signature env h.furnished, ?_⟩
  obtain ⟨e, hadd⟩ | ⟨id, symbols, index, pool, -, hp, hadd⟩ :=
    addBuiltIn_cases h.furnished.pool signature <;> rw [hadd]
  · exact h.pool
  · exact h.pool.trans (h.furnished.functions.define_continues h.furnished.pool hp)

theorem addToken (name : String) : Keeps (Continued p₀) (addToken name) := by
  intro env h
  refine ⟨World.Pointed.addToken_keeps Latitude.pointers_ample name env h.holds,
    addToken_furnished name env h.furnished, ?_⟩
  obtain ⟨e, hadd⟩ | ⟨id, symbols, index, pool, -, hp, hadd⟩ :=
    addToken_cases h.furnished.pool name <;> rw [hadd]
  · exact h.pool
  · have hstep := ObjectPool.associate_step h.furnished.pool id (Elsewhere.tokenPointer id)
    rw [hp] at hstep
    exact h.pool.trans hstep.grows.continues

theorem addSetting (name : String) : Keeps (Continued p₀) (addSetting name) := by
  intro env h
  refine ⟨World.Pointed.addSetting_keeps Latitude.pointers_ample name env h.holds,
    addSetting_furnished name env h.furnished, ?_⟩
  obtain ⟨e, hadd⟩ | ⟨id, symbols, index, pool, -, hp, hadd⟩ :=
    addSetting_cases h.furnished.pool name <;> rw [hadd]
  · exact h.pool
  · have hstep := ObjectPool.associate_step h.furnished.pool id
      (settingPointer env.settingCount)
    rw [hp] at hstep
    exact h.pool.trans hstep.grows.continues

/-- What rules rely on, in an environment that continues a pool. -/
theorem tallied (h : env.Continued p₀) : Holds (CompilerFunctions.Within Latitude.pointers)
    (World.Tallied Latitude.pointers.gives (GoesOn p₀ env.builtInCount) []) env :=
  ⟨⟨h.holds.world, h.furnished.functions, h.pool⟩, h.holds.ready⟩

theorem sustained (p₀ : ObjectPool) (count : Nat) :
    Sustained (fun _ kind => Latitude.pointers.declares kind)
      (CompilerFunctions.Within Latitude.pointers)
      (World.Tallied Latitude.pointers.gives (GoesOn p₀ count)) :=
  (goesOn_tally p₀ count).sustained (fun _ => Latitude.pointers_ample.declares _)
    fun _ => Latitude.pointers_ample.gives _ _

theorem ordinary (h : env.Continued p₀) {request : Request}
    (hordinary : request.Ordinary (fun _ kind => Latitude.pointers.declares kind)
      (CompilerFunctions.Within Latitude.pointers)) :
    (env.respond request).2.Continued p₀ := by
  have hafter := (sustained p₀ env.builtInCount).respond h.tallied hordinary
  have hstanding := respond_standing env hordinary
  have hcount : (env.respond request).2.builtInCount = env.builtInCount :=
    congrArg (·.2.2.1) hstanding
  obtain ⟨hfunctions, hpool⟩ := hafter.world.tally
  refine ⟨⟨hafter.world.pointed, hafter.ready⟩,
    ⟨hafter.world.pointed.pool, ?_, Configured.of_standing h.furnished.fastOps hstanding⟩, hpool⟩
  rw [hcount]
  exact hfunctions

/-- Every answer leaves an environment that goes on from the pool. -/
theorem respond (h : env.Continued p₀) {request : Request}
    (hwithin : request.Within Latitude.pointers) : (env.respond request).2.Continued p₀ := by
  cases request with
  | builtIns signatures => exact Keeps.forM_of_mem (fun _ _ => addBuiltIn _) env h
  | tokens names => exact Keeps.forM_of_mem (fun _ _ => addToken _) env h
  | settings names => exact Keeps.forM_of_mem (fun _ _ => addSetting _) env h
  | scripts declarations => exact h.ordinary fun _ _ _ _ _ _ => trivial
  | functions functions => exact h.ordinary ⟨fun _ _ => trivial, hwithin⟩
  | _ => exact h.ordinary trivial

/-- Every environment continues its own pool. -/
theorem self (h : env.Continued p₀) : env.Continued env.world.pool :=
  ⟨h.holds, h.furnished, .refl _⟩

end Continued

theorem continued_of_reached {answers : List Answer} {env : Environment}
    (hr : Reached (Request.Within Latitude.pointers) answers env) :
    env.Continued env.world.pool := by
  induction hr with
  | start config => exact .start config
  | step request _ hwithin ih => exact (ih.respond hwithin).self

theorem Continued.after {p₀ : ObjectPool} {env : Environment} (h : env.Continued p₀)
    {requests : List Request} (hwithin : ∀ request ∈ requests, request.Within Latitude.pointers) :
    (env.after requests).Continued p₀ := by
  induction requests generalizing env with
  | nil => exact h
  | cons request rest ih =>
    exact ih (h.respond (hwithin request List.mem_cons_self)) fun r hr =>
      hwithin r (List.mem_cons_of_mem _ hr)

/-! ## Validity -/

/-- The code means on the later table what it means on the present one. -/
structure StaysValid (now later : Environment) (code : Code) : Prop where
  /-- Constants are the same objects, and strings among them decode to the same texts. -/
  constants : ∀ index ∈ code.consts, ∃ o, now.freeze.get? index.toNat = some o ∧
    later.freeze.get? index.toNat = some o ∧
    (o.category = .string → ∃ text, now.freeze.decodeString o = .ok text ∧
      later.freeze.decodeString o = .ok text)
  /-- Built-in functions stand where they stood. -/
  builtIns : now.freeze.builtIns <+: later.freeze.builtIns
  /-- Machines of both tables run the code to the same result, with or without a check. -/
  runs : ∀ {host : Host} {m m' : Machine}, host.ByValue →
    Machine.ofTable now.freeze host = .ok m → Machine.ofTable later.freeze host = .ok m' →
    (m'.run code.tape).result = (m.run code.tape).result ∧
      ∀ check : QuantityCheck, check.ByValue →
        ((m'.withCheck check).run code.tape).result = ((m.withCheck check).run code.tape).result

/-- Code that belongs to the pool of an environment stays valid as long as the environment
goes on. -/
theorem Continued.staysValid {now later : Environment} (h : now.Continued now.world.pool)
    (h' : later.Continued now.world.pool) {code : Code} (hcode : code.Belongs now.world.pool) :
    StaysValid now later code where
  constants word hword := by
    obtain ⟨index, rfl, hindex⟩ := hcode.consts word hword
    obtain ⟨o, hget, hget', hread, htext⟩ :=
      hindex.kept h'.pool h.furnished.pool h'.furnished.pool h.pointersOnly
    have hlt : index < 65536 :=
      Nat.lt_of_lt_of_le (ObjectPool.get?_eq_some_lt hget) h.furnished.pool.size
    rw [UInt16.toNat_ofNat', Nat.mod_eq_of_lt hlt]
    refine ⟨o, hget, hget', fun hstring => ?_⟩
    obtain ⟨text, hdecode⟩ := htext hstring
    exact ⟨text, hdecode, hread.trans hdecode⟩
  builtIns := h'.pool.builtIns h.furnished.functions
  runs := by
    intro host m m' hhost hm hm'
    obtain ⟨asked, node, instructions, hcodes, htape⟩ := hcode.tape
    have htandem : ∀ {check : Option QuantityCheck}, (∀ c, check = some c → c.ByValue) →
        Machine.InTandem now.world.pool { m with check } { m' with check } :=
      Machine.inTandem_of_continues h'.pool h.furnished.pool h'.furnished.pool
        h.furnished.functions h'.furnished.functions h.pointersOnly hhost hm hm'
    rw [htape]
    refine ⟨?_, fun check hcheck => (htandem fun c hc => Option.some.inj hc ▸ hcheck).run_result
      hcodes⟩
    have hunchecked : ∀ {table : ObjectTable} {m : Machine},
        Machine.ofTable table host = .ok m → { m with check := none } = m := by
      intro table m hm
      unfold Machine.ofTable at hm
      rcases hbind : Machine.bind [] host table.builtIns with e | functions <;> rw [hbind] at hm
      · exact absurd hm nofun
      · cases hm
        rfl
    have hplain : Machine.InTandem now.world.pool { m with check := none }
        { m' with check := none } := htandem nofun
    rw [hunchecked hm, hunchecked hm'] at hplain
    exact hplain.run_result hcodes

/-- Whatever an environment is asked later, and whether or not it fails, the code that it has
handed out stays valid. -/
theorem code_stays_valid {answers : List Answer} {env : Environment}
    (hr : Reached (Request.Within Latitude.pointers) answers env) {request : Request}
    (hrequest : request.Within Latitude.pointers) {code : Code}
    (hcode : code ∈ (env.respond request).1.codes) {requests : List Request}
    (hrequests : ∀ r ∈ requests, r.Within Latitude.pointers) :
    StaysValid (env.respond request).2 ((env.respond request).2.after requests) code := by
  have hbefore := continued_of_reached hr
  have hnow := (hbefore.respond hrequest).self
  have hbelongs := (Continued.sustained env.world.pool env.builtInCount).respond_belongs
    hbefore.tallied hbefore.furnished.fastOps hcode
  exact hnow.staysValid (hnow.after hrequests) hbelongs

/-- What the armory is asked later: to compile a rule that fails behind a number, and to add
a token. -/
def armoryRequests : List Request := [.compile "has(Sword, 300) and Boots", .tokens ["Boots"]]

theorem reached_armory_within :
    ∃ answers, Reached (Request.Within Latitude.pointers) answers armory :=
  ⟨_, .step (.tokens ["Sword"]) (.step (.builtIns [⟨"has", 2⟩]) (.start .standard) trivial) trivial⟩

theorem armoryHost_byValue : armoryHost.ByValue := by
  intro name function h
  have hlookup : List.lookup name
    [("has", (fun _ _ => .ok (.ofBool true) : HostFunction))] = some function := h
  rw [List.lookup_cons] at hlookup
  split at hlookup
  · obtain rfl := Option.some.inj hlookup
    refine fun t t' args _ => ⟨rfl, fun answer hanswer => ?_⟩
    rw [← Except.ok.inj hanswer]
    exact ObjectTable.readsAlike_ofBool true t t'
  · exact absurd hlookup nofun

theorem armoryCheck_byValue : armoryCheck.ByValue := by
  refine fun t t' item quantity _ => ⟨rfl, fun answer hanswer => ?_⟩
  rw [← Except.ok.inj hanswer]
  exact ObjectTable.readsAlike_ofBool _ t t'

set_option maxRecDepth 2000 in
/-- The code of the rule about the sword refers to three constants, and stays valid in the
armory when another rule has failed and boots have come in: it runs there as it did. -/
theorem swordRule_stays_valid :
    ∃ code m m', code ∈ (armory.respond (.codegen swordRule)).1.codes ∧
      code.consts.length = 3 ∧
      Machine.ofTable (armory.respond (.codegen swordRule)).2.freeze armoryHost = .ok m ∧
      Machine.ofTable ((armory.respond (.codegen swordRule)).2.after armoryRequests).freeze
        armoryHost = .ok m' ∧
      StaysValid (armory.respond (.codegen swordRule)).2
        ((armory.respond (.codegen swordRule)).2.after armoryRequests) code ∧
      ((m'.withCheck armoryCheck).run code.tape).result =
        ((m.withCheck armoryCheck).run code.tape).result := by
  have hall : ((armory.respond (.codegen swordRule)).1.codes.map (·.consts.length),
      (Machine.ofTable (armory.respond (.codegen swordRule)).2.freeze armoryHost).toOption.isSome,
      (Machine.ofTable ((armory.respond (.codegen swordRule)).2.after armoryRequests).freeze
        armoryHost).toOption.isSome) = ([3], true, true) := by cbv
  obtain ⟨hconsts, hrest⟩ := Prod.mk.inj hall
  obtain ⟨hnow, hlater⟩ := Prod.mk.inj hrest
  obtain ⟨code, hcode, hlength⟩ := List.mem_map.mp (hconsts ▸ List.mem_singleton_self 3)
  obtain ⟨answers, hr⟩ := reached_armory_within
  have hrequest : (Request.codegen swordRule).Within Latitude.pointers := trivial
  have hrequests : ∀ request ∈ armoryRequests, request.Within Latitude.pointers :=
    List.forall_mem_cons.mpr ⟨trivial, List.forall_mem_singleton.mpr trivial⟩
  have hvalid := code_stays_valid hr hrequest hcode hrequests
  rcases hm : Machine.ofTable (armory.respond (.codegen swordRule)).2.freeze armoryHost with e | m
  · rw [hm] at hnow
    exact absurd hnow Bool.false_ne_true
  rcases hm' : Machine.ofTable ((armory.respond (.codegen swordRule)).2.after
    armoryRequests).freeze armoryHost with e | m'
  · rw [hm'] at hlater
    exact absurd hlater Bool.false_ne_true
  exact ⟨code, m, m', hcode, hlength, rfl, rfl, hvalid,
    (hvalid.runs armoryHost_byValue hm hm').2 armoryCheck armoryCheck_byValue⟩

end Environment

end Passage
