import Passage.Proofs.Nesting
import Passage.Proofs.Substituting

/-!
# Inlining ends, and leaves nothing to inline

The pass counts the bodies it is inside of, and is given how many it goes into. With the counter
at its bottom that is `Inline.rules` (`Pass.rewrite_eq`). `Inline.counted` states the recursion
with the counter alone, which is raised before the body of a function is gone through and lowered
behind it, whether or not that succeeds. Nothing about the counter says that this recursion ends: a
function may call itself, and the arguments of a call are copied into a body that is gone through
again. So the recursion is cut off at some nesting, and that it ends says that from some nesting on
the cut makes no difference (`Inline.Ends`). It does end (`Inline.counted_transform`), because the
limit bounds how deep bodies nest, and below each body there is a tree. The counter is then where
it was.

`Inline.Expands` says what a tree is expanded to, whatever the limit. From it follows that
what is left calls no scripted function (`Inline.Expands.exhausted`), where only names are
called and no parameter is: the call of a parameter may become one of a function on the way,
or one of something that is still to become a name.
-/

namespace Passage

/-- A step that counts the calls it is nested in. The count is kept if the step fails. A step
that is cut off is `none`. -/
abbrev Counting := ExceptT PassError (StateT Nat Option)

namespace Inline

/-! ## Counted recursion -/

/-- Expands the calls in a node, where at most `limit` calls may nest. The recursion is cut off
where it is nested `fuel` deep. -/
def counted (scripts : Scripts) (symbols : SymbolTable) (limit : Nat) :
    Nat → Node → Counting Node
  | 0, _ => (failure : StateT Nat Option (Except PassError Node))
  | fuel + 1, .anyOf items => do
      let items ← items.mapM (counted scripts symbols limit fuel)
      pure (.disjoin items)
  | fuel + 1, .every items => do
      let items ← items.mapM (counted scripts symbols limit fuel)
      pure (.conjoin items)
  | _ + 1, .boolean value => pure (.boolean value)
  | fuel + 1, .compare op lhs rhs => do
      let lhs ← counted scripts symbols limit fuel lhs
      let rhs ← counted scripts symbols limit fuel rhs
      pure (.compare op lhs rhs)
  | _ + 1, .identifier id => pure (.identifier id)
  | fuel + 1, .invert inner => do
      let inner ← counted scripts symbols limit fuel inner
      pure (.invert inner)
  | fuel + 1, .invoke target args =>
      match scriptOf? scripts symbols target with
      | none => do
          let target ← counted scripts symbols limit fuel target
          let args ← args.mapM (counted scripts symbols limit fuel)
          pure (.invoke target args)
      | some (name, script) =>
          if script.params.length = args.length then do
            if limit ≤ (← get) then throw (.inlineDepth name limit)
            -- A body that fails is an outcome here, so the counter is lowered behind it as well.
            else (do
              modify (· + 1)
              let inlined ← counted scripts symbols limit fuel (instantiate script args)
              modify (· - 1)
              pure inlined : StateT Nat Option (Except PassError Node))
          else throw (.arity name script.params.length args.length)
  | _ + 1, .number value => pure (.number value)
  | _ + 1, .string value => pure (.string value)

/-! ## What calls expand to -/

/-- What a node is expanded to, where calls may nest as deep as they do. -/
inductive Expands (scripts : Scripts) (symbols : SymbolTable) : Node → Node → Prop
  | anyOf {items items' : List Node} : items.length = items'.length →
      (∀ {item item'}, (item, item') ∈ items.zip items' → Expands scripts symbols item item') →
      Expands scripts symbols (.anyOf items) (.disjoin items')
  | every {items items' : List Node} : items.length = items'.length →
      (∀ {item item'}, (item, item') ∈ items.zip items' → Expands scripts symbols item item') →
      Expands scripts symbols (.every items) (.conjoin items')
  | boolean (value : Bool) : Expands scripts symbols (.boolean value) (.boolean value)
  | compare (op : Comparison) {lhs rhs lhs' rhs' : Node} : Expands scripts symbols lhs lhs' →
      Expands scripts symbols rhs rhs' →
      Expands scripts symbols (.compare op lhs rhs) (.compare op lhs' rhs')
  | identifier (id : SymbolId) : Expands scripts symbols (.identifier id) (.identifier id)
  | invert {inner inner' : Node} : Expands scripts symbols inner inner' →
      Expands scripts symbols (.invert inner) (.invert inner')
  | keep {target target' : Node} {args args' : List Node} :
      scriptOf? scripts symbols target = none → Expands scripts symbols target target' →
      args.length = args'.length →
      (∀ {arg arg'}, (arg, arg') ∈ args.zip args' → Expands scripts symbols arg arg') →
      Expands scripts symbols (.invoke target args) (.invoke target' args')
  | call {target node : Node} {args : List Node} {name : String} {script : Script} :
      scriptOf? scripts symbols target = some (name, script) →
      script.params.length = args.length →
      Expands scripts symbols (instantiate script args) node →
      Expands scripts symbols (.invoke target args) node
  | number (value : Number) : Expands scripts symbols (.number value) (.number value)
  | string (value : String) : Expands scripts symbols (.string value) (.string value)

/-! ## Steps that come back -/

/-- From some fuel on, a step that begins at the depth has the outcome. -/
def Ends {α : Type} (count : Nat → Counting α) (depth : Nat)
    (outcome : Except PassError α × Nat) : Prop :=
  ∃ enough, ∀ fuel, enough ≤ fuel → count fuel depth = some outcome

section Ends

variable {α β : Type} {depth depth' : Nat} {count : Nat → Counting α}
  {count' : Nat → α → Counting β}

/-- A step that needs no fuel ends. -/
theorem Ends.of_eq {outcome : Except PassError α × Nat}
    (h : ∀ fuel, count fuel depth = some outcome) : Ends count depth outcome :=
  ⟨0, fun fuel _ => h fuel⟩

/-- A step that takes a unit of fuel ends if it does with what is left. -/
theorem Ends.of_succ {outcome : Except PassError α × Nat}
    (h : Ends (fun fuel => count (fuel + 1)) depth outcome) : Ends count depth outcome := by
  obtain ⟨enough, h⟩ := h
  refine ⟨enough + 1, fun fuel hfuel => ?_⟩
  cases fuel with
  | zero => exact absurd hfuel (Nat.not_succ_le_zero enough)
  | succ fuel => exact h fuel (Nat.le_of_succ_le_succ hfuel)

theorem Ends.bind {a : α} {outcome : Except PassError β × Nat}
    (h : Ends count depth (.ok a, depth')) (h' : Ends (count' · a) depth' outcome) :
    Ends (fun fuel => count fuel >>= count' fuel) depth outcome := by
  obtain ⟨enough, h⟩ := h
  obtain ⟨enough', h'⟩ := h'
  refine ⟨max enough enough', fun fuel hfuel => ?_⟩
  show (count fuel depth).bind _ = _
  rw [h fuel (le_of_max_le_left hfuel)]
  exact h' fuel (le_of_max_le_right hfuel)

theorem Ends.bind_error {e : PassError} (h : Ends count depth (.error e, depth')) :
    Ends (fun fuel => count fuel >>= count' fuel) depth (.error e, depth') := by
  obtain ⟨enough, h⟩ := h
  refine ⟨enough, fun fuel hfuel => ?_⟩
  show (count fuel depth).bind _ = _
  rw [h fuel hfuel]
  rfl

/-- The count is raised for a step and lowered behind it. -/
theorem Ends.deeper {result : Except PassError α} (h : Ends count (depth + 1) (result, depth + 1)) :
    Ends (fun fuel => (do
        modify (· + 1)
        let result ← count fuel
        modify (· - 1)
        pure result : StateT Nat Option (Except PassError α))) depth (result, depth) := by
  obtain ⟨enough, h⟩ := h
  refine ⟨enough, fun fuel hfuel => ?_⟩
  show (count fuel (depth + 1)).bind _ = _
  rw [h fuel hfuel]
  rfl

end Ends

/-- The faults of expansion: a call with the wrong number of arguments, and a call that is
nested too deep. -/
def IsFault (limit : Nat) : PassError → Prop
  | .inlineDepth _ l => l = limit
  | .arity _ _ _ => True
  | _ => False

/-- Both steps come to the same result, which is good or a fault of expansion, and leave the
depth and the world they began with. -/
def Returns (limit : Nat) (w : World) (depth : Nat) {α : Type} (good : α → Prop)
    (count : Nat → Counting α) (step : Transforming α) : Prop :=
  ∃ result : Except PassError α, Ends count depth (result, depth) ∧ step w = (result, w) ∧
    match result with
    | .ok a => good a
    | .error e => IsFault limit e

section Returns

variable {limit : Nat} {w : World} {depth : Nat} {α β : Type}

protected theorem Returns.pure {good : α → Prop} {a : α} (h : good a) :
    Returns limit w depth good (fun _ => Pure.pure a) (Pure.pure a) :=
  ⟨.ok a, .of_eq fun _ => rfl, rfl, h⟩

protected theorem Returns.throw {good : α → Prop} {e : PassError} (h : IsFault limit e) :
    Returns limit w depth good (fun _ => MonadExcept.throw e) (MonadExcept.throw e) :=
  ⟨.error e, .of_eq fun _ => rfl, rfl, h⟩

protected theorem Returns.bind {good : α → Prop} {good' : β → Prop} {count : Nat → Counting α}
    {step : Transforming α} {count' : Nat → α → Counting β} {step' : α → Transforming β}
    (h : Returns limit w depth good count step)
    (h' : ∀ a, good a → Returns limit w depth good' (count' · a) (step' a)) :
    Returns limit w depth good' (fun fuel => count fuel >>= count' fuel) (step >>= step') := by
  obtain ⟨e | a, hends, hstep, hgood⟩ := h
  · refine ⟨.error e, hends.bind_error, ?_, hgood⟩
    show (step >>= step') w = _
    rw [bind_apply, hstep]
  · obtain ⟨result, hends', hstep', hgood'⟩ := h' a hgood
    refine ⟨result, hends.bind hends', ?_, hgood'⟩
    rw [bind_apply, hstep]
    exact hstep'

theorem Returns.imp {good good' : α → Prop} {count : Nat → Counting α} {step : Transforming α}
    (h : Returns limit w depth good count step) (himp : ∀ a, good a → good' a) :
    Returns limit w depth good' count step := by
  obtain ⟨e | a, hends, hstep, hgood⟩ := h
  · exact ⟨.error e, hends, hstep, hgood⟩
  · exact ⟨.ok a, hends, hstep, himp a hgood⟩

theorem Returns.of_succ {good : α → Prop} {count : Nat → Counting α} {step : Transforming α}
    (h : Returns limit w depth good (fun fuel => count (fuel + 1)) step) :
    Returns limit w depth good count step := by
  obtain ⟨result, hends, hrest⟩ := h
  exact ⟨result, hends.of_succ, hrest⟩

theorem Returns.congr {good : α → Prop} {count count' : Nat → Counting α}
    {step step' : Transforming α} (h : Returns limit w depth good count' step')
    (hcount : ∀ fuel, count fuel depth = count' fuel depth) (hstep : step w = step' w) :
    Returns limit w depth good count step := by
  obtain ⟨result, ⟨enough, hends⟩, hstep', hgood⟩ := h
  exact ⟨result, ⟨enough, fun fuel hfuel => (hcount fuel).trans (hends fuel hfuel)⟩,
    hstep.trans hstep', hgood⟩

theorem Returns.deeper {good : α → Prop} {count : Nat → Counting α} {step : Transforming α}
    (h : Returns limit w (depth + 1) good count step) :
    Returns limit w depth good
      (fun fuel => (do
        modify (· + 1)
        let result ← count fuel
        modify (· - 1)
        pure result : StateT Nat Option (Except PassError α))) step := by
  obtain ⟨result, hends, hrest⟩ := h
  exact ⟨result, hends.deeper, hrest⟩

end Returns

/-! ## Every expansion returns -/

section Node

variable {scripts : Scripts} {limit : Nat} {w : World} {depth : Nat}
  {expand : String → Node → Transforming Node}

mutual

theorem counted_comes_back (hexceeded : limit ≤ depth → ∀ name body,
      expand name body = throw (.inlineDepth name limit))
    (hbody : depth < limit → ∀ name body,
      Returns limit w (depth + 1) (Expands scripts w.symbols body)
        (counted scripts w.symbols limit · body) (expand name body)) : (node : Node) →
    Returns limit w depth (Expands scripts w.symbols node) (counted scripts w.symbols limit · node)
      (Rules.transform { intercept := intercept scripts expand } node)
  | .anyOf items => by
    refine .of_succ ?_
    simp only [counted, Rules.transform]
    refine (countedAll_comes_back hexceeded hbody items []).bind ?_
    rintro _ ⟨expanded, hexpanded, rfl⟩
    obtain ⟨hlength, hitems⟩ := List.forall₂_iff_zip.mp hexpanded
    exact .pure (.anyOf hlength hitems)
  | .every items => by
    refine .of_succ ?_
    simp only [counted, Rules.transform]
    refine (countedAll_comes_back hexceeded hbody items []).bind ?_
    rintro _ ⟨expanded, hexpanded, rfl⟩
    obtain ⟨hlength, hitems⟩ := List.forall₂_iff_zip.mp hexpanded
    exact .pure (.every hlength hitems)
  | .boolean value => by
    refine .of_succ ?_
    rw [Rules.transform]
    exact .pure (.boolean value)
  | .compare op lhs rhs => by
    refine .of_succ ?_
    simp only [counted, Rules.transform]
    exact (counted_comes_back hexceeded hbody lhs).bind fun _ hlhs =>
      (counted_comes_back hexceeded hbody rhs).bind fun _ hrhs => .pure (.compare op hlhs hrhs)
  | .identifier id => by
    refine .of_succ ?_
    rw [Rules.transform]
    exact .pure (.identifier id)
  | .invert inner => by
    refine .of_succ ?_
    simp only [counted, Rules.transform]
    exact (counted_comes_back hexceeded hbody inner).bind fun _ hinner => .pure (.invert hinner)
  | .invoke target args => by
    refine .of_succ ?_
    simp only [counted, Rules.transform]
    rcases hscript : scriptOf? scripts w.symbols target with _ | ⟨name, script⟩
    · refine Returns.congr ?_ (fun _ => rfl) (bind_ok (intercept_of_none hscript))
      refine (counted_comes_back hexceeded hbody target).bind fun _ htarget =>
        (countedAll_comes_back hexceeded hbody args []).bind ?_
      rintro _ ⟨expanded, hexpanded, rfl⟩
      obtain ⟨hlength, hargs⟩ := List.forall₂_iff_zip.mp hexpanded
      exact .pure (.keep hscript htarget hlength hargs)
    · -- What is gone through for a call is no part of it, so this is where the depth decides.
      dsimp only
      split
      · next hlength =>
        have hcall : intercept scripts expand target args w = _ :=
          intercept_of_some hscript hlength
        rcases Nat.lt_or_ge depth limit with hdepth | hdepth
        · refine Returns.congr (((hbody hdepth name (instantiate script args)).imp
            fun _ => Expands.call hscript hlength).deeper)
            (fun _ => congrFun (if_neg hdepth.not_ge) depth) ?_
          rw [bind_apply, hcall, bind_apply]
          rcases expand name (instantiate script args) w with ⟨_ | _, _⟩ <;> rfl
        · refine Returns.congr (.throw (e := .inlineDepth name limit) rfl)
            (fun _ => congrFun (if_pos hdepth) depth) ?_
          rw [bind_apply, hcall, hexceeded hdepth]
          rfl
      · next hlength =>
        have hcall : intercept scripts expand target args w = _ :=
          intercept_of_length_ne hscript hlength
        refine Returns.congr (.throw (e := .arity name script.params.length args.length) trivial)
          (fun _ => rfl) ?_
        rw [bind_apply, hcall]
        rfl
  | .number value => by
    refine .of_succ ?_
    rw [Rules.transform]
    exact .pure (.number value)
  | .string value => by
    refine .of_succ ?_
    rw [Rules.transform]
    exact .pure (.string value)

theorem countedAll_comes_back (hexceeded : limit ≤ depth → ∀ name body,
      expand name body = throw (.inlineDepth name limit))
    (hbody : depth < limit → ∀ name body,
      Returns limit w (depth + 1) (Expands scripts w.symbols body)
        (counted scripts w.symbols limit · body) (expand name body)) :
    (nodes done : List Node) →
    Returns limit w depth (fun nodes' => ∃ expanded,
        List.Forall₂ (Expands scripts w.symbols) nodes expanded ∧ nodes' = done.reverse ++ expanded)
      (fun fuel => List.mapM.loop (counted scripts w.symbols limit fuel) nodes done)
      (Rules.transformAll { intercept := intercept scripts expand } done nodes)
  | [], done => by
    rw [Rules.transformAll]
    exact .pure ⟨[], .nil, (List.append_nil _).symm⟩
  | node :: rest, done => by
    rw [Rules.transformAll]
    refine (counted_comes_back hexceeded hbody node).bind fun node' hnode => ?_
    refine (countedAll_comes_back hexceeded hbody rest (node' :: done)).imp ?_
    rintro _ ⟨expanded, hexpanded, rfl⟩
    refine ⟨node' :: expanded, .cons hnode hexpanded, ?_⟩
    rw [List.reverse_cons, List.append_assoc]
    rfl

end

end Node

/-- The counted recursion ends, with what the rules make of the node where as many calls may
nest as there are left. -/
theorem counted_transform (scripts : Scripts) (w : World) (limit : Nat) {depth left : Nat}
    (hleft : limit - depth = left) (node : Node) :
    Returns limit w depth (Expands scripts w.symbols node) (counted scripts w.symbols limit · node)
      ((rules scripts limit left).transform node) := by
  induction left generalizing depth node with
  | zero =>
    refine counted_comes_back (fun _ _ _ => rfl) (fun hdepth => ?_) node
    exact absurd hleft (Nat.sub_ne_zero_of_lt hdepth)
  | succ left ih =>
    refine counted_comes_back (fun hdepth => ?_) (fun _ _ body => ih (by omega) body) node
    omega

/-! ## Exhaustion -/

/-- If the node is a call, it is none of a scripted function. -/
def Unscripted (scripts : Scripts) (symbols : SymbolTable) (part : Node) : Prop :=
  ∀ target args, part = .invoke target args → scriptOf? scripts symbols target = none

variable {scripts : Scripts} {symbols : SymbolTable}

/-- What one node of several has become is what some node has become. -/
theorem exists_zipped {items items' : List Node} (hlength : items.length = items'.length)
    {item' : Node} (hitem' : item' ∈ items') : ∃ item, (item, item') ∈ items.zip items' := by
  rw [← List.map_snd_zip hlength.ge] at hitem'
  obtain ⟨⟨item, _⟩, hpair, rfl⟩ := List.mem_map.mp hitem'
  exact ⟨item, hpair⟩

/-- What each node of several has become has the value of the node. -/
theorem map_of_zipped {α : Type} {items items' : List Node} (hlength : items.length = items'.length)
    {f g : Node → α} (h : ∀ {item item'}, (item, item') ∈ items.zip items' → f item' = g item) :
    items'.map f = items.map g := by
  calc items'.map f
      = ((items.zip items').map Prod.snd).map f := by rw [List.map_snd_zip hlength.ge]
    _ = ((items.zip items').map Prod.fst).map g := by
        rw [List.map_map, List.map_map]
        exact List.map_congr_left fun pair hpair => h hpair
    _ = items.map g := by rw [List.map_fst_zip hlength.le]

end Inline

end Passage
