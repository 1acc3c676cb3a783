import Passage.Proofs.Expanding
import Passage.Proofs.Verdicts

/-!
# Inlining is hygienic

Parameters are names like others: two functions may have the same, a body may speak of what is
a parameter elsewhere, and so may an argument. `Inline.Denotes` is what a tree of names,
negations, junctions and calls means if calls are lexical. In the body of a function, its
parameters stand for the values of the arguments, and every other name for what it is given
as, be it a parameter of the caller. Inlining puts arguments for parameters unevaluated,
and goes through the outcome again. A tree that it succeeds with means the same as before
(`Inline.inlining_hygienic`).

What carries this is that substitution is simultaneous and happens outside in: what has been
put for a parameter is looked at with no function around it, as the rest of the body is
(`Inline.Denotes.instantiate`).
-/

namespace Passage

namespace Node

/-- Names, booleans, negations, junctions, and calls that are allowed. -/
def Logical (allowed : Node → List Node → Prop) : Node → Prop
  | .anyOf _ | .every _ | .boolean _ | .identifier _ | .invert _ => True
  | .invoke target args => allowed target args
  | .compare _ _ _ | .number _ | .string _ => False

end Node

namespace Inline

/-! ## Lexical calls -/

/-- What names stand for in the body of a function: parameters for the values of the arguments,
others for what they are given as. -/
def bound (given : SymbolId → Bool) (params : List SymbolId) (values : List Bool)
    (id : SymbolId) : Bool :=
  ((params.zip values).lookup id).getD (given id)

/-- What a node means where names stand for what `here` says, being given as `given` in every
other place. -/
inductive Denotes (scripts : Scripts) (symbols : SymbolTable) (given : SymbolId → Bool) :
    (SymbolId → Bool) → Node → Bool → Prop
  | anyOf {here : SymbolId → Bool} {items : List Node} {value : Node → Bool} :
      (∀ item ∈ items, Denotes scripts symbols given here item (value item)) →
      Denotes scripts symbols given here (.anyOf items) ((items.map value).any id)
  | every {here : SymbolId → Bool} {items : List Node} {value : Node → Bool} :
      (∀ item ∈ items, Denotes scripts symbols given here item (value item)) →
      Denotes scripts symbols given here (.every items) ((items.map value).all id)
  | boolean {here : SymbolId → Bool} (value : Bool) :
      Denotes scripts symbols given here (.boolean value) value
  | identifier {here : SymbolId → Bool} (id : SymbolId) :
      Denotes scripts symbols given here (.identifier id) (here id)
  | invert {here : SymbolId → Bool} {inner : Node} {value : Bool} :
      Denotes scripts symbols given here inner value →
      Denotes scripts symbols given here (.invert inner) (!value)
  | call {here : SymbolId → Bool} {target : Node} {args : List Node} {name : String}
      {script : Script} {value : Node → Bool} {result : Bool} :
      scriptOf? scripts symbols target = some (name, script) →
      script.params.length = args.length →
      (∀ arg ∈ args, Denotes scripts symbols given here arg (value arg)) →
      Denotes scripts symbols given (bound given script.params (args.map value)) script.body
        result →
      Denotes scripts symbols given here (.invoke target args) result

/-- A call of a scripted function, and of none of the own names, with as many arguments as it
has parameters. -/
def Applies (scripts : Scripts) (symbols : SymbolTable) (own : List SymbolId) (target : Node)
    (args : List Node) : Prop :=
  ∃ callee name script, target = .identifier callee ∧ callee ∉ own ∧
    scriptOf? scripts symbols target = some (name, script) ∧ script.params.length = args.length

/-- The node is a call of the function of that name. -/
def IsCall (scripts : Scripts) (symbols : SymbolTable) (name : String) (part : Node) : Prop :=
  ∃ target args script, part = .invoke target args ∧
    scriptOf? scripts symbols target = some (name, script)

/-- The body of the one function calls the other: not every part of it is something else. -/
def Calls (scripts : Scripts) (symbols : SymbolTable) (caller callee : String) : Prop :=
  ∃ script, scripts.get? caller = some script ∧
    ¬ script.body.Each fun part => ¬ IsCall scripts symbols callee part

/-- No function comes to call itself. -/
def NonRecursive (scripts : Scripts) (symbols : SymbolTable) : Prop :=
  ∀ name, ¬ Relation.TransGen (Calls scripts symbols) name name

section Denotes

variable {scripts : Scripts} {symbols : SymbolTable} {given here : SymbolId → Bool} {node : Node}
  {value : Bool}

namespace Denotes

/-- A node means one thing only. -/
theorem unique (h : Denotes scripts symbols given here node value) {value' : Bool}
    (h' : Denotes scripts symbols given here node value') : value = value' := by
  induction h generalizing value' with
  | anyOf _ ih =>
    cases h' with | anyOf h' =>
    rw [List.map_congr_left fun item hitem => ih item hitem (h' item hitem)]
  | every _ ih =>
    cases h' with | every h' =>
    rw [List.map_congr_left fun item hitem => ih item hitem (h' item hitem)]
  | boolean value =>
    cases h'
    rfl
  | identifier id =>
    cases h'
    rfl
  | invert _ ih =>
    cases h' with | invert h' => rw [ih h']
  | call hscript _ _ _ iha ihb =>
    cases h' with | call hscript' _ hargs' hbody' =>
    obtain ⟨rfl, rfl⟩ := Prod.mk.inj (Option.some.inj (hscript.symm.trans hscript'))
    refine ihb ?_
    rwa [List.map_congr_left fun arg harg => iha arg harg (hargs' arg harg)]

end Denotes

open Classical in
/-- The value that a node denotes, if it denotes one. -/
noncomputable def meaning (scripts : Scripts) (symbols : SymbolTable)
    (given here : SymbolId → Bool) (node : Node) : Bool :=
  decide (Denotes scripts symbols given here node true)

namespace Denotes

theorem meaning_eq (h : Denotes scripts symbols given here node value) :
    meaning scripts symbols given here node = value := by
  cases value with
  | true => exact @decide_eq_true _ (Classical.propDecidable _) h
  | false =>
    exact @decide_eq_false _ (Classical.propDecidable _) fun htrue =>
      absurd (h.unique htrue) Bool.false_ne_true

/-- Put together from the meanings of its parts, a node has its own meaning. -/
theorem verdict_eq (h : Denotes scripts symbols given here node value) :
    node.verdict (meaning scripts symbols given here) = value := by
  induction h with
  | anyOf _ ih => rw [Node.verdict, Node.verdicts_eq, List.map_congr_left ih]
  | every _ ih => rw [Node.verdict, Node.verdicts_eq, List.map_congr_left ih]
  | boolean value => rfl
  | identifier id => exact (identifier id).meaning_eq
  | invert _ ih => rw [Node.verdict_invert, ih]
  | call hscript hlength hargs hbody _ _ => exact (call hscript hlength hargs hbody).meaning_eq

/-- A disjunction that is reduced means what it meant. -/
theorem disjoin {items : List Node} {value : Node → Bool}
    (h : ∀ item ∈ items, Denotes scripts symbols given here item (value item)) :
    Denotes scripts symbols given here (.disjoin items) ((items.map value).any id) := by
  obtain ⟨result, hresult⟩ := Node.forall_disjoin
    (P := fun node => ∃ value, Denotes scripts symbols given here node value)
    (fun ⟨_, h⟩ item hitem => by cases h with | anyOf h => exact ⟨_, h item hitem⟩)
    (fun h => by
      choose! value hvalue using h
      exact ⟨_, .anyOf hvalue⟩)
    (fun value => ⟨value, .boolean value⟩) (fun item hitem => ⟨value item, h item hitem⟩)
  have hvalue : (items.map value).any id = result := by
    rw [← hresult.verdict_eq, Node.verdict_disjoin,
      List.map_congr_left fun item hitem => (h item hitem).verdict_eq.symm, List.any_map]
    rfl
  rwa [hvalue]

theorem conjoin {items : List Node} {value : Node → Bool}
    (h : ∀ item ∈ items, Denotes scripts symbols given here item (value item)) :
    Denotes scripts symbols given here (.conjoin items) ((items.map value).all id) := by
  obtain ⟨result, hresult⟩ := Node.forall_conjoin
    (P := fun node => ∃ value, Denotes scripts symbols given here node value)
    (fun ⟨_, h⟩ item hitem => by cases h with | every h => exact ⟨_, h item hitem⟩)
    (fun h => by
      choose! value hvalue using h
      exact ⟨_, .every hvalue⟩)
    (fun value => ⟨value, .boolean value⟩) (fun item hitem => ⟨value item, h item hitem⟩)
  have hvalue : (items.map value).all id = result := by
    rw [← hresult.verdict_eq, Node.verdict_conjoin,
      List.map_congr_left fun item hitem => (h item hitem).verdict_eq.symm, List.all_map]
    rfl
  rwa [hvalue]

/-- What holds of a node whose names are replaced: where what is put in means what the names
stood for, the node means the same. What is called is not replaced. -/
theorem substitute {scope : SymbolId → Option Node} {inner : SymbolId → Bool}
    (hfree : ∀ id, scope id = none → inner id = here id)
    (hbound : ∀ id node, scope id = some node →
      Denotes scripts symbols given here node (inner id))
    (h : Denotes scripts symbols given inner node value)
    (htargets : node.Each fun part =>
      ∀ target args, part = .invoke target args → target.substitute scope = target) :
    Denotes scripts symbols given here (node.substitute scope) value := by
  have hmapped : ∀ {items : List Node} {value : Node → Bool},
      (∀ item ∈ items, Denotes scripts symbols given here (item.substitute scope) (value item)) →
      (∀ item ∈ items.map (Node.substitute scope), Denotes scripts symbols given here item
        (meaning scripts symbols given here item)) ∧
      (items.map (Node.substitute scope)).map (meaning scripts symbols given here) =
        items.map value := by
    intro items value hitems
    refine ⟨List.forall_mem_map.mpr fun item hitem => ?_, ?_⟩
    · rw [(hitems item hitem).meaning_eq]
      exact hitems item hitem
    · rw [List.map_map]
      exact List.map_congr_left fun item hitem => (hitems item hitem).meaning_eq
  -- Of a call only the arguments are gone through: the body has names of its own.
  induction h with
  | @anyOf inner items value _ ih =>
    cases htargets with | anyOf _ hitems =>
    obtain ⟨hdenotes, hvalues⟩ := hmapped fun item hitem =>
      ih item hitem hfree hbound (hitems item hitem)
    rw [Node.substitute_anyOf, ← hvalues]
    exact disjoin hdenotes
  | @every inner items value _ ih =>
    cases htargets with | every _ hitems =>
    obtain ⟨hdenotes, hvalues⟩ := hmapped fun item hitem =>
      ih item hitem hfree hbound (hitems item hitem)
    rw [Node.substitute_every, ← hvalues]
    exact conjoin hdenotes
  | boolean value => exact .boolean value
  | @identifier inner id =>
    rcases hid : scope id with _ | node
    · rw [Node.substitute_unbound hid, hfree id hid]
      exact .identifier id
    · rw [Node.substitute_bound hid]
      exact hbound id node hid
  | invert _ ih =>
    cases htargets with | invert _ hinner =>
    exact .invert (ih hfree hbound hinner)
  | @call inner target args name script value result hscript hlength _ hbody iha _ =>
    cases htargets with | invoke htarget _ hargs =>
    obtain ⟨hdenotes, hvalues⟩ := hmapped fun arg harg =>
      iha arg harg hfree hbound (hargs arg harg)
    rw [Node.substitute_invoke, htarget target args rfl]
    refine .call hscript (hlength.trans (List.length_map _).symm) hdenotes ?_
    rwa [hvalues]

/-- A node denotes something wherever it stands if the bodies of the functions that it calls
do. -/
theorem exists_of_logical (hnode : node.Each (Node.Logical fun target args =>
      ∃ name script, scriptOf? scripts symbols target = some (name, script) ∧
        script.params.length = args.length ∧
        ∀ here, ∃ value, Denotes scripts symbols given here script.body value))
    (here : SymbolId → Bool) : ∃ value, Denotes scripts symbols given here node value := by
  induction hnode with
  | anyOf _ _ ih =>
    choose! value hvalue using ih
    exact ⟨_, .anyOf hvalue⟩
  | every _ _ ih =>
    choose! value hvalue using ih
    exact ⟨_, .every hvalue⟩
  | @boolean value _ => exact ⟨value, .boolean value⟩
  | compare h => exact h.elim
  | @identifier id _ => exact ⟨here id, .identifier id⟩
  | invert _ _ ih =>
    obtain ⟨value, hvalue⟩ := ih
    exact ⟨!value, .invert hvalue⟩
  | invoke h _ _ _ iha =>
    obtain ⟨name, script, hscript, hlength, hbody⟩ := h
    choose! value hvalue using iha
    obtain ⟨result, hresult⟩ := hbody (bound given script.params (List.map value _))
    exact ⟨result, .call hscript hlength hvalue hresult⟩
  | number h => exact h.elim
  | string h => exact h.elim

end Denotes

/-! ## Tables without recursion -/

/-- The functions that a table finds. -/
theorem finite_names (scripts : Scripts) :
    {name | (scripts.get? name).isSome}.Finite := by
  refine (scripts.entries.map Prod.fst).finite_toSet.subset fun name hname => ?_
  obtain ⟨script, hget⟩ := Option.isSome_iff_exists.mp hname
  exact List.mem_map.mpr ⟨(name, script), Scripts.mem_of_get? hget, rfl⟩

/-- Where no function comes to call itself, what holds of a function if it holds of those that it
calls holds of every one. -/
theorem NonRecursive.induction (hrec : NonRecursive scripts symbols) {P : String → Prop}
    (hstep : ∀ {name}, (scripts.get? name).isSome →
      (∀ callee, (scripts.get? callee).isSome → Calls scripts symbols name callee → P callee) →
      P name) {name : String} (hname : (scripts.get? name).isSome) : P name := by
  -- Calling at whatever remove is an order here, and there are finitely many functions.
  have horder : IsStrictOrder String fun callee caller =>
      Relation.TransGen (Calls scripts symbols) caller callee :=
    { irrefl := hrec
      trans := fun _ _ _ h h' => h'.trans h }
  have hfounded := (finite_names scripts).wellFoundedOn (r := fun callee caller =>
    Relation.TransGen (Calls scripts symbols) caller callee)
  exact hfounded.induction hname fun caller hcaller ih =>
    hstep hcaller fun callee hcallee hcalls => ih callee hcallee (.single hcalls)

/-- Functions do not come to call themselves if each calls functions of a lower rank. -/
theorem nonRecursive_of_rank (rank : String → Nat) (h : ∀ {caller callee},
      Calls scripts symbols caller callee → rank callee < rank caller) :
    NonRecursive scripts symbols := by
  have hlower : ∀ {caller callee}, Relation.TransGen (Calls scripts symbols) caller callee →
      rank callee < rank caller := by
    intro caller callee hcalls
    induction hcalls with
    | single hcall => exact h hcall
    | tail _ hcall ih => exact (h hcall).trans ih
  exact fun name hcalls => (hlower hcalls).false

/-- Functions and trees as they are asked for: bodies are built of names, junctions and calls of
functions with the right number of arguments; no function has one parameter twice, and none
comes to call itself. -/
structure Lexical (scripts : Scripts) (symbols : SymbolTable) : Prop where
  params : ∀ {name script}, scripts.get? name = some script → script.params.Nodup
  bodies : ∀ {name script}, scripts.get? name = some script →
    script.body.Each (Node.Logical (Applies scripts symbols script.params))
  nonRecursive : NonRecursive scripts symbols

/-- Such bodies denote something wherever they stand. -/
theorem Lexical.body_denotes (h : Lexical scripts symbols) (given : SymbolId → Bool)
    {name : String} {script : Script} (hget : scripts.get? name = some script)
    (here : SymbolId → Bool) : ∃ value, Denotes scripts symbols given here script.body value := by
  have hall :=
    h.nonRecursive.induction (P := fun name => ∀ script, scripts.get? name = some script →
    ∀ here, ∃ value, Denotes scripts symbols given here script.body value) ?_
    (Option.isSome_iff_exists.mpr ⟨script, hget⟩)
  · exact hall script hget here
  intro caller _ ih script hget
  refine Denotes.exists_of_logical (((h.bodies hget).and (Node.each_each script.body)).imp ?_)
  rintro part ⟨hlogical, hpart⟩
  cases part with
  | invoke target args =>
    obtain ⟨callee, name, script', htarget, -, hscript, hlength⟩ := hlogical
    have hget' := get?_of_scriptOf? hscript
    have hcalls : Calls scripts symbols caller name :=
      ⟨script, hget, fun hnone => hpart _ hnone ⟨target, args, script', rfl, hscript⟩⟩
    exact ⟨name, script', hscript, hlength,
      ih name (Option.isSome_iff_exists.mpr ⟨script', hget'⟩) hcalls script' hget'⟩
  | _ => exact hlogical

theorem Lexical.denotes (h : Lexical scripts symbols) {own : List SymbolId}
    (hnode : node.Each (Node.Logical (Applies scripts symbols own)))
    (given here : SymbolId → Bool) :
    ∃ value, Denotes scripts symbols given here node value := by
  refine Denotes.exists_of_logical (hnode.imp fun {part} hlogical => ?_) here
  cases part with
  | invoke target args =>
    obtain ⟨callee, name, script, htarget, -, hscript, hlength⟩ := hlogical
    exact ⟨name, script, hscript, hlength, h.body_denotes given (get?_of_scriptOf? hscript)⟩
  | _ => exact hlogical

/-! ## Instantiation -/

/-- Among distinct parameters, the value that is bound to one is that of the argument put for
it. -/
theorem bound_of_scopeOf {params : List SymbolId} (hparams : params.Nodup) {args : List Node}
    {value : Node → Bool} {id : SymbolId} {arg : Node}
    (h : Node.scopeOf params args id = some arg) :
    bound given params (args.map value) id = value arg := by
  have hlookup : (params.zip (args.map value)).lookup id = some (value arg) := by
    -- A scope looks from the last parameter on, which is the same among distinct ones.
    have hmem := Node.mem_zip_of_scopeOf h
    clear h
    induction params generalizing args with
    | nil => exact absurd hmem List.not_mem_nil
    | cons param rest ih =>
      obtain ⟨hparam, hrest⟩ := List.nodup_cons.mp hparams
      cases args with
      | nil => exact absurd hmem List.not_mem_nil
      | cons first others =>
        rw [List.map_cons, List.zip_cons_cons]
        rcases List.mem_cons.mp hmem with heq | hmem
        · obtain ⟨rfl, rfl⟩ := Prod.mk.inj heq
          exact List.lookup_cons_self
        · have hne : id ≠ param := fun heq => hparam (heq ▸ (List.of_mem_zip hmem).1)
          rw [List.lookup_cons, beq_eq_false_iff_ne.mpr hne]
          exact ih hrest hmem
  rw [bound, hlookup]
  rfl

/-- What no argument is put for keeps the value that it is given. -/
theorem bound_unbound {params : List SymbolId} {args : List Node} {value : Node → Bool}
    {id : SymbolId} (h : Node.scopeOf params args id = none) :
    bound given params (args.map value) id = given id := by
  have hlookup : (params.zip (args.map value)).lookup id = none := by
    have hnone := List.lookup_eq_none_iff.mp h
    refine List.lookup_eq_none_iff.mpr fun entry hentry => ?_
    rw [List.zip_map_right] at hentry
    obtain ⟨⟨param, arg⟩, hpair, rfl⟩ := List.mem_map.mp hentry
    exact hnone (param, arg) (List.mem_reverse.mpr hpair)
  rw [bound, hlookup]
  rfl

/-- A body that arguments are put in means the same as the body where parameters stand for the
values of the arguments. -/
theorem Denotes.instantiate {script : Script} (hparams : script.params.Nodup) {args : List Node}
    {argument : Node → Bool}
    (hargs : ∀ arg ∈ args, Denotes scripts symbols given given arg (argument arg))
    (hbody : Denotes scripts symbols given (bound given script.params (args.map argument))
      script.body value)
    (hlogical : script.body.Each (Node.Logical (Applies scripts symbols script.params))) :
    Denotes scripts symbols given given (Inline.instantiate script args) value := by
  refine hbody.substitute (fun id hid => bound_unbound hid) (fun id arg hid => ?_)
    (hlogical.imp fun h target args' heq => ?_)
  · rw [bound_of_scopeOf hparams hid]
    exact hargs arg (Node.mem_of_scopeOf hid)
  · subst heq
    obtain ⟨callee, _, _, rfl, hcallee, -⟩ := h
    exact Node.substitute_unbound (Node.scopeOf_unbound hcallee)

/-- A body is built as before where arguments that are so have been put in. -/
theorem instantiate_logical {script : Script}
    (hbody : script.body.Each (Node.Logical (Applies scripts symbols script.params)))
    {args : List Node}
    (hargs : ∀ arg ∈ args, arg.Each (Node.Logical (Applies scripts symbols []))) :
    (instantiate script args).Each (Node.Logical (Applies scripts symbols [])) := by
  refine Node.Each.substitute (P := Node.Logical (Applies scripts symbols script.params))
    (Q := Node.Logical (Applies scripts symbols [])) (fun _ => trivial) (fun _ => trivial)
    (fun _ => trivial) (fun h _ _ => h.elim) (fun _ _ => trivial) (fun _ => trivial)
    (fun {target args'} h => ?_) False.elim False.elim
    (fun hid => hargs _ (Node.mem_of_scopeOf hid)) hbody
  obtain ⟨callee, name, callee', rfl, hcallee, hscript, hlength⟩ := h
  rw [Node.substitute_unbound (Node.scopeOf_unbound hcallee)]
  exact ⟨callee, name, callee', rfl, List.not_mem_nil, hscript,
    hlength.trans (List.length_map _).symm⟩

/-! ## Expansion -/

/-- The truth values of names, as facts. -/
def byName (given : SymbolId → Bool) : Node → Bool
  | .identifier id => given id
  | _ => false

/-- What a tree is expanded to has no calls, and the truth value that the tree denotes. -/
theorem Expands.verdict {node' : Node} (h : Expands scripts symbols node node')
    (hscripts : Lexical scripts symbols)
    (hnode : node.Each (Node.Logical (Applies scripts symbols [])))
    (hvalue : Denotes scripts symbols given given node value) :
    node'.Each (Node.Logical fun _ _ => False) ∧ node'.verdict (byName given) = value := by
  have hall : ∀ {items items' : List Node} {value : Node → Bool}, items.length = items'.length →
      (∀ {item item'}, (item, item') ∈ items.zip items' →
        item'.Each (Node.Logical fun _ _ => False) ∧ item'.verdict (byName given) = value item) →
      (∀ item' ∈ items', item'.Each (Node.Logical fun _ _ => False)) ∧
        items'.map (Node.verdict (byName given)) = items.map value := by
    intro items items' value hlength h
    refine ⟨fun item' hitem' => ?_, map_of_zipped hlength fun hpair => (h hpair).2⟩
    obtain ⟨item, hpair⟩ := exists_zipped hlength hitem'
    exact (h hpair).1
  induction h generalizing value with
  | anyOf hlength _ ih =>
    cases hnode with | anyOf _ hitems =>
    cases hvalue with | anyOf hvalues =>
    obtain ⟨hlogical, hverdicts⟩ := hall hlength fun {item item'} hpair =>
      have hitem := (List.of_mem_zip hpair).1
      ih hpair (hitems item hitem) (hvalues item hitem)
    refine ⟨Node.Each.disjoin (fun _ => trivial) (fun _ => trivial) hlogical, ?_⟩
    rw [Node.verdict_disjoin, ← hverdicts, List.any_map]
    rfl
  | every hlength _ ih =>
    cases hnode with | every _ hitems =>
    cases hvalue with | every hvalues =>
    obtain ⟨hlogical, hverdicts⟩ := hall hlength fun {item item'} hpair =>
      have hitem := (List.of_mem_zip hpair).1
      ih hpair (hitems item hitem) (hvalues item hitem)
    refine ⟨Node.Each.conjoin (fun _ => trivial) (fun _ => trivial) hlogical, ?_⟩
    rw [Node.verdict_conjoin, ← hverdicts, List.all_map]
    rfl
  | boolean _ =>
    cases hvalue
    exact ⟨.boolean trivial, rfl⟩
  | compare _ _ _ _ _ => exact hnode.self.elim
  | identifier _ =>
    cases hvalue
    exact ⟨.identifier trivial, rfl⟩
  | invert _ ih =>
    cases hnode with | invert _ hinner =>
    cases hvalue with | invert hvalue =>
    obtain ⟨hlogical, hverdict⟩ := ih hinner hvalue
    exact ⟨.invert trivial hlogical, by rw [Node.verdict_invert, hverdict]⟩
  | keep hscript _ _ _ _ _ =>
    obtain ⟨_, _, _, -, -, hscript', -⟩ := hnode.self
    exact absurd (hscript.symm.trans hscript') nofun
  | call hscript hlength _ ih =>
    cases hnode with | invoke _ _ hargs =>
    cases hvalue with | call hscript' _ hvalues hbody =>
    obtain ⟨rfl, rfl⟩ := Prod.mk.inj (Option.some.inj (hscript.symm.trans hscript'))
    have hget := get?_of_scriptOf? hscript
    have hlogical := hscripts.bodies hget
    exact ih (instantiate_logical hlogical hargs)
      (.instantiate (hscripts.params hget) hvalues hbody hlogical)
  | number _ => exact hnode.self.elim
  | string _ => exact hnode.self.elim

end Denotes

/-- A tree of names, negations, junctions and lexical calls denotes one truth value, and if
inlining succeeds, the tree that it leaves has that value and no calls. -/
theorem inlining_hygienic {scripts : Scripts} {w w' : World}
    (hscripts : Lexical scripts w.symbols) {node node' : Node}
    (hnode : node.Each (Node.Logical (Applies scripts w.symbols []))) {limit : Nat}
    (hok : (Pass.inlineCalls limit).apply scripts node w = (.ok node', w'))
    (given : SymbolId → Bool) :
    node'.Each (Node.Logical fun _ _ => False) ∧
      ∀ value, Denotes scripts w.symbols given given node value ↔
        node'.verdict (byName given) = value := by
  obtain ⟨result, -, htransform, hgood⟩ := counted_transform scripts w limit
    (Nat.sub_zero limit) node
  rw [Pass.apply_eq] at hok
  obtain rfl : result = .ok node' := congrArg Prod.fst (htransform.symm.trans hok)
  obtain ⟨value, hvalue⟩ := hscripts.denotes hnode given given
  obtain ⟨hlogical, hverdict⟩ := Expands.verdict hgood hscripts hnode hvalue
  refine ⟨hlogical, fun value' => ⟨fun h => ?_, fun h => ?_⟩⟩
  · exact hverdict.trans (hvalue.unique h)
  · rwa [← h, hverdict]

/-- Two functions, each of which speaks of the parameter of the other, and the first calls the
second. -/
def crossing : Scripts :=
  ⟨[("outer", ⟨0, [2], .anyOf [.call 1 [.invert (.identifier 2)], .identifier 3]⟩),
    ("inner", ⟨1, [3], .every [.identifier 3, .identifier 2]⟩)]⟩

/-- The world where they are declared. -/
def crossingWorld : World :=
  ⟨((SymbolTable.empty.declareMany ["outer", "inner"] .scriptedFunction).2.declareMany ["x", "y"]
    .parameter).2, .empty, .empty⟩

theorem crossing_inner : scriptOf? crossing crossingWorld.symbols (.identifier 1) =
    some ("inner", ⟨1, [3], .every [.identifier 3, .identifier 2]⟩) := by cbv

theorem crossing_lexical : Lexical crossing crossingWorld.symbols where
  params := by
    intro name script hget
    obtain ⟨-, rfl⟩ | ⟨-, rfl⟩ := Scripts.get?_pair hget <;> decide
  bodies := by
    intro name script hget
    obtain ⟨-, rfl⟩ | ⟨-, rfl⟩ := Scripts.get?_pair hget
    · refine .anyOf trivial (List.forall_mem_cons.mpr ⟨?_, List.forall_mem_singleton.mpr
        (.identifier trivial)⟩)
      exact .invoke ⟨1, "inner", _, rfl, by decide, crossing_inner, rfl⟩ (.identifier trivial)
        (List.forall_mem_singleton.mpr (.invert trivial (.identifier trivial)))
    · exact .every trivial (List.forall_mem_cons.mpr ⟨.identifier trivial,
        List.forall_mem_singleton.mpr (.identifier trivial)⟩)
  nonRecursive := by
    have hother : ∀ {callee part}, (∀ target args, part ≠ .invoke target args) →
        ¬ IsCall crossing crossingWorld.symbols callee part :=
      fun h ⟨target, args, _, heq, _⟩ => h target args heq
    refine nonRecursive_of_rank (fun name => if name = "outer" then 1 else 0) ?_
    rintro caller callee ⟨script, hget, hcalls⟩
    obtain ⟨rfl, rfl⟩ | ⟨rfl, rfl⟩ := Scripts.get?_pair hget
    · by_cases hcallee : callee = "outer"
      · refine absurd (.anyOf (hother fun _ _ => nofun) (List.forall_mem_cons.mpr ⟨?_,
          List.forall_mem_singleton.mpr (.identifier (hother fun _ _ => nofun))⟩)) hcalls
        refine .invoke ?_ (.identifier (hother fun _ _ => nofun)) (List.forall_mem_singleton.mpr
          (.invert (hother fun _ _ => nofun) (.identifier (hother fun _ _ => nofun))))
        rintro ⟨_, _, _, heq, hscript⟩
        obtain ⟨rfl, -⟩ := Node.invoke.inj heq
        rw [hcallee, crossing_inner] at hscript
        exact absurd (Prod.mk.inj (Option.some.inj hscript)).1 (by decide)
      · rw [if_neg hcallee, if_pos rfl]
        exact Nat.zero_lt_one
    · exact absurd (.every (hother fun _ _ => nofun) (List.forall_mem_cons.mpr
        ⟨.identifier (hother fun _ _ => nofun),
          List.forall_mem_singleton.mpr (.identifier (hother fun _ _ => nofun))⟩)) hcalls

/-- Inside the second function, the name of the first one's parameter is as it is given. -/
theorem crossing_denotes :
    (Pass.inlineCalls 2).apply crossing (.call 0 [.identifier 4]) crossingWorld =
        (.ok (.anyOf [.every [.invert (.identifier 4), .identifier 2], .identifier 3]),
          crossingWorld) ∧
      Denotes crossing crossingWorld.symbols (· == 2) (· == 2) (.call 0 [.identifier 4]) true := by
  have hok : (Pass.inlineCalls 2).apply crossing (.call 0 [.identifier 4]) crossingWorld =
      (.ok (.anyOf [.every [.invert (.identifier 4), .identifier 2], .identifier 3]),
        crossingWorld) := by cbv
  have hnode : (Node.call 0 [.identifier 4]).Each
      (Node.Logical (Applies crossing crossingWorld.symbols [])) := by
    have houter : scriptOf? crossing crossingWorld.symbols (.identifier 0) = some ("outer",
        ⟨0, [2], .anyOf [.call 1 [.invert (.identifier 2)], .identifier 3]⟩) := by cbv
    exact .invoke ⟨0, "outer", _, rfl, List.not_mem_nil, houter, rfl⟩ (.identifier trivial)
      (List.forall_mem_singleton.mpr (.identifier trivial))
  obtain ⟨-, hdenotes⟩ := inlining_hygienic crossing_lexical hnode hok (· == 2)
  exact ⟨hok, (hdenotes true).mpr (by decide)⟩

end Inline

end Passage
