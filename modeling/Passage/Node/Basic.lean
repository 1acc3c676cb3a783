import Passage.Rule.Tree
import Passage.Symbol.Table

/-!
# Rule nodes

A node is a rule whose names are symbols. Conjunctions and disjunctions are
built by `Node.conjoin` and `Node.disjoin`, which flatten nested ones of their own
kind and absorb booleans, so that what they build has at least two children and
no boolean among them.
-/

namespace Passage

inductive Node where
  | anyOf (items : List Node)
  | every (items : List Node)
  | boolean (value : Bool)
  | compare (op : Comparison) (lhs rhs : Node)
  | identifier (id : SymbolId)
  | invert (inner : Node)
  | invoke (target : Node) (args : List Node)
  | number (value : Number)
  | string (value : String)
deriving Inhabited

namespace Node

/-- The name of the constructor in hashed form. -/
def tag : Node → String
  | .anyOf _ => "anyof"
  | .every _ => "every"
  | .boolean _ => "bool"
  | .compare _ _ _ => "compare"
  | .identifier _ => "identifier"
  | .invert _ => "invert"
  | .invoke _ _ => "invoke"
  | .number _ => "number"
  | .string _ => "string"

def isLiteral : Node → Bool
  | .boolean _ | .number _ | .string _ => true
  | _ => false

def identifier? : Node → Option SymbolId
  | .identifier id => some id
  | _ => none

/-- The symbol that a call names, if the node is a call of a symbol. -/
def callee? : Node → Option SymbolId
  | .invoke target _ => target.identifier?
  | _ => none

/-- A call of a symbol. -/
def call (callee : SymbolId) (args : List Node) : Node :=
  .invoke (.identifier callee) args

/-- The call that asks for `quantity` of an item. -/
def has (has item : SymbolId) (quantity : Number) : Node :=
  .call has [.identifier item, .number quantity]

/-! ## Reducing constructors -/

def isTrue : Node → Bool
  | .boolean true => true
  | _ => false

def isFalse : Node → Bool
  | .boolean false => true
  | _ => false

mutual

/-- Puts a node in front of `done`, a conjunction as its conjuncts, last first. -/
def conjunctsOnto (done : List Node) : Node → List Node
  | .every items => allConjunctsOnto done items
  | node => node :: done

def allConjunctsOnto (done : List Node) : List Node → List Node
  | [] => done
  | node :: rest => allConjunctsOnto (conjunctsOnto done node) rest

end

mutual

/-- Puts a node in front of `done`, a disjunction as its disjuncts, last first. -/
def disjunctsOnto (done : List Node) : Node → List Node
  | .anyOf items => allDisjunctsOnto done items
  | node => node :: done

def allDisjunctsOnto (done : List Node) : List Node → List Node
  | [] => done
  | node :: rest => allDisjunctsOnto (disjunctsOnto done node) rest

end

/-- The items with nested conjunctions replaced by their conjuncts. -/
def flattenEvery (items : List Node) : List Node :=
  (allConjunctsOnto [] items).reverse

/-- The items with nested disjunctions replaced by their disjuncts. -/
def flattenAnyOf (items : List Node) : List Node :=
  (allDisjunctsOnto [] items).reverse

/-- The conjunction of the items: false if one is false, and a single item
stands for itself. -/
def conjoin (items : List Node) : Node :=
  let items := flattenEvery items
  if items.any isFalse then .boolean false
  else match items.filter fun node => !node.isTrue with
    | [] => .boolean true
    | [node] => node
    | items => .every items

/-- The disjunction of the items: true if one is true, and a single item stands
for itself. -/
def disjoin (items : List Node) : Node :=
  let items := flattenAnyOf items
  if items.any isTrue then .boolean true
  else match items.filter fun node => !node.isFalse with
    | [] => .boolean false
    | [node] => node
    | items => .anyOf items

/-! ## Equality -/

mutual

/-- Equality of nodes, numbers being compared by value. A node that holds NaN is
therefore not even equal to itself. -/
def same : Node → Node → Bool
  | .anyOf xs, .anyOf ys => sameAll xs ys
  | .every xs, .every ys => sameAll xs ys
  | .boolean x, .boolean y => x == y
  | .compare op l r, .compare op' l' r' => op == op' && same l l' && same r r'
  | .identifier x, .identifier y => x == y
  | .invert x, .invert y => same x y
  | .invoke f xs, .invoke g ys => same f g && sameAll xs ys
  | .number x, .number y => x.same y
  | .string x, .string y => x == y
  | _, _ => false

def sameAll : List Node → List Node → Bool
  | [], [] => true
  | x :: xs, y :: ys => same x y && sameAll xs ys
  | _, _ => false

end

mutual

/-- Whether two nodes are one tree. Unlike `same`, it holds of a node and itself. -/
def identical : Node → Node → Bool
  | .anyOf xs, .anyOf ys => identicalAll xs ys
  | .every xs, .every ys => identicalAll xs ys
  | .boolean x, .boolean y => x == y
  | .compare op l r, .compare op' l' r' => op == op' && identical l l' && identical r r'
  | .identifier x, .identifier y => x == y
  | .invert x, .invert y => identical x y
  | .invoke f xs, .invoke g ys => identical f g && identicalAll xs ys
  | .number x, .number y => x == y
  | .string x, .string y => x == y
  | _, _ => false

def identicalAll : List Node → List Node → Bool
  | [], [] => true
  | x :: xs, y :: ys => identical x y && identicalAll xs ys
  | _, _ => false

end

mutual

theorem identical_iff (a b : Node) : identical a b = true ↔ a = b := by
  cases a <;> cases b <;> simp [identical, identical_iff, identicalAll_iff, and_assoc]

theorem identicalAll_iff (xs ys : List Node) : identicalAll xs ys = true ↔ xs = ys := by
  cases xs <;> cases ys <;> simp [identicalAll, identical_iff, identicalAll_iff]

end

instance : DecidableEq Node := fun a b => decidable_of_iff _ (identical_iff a b)

end Node

end Passage
