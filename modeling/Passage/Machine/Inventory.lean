import Passage.Machine.Host

/-!
# Inventories

An inventory says how many of each item are held, by the address of the item's
pointer. The functions that ask for items are answered from it.
-/

namespace Passage

abbrev Inventory := UInt32 → Nat

namespace Inventory

/-- A refusal that carries the fault of an object. -/
def refuse (e : ObjectError) : HostFault := .refused e.message

/-- Whether at least `quantity` of the item are held. -/
def holds (inventory : Inventory) (item : Object) (quantity : Number) : Except HostFault Bool :=
  match item.asPointer with
  | .error e => .error (refuse e)
  | .ok p => .ok (quantity.atMost (Number.ofNat (inventory p.address)))

/-- Whether an item is held in the quantity of the second argument. -/
def has (inventory : Inventory) (args : List Object) : Except HostFault Object :=
  match (args[1]?.getD Object.null).asNumber with
  | .error e => .error (refuse e)
  | .ok quantity => (inventory.holds (args.headD Object.null) quantity).map .ofBool

/-- Whether each of the items is held, all of them being asked for. -/
def holdsEach (inventory : Inventory) : List Object → Except HostFault (List Bool)
  | [] => .ok []
  | item :: rest =>
      match inventory.holds item (Number.ofNat 1) with
      | .error e => .error e
      | .ok held => (inventory.holdsEach rest).map (held :: ·)

def hasEvery (inventory : Inventory) (args : List Object) : Except HostFault Object :=
  (inventory.holdsEach args).map fun held => .ofBool (held.all id)

def hasAnyOf (inventory : Inventory) (args : List Object) : Except HostFault Object :=
  (inventory.holdsEach args).map fun held => .ofBool (held.any id)

/-- The quantity check that the inventory answers. -/
def check (inventory : Inventory) : QuantityCheck := fun _ item quantity =>
  (inventory.holds item (Number.ofNat quantity.toNat)).map .ofBool

end Inventory

end Passage
