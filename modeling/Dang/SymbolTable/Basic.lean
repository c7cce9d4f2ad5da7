import Dang.Foundations.Tree
import Dang.Scalar.Basic
import Mathlib.Logic.Function.Basic

/-!
# Symbol tables

The symbol tables of `symboltable.c`, with every pointer an address in storage and
zero the null pointer. The two branches of `symbol_undefine` that reconnect a node
with two children mirror each other and are one definition with the side as a
parameter.
-/

namespace Dang

def symbolScalar : Flags32 := 0x01
def symbolArray : Flags32 := 0x02
def symbolHash : Flags32 := 0x03
def symbolChannel : Flags32 := 0x04
def symbolFunction : Flags32 := 0x05
def symbolStream : Flags32 := 0x06

/-- `SYMBOL_TYPE_MASK` -/
def symbolTypeMask : Flags32 := 0x0000000F

/-- `symbol_t` -/
structure Symbol where
  parent : ℕ
  leftChild : ℕ
  rightChild : ℕ
  identifier : ℕ
  flags : Flags32
  referent : ℕ
  deriving DecidableEq, Repr

/-- `symboltable_t`, without its count of references. -/
structure SymbolTable where
  parent : ℕ
  symbols : ℕ
  deriving DecidableEq, Repr

/-- The symbols and symbol tables in storage, at their addresses. -/
structure SymbolHeap where
  symbols : ℕ → Option Symbol
  tables : ℕ → Option SymbolTable

/-- What defining a symbol calls: references to existing objects, and the handles of new
ones, made with the given flags. -/
structure Referents extends References where
  allocate : ReferenceKind → Flags32 → ℕ

namespace Symbol

def child (symbol : Symbol) : Side → ℕ
  | .left => symbol.leftChild
  | .right => symbol.rightChild

def setChild (symbol : Symbol) (target : ℕ) : Side → Symbol
  | .left => { symbol with leftChild := target }
  | .right => { symbol with rightChild := target }

/-- The kind of object that a symbol with these flags counts a reference to. -/
def kind (flags : Flags32) : Option ReferenceKind :=
  let type := flags &&& symbolTypeMask
  if type = symbolScalar then some .scalar
  else if type = symbolArray then some .array
  else if type = symbolHash then some .hash
  else if type = symbolChannel then some .channel
  else if type = symbolStream then some .stream
  else none

/-- `_symbol_destroy`: the reference that is given back. -/
def destroy (symbol : Symbol) : Outcome (List Owned) :=
  match kind symbol.flags with
  | some kind => do
      Outcome.assertThat (0 < symbol.referent)
      .ok [.reference kind symbol.referent]
  | none => .ok []

/-- The flags and referent that `symbol_define` gives a new symbol. Only scalars and arrays
are allocated with flags. -/
def describe (referents : Referents) (flags : Flags32) (handle : ℕ) : Outcome (Flags32 × ℕ) :=
  match kind flags with
  | some kind =>
      let type := flags &&& symbolTypeMask
      if handle ≠ 0 then do
        let referent ← referents.reference kind handle
        .ok (type, referent)
      else if kind = .scalar ∨ kind = .array then
        .ok (type, referents.allocate kind (flags &&& ~~~symbolTypeMask))
      else
        .ok (type, referents.allocate kind 0)
  | none =>
      if flags &&& symbolTypeMask = symbolFunction then .ok (symbolFunction, handle)
      else .ok (0, 0)

end Symbol

namespace SymbolHeap

/-- Following a pointer to a symbol. -/
def read (heap : SymbolHeap) (address : ℕ) : Outcome Symbol :=
  if address = 0 then .error .nullPointer
  else
    match heap.symbols address with
    | some symbol => .ok symbol
    | none => .error .invalidAccess

/-- The storage with one symbol changed. -/
def set (heap : SymbolHeap) (address : ℕ) (symbol : Option Symbol) : SymbolHeap :=
  { heap with symbols := Function.update heap.symbols address symbol }

/-- Writing through a pointer to a symbol. -/
def modify (heap : SymbolHeap) (address : ℕ) (change : Symbol → Symbol) :
    Outcome SymbolHeap := do
  let symbol ← heap.read address
  .ok (heap.set address (some (change symbol)))

def setParent (heap : SymbolHeap) (address parent : ℕ) : Outcome SymbolHeap :=
  heap.modify address fun symbol => { symbol with parent := parent }

def setChild (heap : SymbolHeap) (address : ℕ) (side : Side) (target : ℕ) :
    Outcome SymbolHeap :=
  heap.modify address fun symbol => symbol.setChild target side

/-- Following a pointer to a symbol table. -/
def readTable (heap : SymbolHeap) (address : ℕ) : Outcome SymbolTable :=
  if address = 0 then .error .nullPointer
  else
    match heap.tables address with
    | some table => .ok table
    | none => .error .invalidAccess

/-- Writing a symbol table. -/
def setTable (heap : SymbolHeap) (address : ℕ) (table : SymbolTable) : SymbolHeap :=
  { heap with tables := Function.update heap.tables address (some table) }

/-- `table->m_symbols = symbol` -/
def setSymbols (heap : SymbolHeap) (address symbol : ℕ) : Outcome SymbolHeap := do
  let table ← heap.readTable address
  .ok (heap.setTable address { table with symbols := symbol })

/-- The inner loop of `symbol_lookup`. -/
def searchScope (heap : SymbolHeap) (identifier : ℕ) : ℕ → ℕ → Outcome ℕ
  | 0, _ => .error .outOfFuel
  | fuel + 1, symbol =>
      if symbol = 0 then .ok 0
      else do
        let node ← heap.read symbol
        if identifier < node.identifier then
          heap.searchScope identifier fuel node.leftChild
        else if node.identifier < identifier then
          heap.searchScope identifier fuel node.rightChild
        else
          .ok symbol

/-- The outer loop of `symbol_lookup`. -/
def searchScopes (heap : SymbolHeap) (identifier : ℕ) : ℕ → ℕ → Outcome ℕ
  | 0, _ => .error .outOfFuel
  | fuel + 1, scope =>
      if scope = 0 then .ok 0
      else do
        let table ← heap.readTable scope
        let symbol ← heap.searchScope identifier fuel table.symbols
        if symbol ≠ 0 then .ok symbol else heap.searchScopes identifier fuel table.parent

/-- `symbol_lookup` -/
def lookup (fuel : ℕ) (heap : SymbolHeap) (table identifier : ℕ) : Outcome ℕ := do
  Outcome.assertThat (table ≠ 0)
  heap.searchScopes identifier fuel table

/-- `symbol_lookup` while the table's parent is detached. The parent is put back at once,
so the storage stays as it was. -/
def lookupLocal (fuel : ℕ) (heap : SymbolHeap) (table identifier : ℕ) : Outcome ℕ := do
  let self ← heap.readTable table
  (heap.setTable table { self with parent := 0 }).lookup fuel table identifier

/-- The loop of `_symboltable_insert`. -/
def insertBelow (heap : SymbolHeap) (symbol identifier : ℕ) : ℕ → ℕ → Outcome (ℤ × SymbolHeap)
  | 0, _ => .error .outOfFuel
  | fuel + 1, parent => do
      let node ← heap.read parent
      if identifier < node.identifier then
        if node.leftChild = 0 then do
          let heap ← heap.setChild parent .left symbol
          let heap ← heap.setParent symbol parent
          .ok (0, heap)
        else
          heap.insertBelow symbol identifier fuel node.leftChild
      else if node.identifier < identifier then
        if node.rightChild = 0 then do
          let heap ← heap.setChild parent .right symbol
          let heap ← heap.setParent symbol parent
          .ok (0, heap)
        else
          heap.insertBelow symbol identifier fuel node.rightChild
      else
        .ok (-1, heap)

/-- `_symboltable_insert` -/
def insert (fuel : ℕ) (heap : SymbolHeap) (table symbol : ℕ) : Outcome (ℤ × SymbolHeap) := do
  Outcome.assertThat (table ≠ 0)
  Outcome.assertThat (symbol ≠ 0)
  let self ← heap.readTable table
  if self.symbols = 0 then do
    let heap ← heap.setSymbols table symbol
    .ok (0, heap)
  else do
    let node ← heap.read symbol
    heap.insertBelow symbol node.identifier fuel self.symbols

/-- `_symbol_destroy` and `free` -/
def dispose (heap : SymbolHeap) (symbol : ℕ) : Outcome (List Owned × SymbolHeap) := do
  let node ← heap.read symbol
  let released ← node.destroy
  .ok (released, heap.set symbol none)

/-- `symbol_define`: the new symbol, or zero; `address` is what `calloc` returns. -/
def define (fuel : ℕ) (referents : Referents) (address : ℕ) (heap : SymbolHeap)
    (table identifier : ℕ) (flags : Flags32) (handle : ℕ) :
    Outcome (ℕ × List Owned × SymbolHeap) := do
  Outcome.assertThat (table ≠ 0)
  if address = 0 then .ok (0, [], heap)
  else do
    let (flags, referent) ← Symbol.describe referents flags handle
    let heap := heap.set address (some ⟨0, 0, 0, identifier, flags, referent⟩)
    let (status, heap) ← heap.insert fuel table address
    if status = 0 then .ok (address, [], heap)
    else do
      let (released, heap) ← heap.dispose address
      .ok (0, released, heap)

/-- Makes what linked to `symbol` from `parent` link to `target`. -/
def relink (heap : SymbolHeap) (table parent symbol target : ℕ) : Outcome SymbolHeap :=
  if parent = 0 then heap.setSymbols table target
  else do
    let node ← heap.read parent
    if node.leftChild = symbol then heap.setChild parent .left target
    else if node.rightChild = symbol then heap.setChild parent .right target
    else .ok heap

/-- Takes out a symbol whose only child, or zero, is `child`. -/
def detachSingle (heap : SymbolHeap) (table symbol child : ℕ) : Outcome SymbolHeap := do
  let node ← heap.read symbol
  let heap ← heap.relink table node.parent symbol child
  if node.parent = 0 ∧ child ≠ 0 then heap.setParent child 0 else .ok heap

/-- The loop that follows the links to one side to the last node. -/
def lastChild (heap : SymbolHeap) (side : Side) : ℕ → ℕ → Outcome ℕ
  | 0, _ => .error .outOfFuel
  | fuel + 1, replacement => do
      let node ← heap.read replacement
      if node.child side ≠ 0 then heap.lastChild side fuel (node.child side) else .ok replacement

/-- Takes the replacement out from under its parent, which gets its child on `side`. -/
def reconnect (heap : SymbolHeap) (side : Side) (replacement : ℕ) : Outcome SymbolHeap := do
  let node ← heap.read replacement
  let join := node.parent
  let heap ← heap.setChild join side.opposite (node.child side)
  let joined ← heap.read join
  heap.setParent (joined.child side.opposite) join

/-- Gives the replacement the symbol's child on one side. -/
def adopt (heap : SymbolHeap) (side : Side) (replacement symbol : ℕ) : Outcome SymbolHeap := do
  let node ← heap.read symbol
  let heap ← heap.setChild replacement side (node.child side)
  if node.child side ≠ 0 then heap.setParent (node.child side) replacement else .ok heap

/-- Takes out a symbol with two children: the last node of the subtree on `side` takes its
place. -/
def detachDouble (fuel : ℕ) (heap : SymbolHeap) (side : Side) (table symbol : ℕ) :
    Outcome SymbolHeap := do
  let node ← heap.read symbol
  let replacement ← heap.lastChild side.opposite fuel (node.child side)
  let heap ← heap.reconnect side replacement
  let heap ← heap.adopt .left replacement symbol
  let heap ← heap.adopt .right replacement symbol
  let node ← heap.read symbol
  let heap ← heap.setParent replacement node.parent
  heap.relink table node.parent symbol replacement

/-- The side `symbol_undefine` reconnects from, by what `rand` returned. -/
def reconnectSide (random : BitVec 32) : Side :=
  if random &&& 0x4000 ≠ 0 then .left else .right

/-- Takes out a symbol, by the children it has. -/
def detach (fuel : ℕ) (random : BitVec 32) (heap : SymbolHeap) (table symbol : ℕ) :
    Outcome SymbolHeap := do
  let node ← heap.read symbol
  if node.leftChild ≠ 0 then
    if node.rightChild ≠ 0 then
      heap.detachDouble fuel (reconnectSide random) table symbol
    else
      heap.detachSingle table symbol node.leftChild
  else if node.rightChild ≠ 0 then
    heap.detachSingle table symbol node.rightChild
  else
    heap.detachSingle table symbol 0

/-- `symbol_undefine`; `random` is what `rand` returns. -/
def undefine (fuel : ℕ) (random : BitVec 32) (heap : SymbolHeap) (table identifier : ℕ) :
    Outcome (ℤ × List Owned × SymbolHeap) := do
  Outcome.assertThat (table ≠ 0)
  let symbol ← heap.lookupLocal fuel table identifier
  if symbol = 0 then .ok (0, [], heap)
  else do
    let heap ← heap.detach fuel random table symbol
    let (released, heap) ← heap.dispose symbol
    .ok (0, released, heap)

end SymbolHeap

end Dang
