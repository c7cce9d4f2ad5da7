import Dang.Foundations.Environment
import Dang.Pool.Operations
import Dang.SymbolTable.Define

/-!
# Scopes of symbols

The symbol tables of one context, the innermost in `m_symboltable`, with what they hold:
`vm_start_scope`, `vm_end_scope`, `symbol_define` and `symbol_lookup`. Symbols refer to
objects in the five pools, where references to them are counted. The registry of symbol
tables, which none of these calls reads, is left out.
-/

namespace Dang

/-- The flags have one of the six types of symbols. -/
def Symbol.HasType (flags : Flags32) : Prop :=
  (Symbol.kind flags).isSome ∨ flags &&& symbolTypeMask = symbolFunction

instance (flags : Flags32) : Decidable (Symbol.HasType flags) :=
  inferInstanceAs (Decidable (_ ∨ _))

/-- The pools of the objects that symbols refer to. -/
abbrev Pools (α : Type) := ReferenceKind → Pool α

namespace Pools

variable {α : Type}

/-- The flags that the `_allocate` of each kind of object gives its pool. -/
def allocationFlags (kind : ReferenceKind) (flags : Flags32) : Flags8 :=
  match kind with
  | .scalar | .array => (flags &&& ~~~symbolTypeMask).setWidth 8
  | .hash => 0
  | .channel | .stream => flagShared

/-- The flags and referent that `symbol_define` gives a new symbol, with the reference to it
counted in its pool. -/
def describe (types : ReferenceKind → PoolType α) (memory : Memory) (pools : Pools α)
    (flags : Flags32) (handle : ℕ) : Outcome ((Flags32 × ℕ) × Pools α) :=
  match Symbol.kind flags with
  | some kind =>
      if handle ≠ 0 then do
        let (referent, pool) ← (pools kind).reference handle
        .ok ((flags &&& symbolTypeMask, referent), Function.update pools kind pool)
      else do
        let (referent, pool) ←
          (pools kind).allocate (types kind) memory (allocationFlags kind flags)
        .ok ((flags &&& symbolTypeMask, referent), Function.update pools kind pool)
  | none =>
      if flags &&& symbolTypeMask = symbolFunction then .ok ((symbolFunction, handle), pools)
      else .ok ((0, 0), pools)

/-- Giving back what a symbol owns. -/
def release (types : ReferenceKind → PoolType α) (pools : Pools α) :
    List Owned → Outcome (Pools α)
  | [] => .ok pools
  | .string _ :: rest => release types pools rest
  | .reference kind handle :: rest => do
      let (_, pool) ← (pools kind).release (types kind) handle
      release types (Function.update pools kind pool) rest

/-- The references to each object are counted as before. -/
def SameCounts (before after : Pools α) : Prop :=
  ∀ kind handle, (before kind).HandleValid handle →
    ((after kind).items handle).references = ((before kind).items handle).references

/-- There is a referent for the symbol to define: a reference to the object is counted, or the
pool has room for a new one, which no thread has locked. -/
def Obtains (types : ReferenceKind → PoolType α) (memory : Memory) (pools : Pools α)
    (flags : Flags32) (handle : ℕ) : Prop :=
  ∃ description described, pools.describe types memory flags handle =
      .ok (description, described) ∧
    ∀ kind, Symbol.kind flags = some kind → description.2 ≠ 0 ∧
      ∀ mutex ∈ ((described kind).items description.2).mutex, handle = 0 → mutex.depth = 0

end Pools

namespace SymbolHeap

/-- `_symbol_reap` and `free`, unless the pointer is null: what is given back. -/
def reap : ℕ → SymbolHeap → ℕ → Outcome (List Owned × SymbolHeap)
  | 0, _, _ => .error .outOfFuel
  | fuel + 1, heap, symbol =>
      if symbol = 0 then .ok ([], heap)
      else do
        let node ← heap.read symbol
        let (left, heap) ← reap fuel heap node.leftChild
        let node ← heap.read symbol
        let (right, heap) ← reap fuel heap node.rightChild
        let (released, heap) ← heap.dispose symbol
        .ok (left ++ right ++ released, heap)

/-- `free` of a symbol table. -/
def freeTable (heap : SymbolHeap) (address : ℕ) : SymbolHeap :=
  { heap with tables := Function.update heap.tables address none }

/-- The type and referent of the symbol that a lookup returns a pointer to. -/
def describes (heap : SymbolHeap) (symbol : ℕ) : Outcome (Option (Flags32 × ℕ)) :=
  if symbol = 0 then .ok none
  else do
    let node ← heap.read symbol
    .ok (some (node.flags, node.referent))

end SymbolHeap

/-- A context's symbol tables. -/
structure LexicalContext (α : Type) where
  heap : SymbolHeap
  /-- The `m_references` of each table. -/
  references : ℕ → ℕ
  /-- `m_symboltable` -/
  symboltable : ℕ
  pools : Pools α

/-- A call, with what `calloc` returns in it and what it returns itself. -/
inductive ScopeCall
  | startScope (address : ℕ) (status : ℤ)
  | endScope (released : List Owned)
  | define (table identifier : ℕ) (flags : Flags32) (handle address : ℕ) (memory : Memory)
      (symbol : ℕ)
  | lookup (table identifier : ℕ) (found : Option (Flags32 × ℕ))

namespace LexicalContext

variable {α : Type}

def setReferences (context : LexicalContext α) (address references : ℕ) : LexicalContext α :=
  { context with references := Function.update context.references address references }

/-- `symboltable_init` of storage at an address. -/
def initTable (context : LexicalContext α) (self parent : ℕ) : Outcome (LexicalContext α) := do
  Outcome.assertThat (self ≠ 0)
  Outcome.assertThat (self ≠ parent)
  let context : LexicalContext α :=
    { context with
      heap := context.heap.setTable self ⟨parent, 0⟩
      references := Function.update context.references self 1 }
  if parent = 0 then .ok context
  else do
    let _ ← context.heap.readTable parent
    .ok (context.setReferences parent (context.references parent + 1))

/-- `if (table != NULL) --table->m_references` -/
def dropReference (context : LexicalContext α) (table : ℕ) : Outcome (LexicalContext α) :=
  if table = 0 then .ok context
  else do
    let _ ← context.heap.readTable table
    .ok (context.setReferences table (context.references table - 1))

/-- `symboltable_destroy`: the status, and what the symbols give back. -/
def destroyTable (fuel : ℕ) (context : LexicalContext α) (self : ℕ) :
    Outcome (ℤ × List Owned × LexicalContext α) := do
  let table ← context.heap.readTable self
  Outcome.assertThat (0 < context.references self)
  if context.references self = 1 then do
    let context ← context.dropReference table.parent
    let (released, heap) ← context.heap.reap fuel table.symbols
    let context : LexicalContext α := { context with heap := heap.setTable self ⟨0, 0⟩ }
    .ok (0, released, context.setReferences self 0)
  else
    .ok (-1, [], context.setReferences self (context.references self - 1))

/-- `vm_start_scope`; `address` is what `calloc` returns. -/
def startScope (context : LexicalContext α) (address : ℕ) :
    Outcome (ℤ × LexicalContext α) :=
  if address = 0 then .ok (-1, context)
  else do
    let context ← context.initTable address context.symboltable
    .ok (0, { context with symboltable := address })

/-- `vm_end_scope`: what the symbols of the scope give back. -/
def endScope (fuel : ℕ) (context : LexicalContext α) :
    Outcome (List Owned × LexicalContext α) := do
  Outcome.assertThat (context.symboltable ≠ 0)
  let oldTable := context.symboltable
  let table ← context.heap.readTable oldTable
  let context := { context with symboltable := table.parent }
  let (status, released, context) ← context.destroyTable fuel oldTable
  .ok (released,
    if status = 0 then { context with heap := context.heap.freeTable oldTable } else context)

/-- `symbol_define`: the new symbol, or zero; `address` is what `calloc` returns for it. -/
def define (types : ReferenceKind → PoolType α) (memory : Memory) (fuel address : ℕ)
    (context : LexicalContext α) (table identifier : ℕ) (flags : Flags32) (handle : ℕ) :
    Outcome (ℕ × LexicalContext α) := do
  Outcome.assertThat (table ≠ 0)
  if address = 0 then .ok (0, context)
  else do
    let ((flags, referent), pools) ← context.pools.describe types memory flags handle
    let heap := context.heap.set address (some ⟨0, 0, 0, identifier, flags, referent⟩)
    let (status, heap) ← heap.insert fuel table address
    if status = 0 then .ok (address, { context with heap := heap, pools := pools })
    else do
      let (released, heap) ← heap.dispose address
      let pools ← pools.release types released
      .ok (0, { context with heap := heap, pools := pools })

/-- `symbol_lookup`, and what the pointer it returns leads to. -/
def lookup (fuel : ℕ) (context : LexicalContext α) (table identifier : ℕ) :
    Outcome (Option (Flags32 × ℕ)) := do
  let symbol ← context.heap.lookup fuel table identifier
  context.heap.describes symbol

/-- The table is the one at the address, or one that encloses it. -/
inductive Encloses (heap : SymbolHeap) (table : ℕ) : ℕ → Prop
  | self (nonzero : table ≠ 0) : Encloses heap table table
  | outer {address : ℕ} {inner : SymbolTable} (nonzero : address ≠ 0)
      (atAddress : heap.tables address = some inner)
      (outside : Encloses heap table inner.parent) : Encloses heap table address

/-- One call that returns, on the tables of the context. Storage that `calloc` returns is not in
use. What becomes of the objects that an ended scope gives back is left open. -/
def Step (types : ReferenceKind → PoolType α) (source : LexicalContext α) (call : ScopeCall)
    (target : LexicalContext α) : Prop :=
  match call with
  | .startScope address status => (address ≠ 0 → source.heap.tables address = none) ∧
      source.startScope address = .ok (status, target)
  | .endScope released => ∃ ended : LexicalContext α,
      Outcome.Returns (fun fuel => source.endScope fuel) (released, ended) ∧
        target = { ended with pools := target.pools }
  | .define table identifier flags handle address memory symbol =>
      Encloses source.heap table source.symboltable ∧
        (address ≠ 0 → source.heap.symbols address = none) ∧
        Outcome.Returns (fun fuel =>
          source.define types memory fuel address table identifier flags handle) (symbol, target)
  | .lookup table identifier found =>
      Encloses source.heap table source.symboltable ∧
        Outcome.Returns (fun fuel => source.lookup fuel table identifier) found ∧
          target = source

end LexicalContext

end Dang
