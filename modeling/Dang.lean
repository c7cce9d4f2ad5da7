import Dang.Foundations.Program
import Dang.Foundations.Outcome
import Dang.Foundations.Run
import Dang.Foundations.Chain
import Dang.Memory
import Dang.Pool.Basic
import Dang.Pool.FreeList
import Dang.Pool.Blocks
import Dang.Channel.Basic
import Dang.Channel.Ownership
import Dang.Foundations.PointerTree
import Dang.SymbolTable.Basic
import Dang.SymbolTable.Representation
import Dang.SymbolTable.Define
import Dang.SymbolTable.Undefine
import Dang.Array.Basic
import Dang.Array.Window
import Dang.Foundations.Refinement
import Dang.Array.Deque
import Dang.Array.Arrays
import Dang.Array.ItemAt
import Dang.Bytes
import Dang.Foundations.Entries
import Dang.Scalar.Value
import Dang.Hash.Basic
import Dang.Hash.Map
import Dang.Hash.Refinement
import Dang.Hash.Calls
import Dang.Assembler.Source
import Dang.Foundations.Buffer
import Dang.Assembler.Assemble
import Dang.Assembler.Layout
import Dang.Bytecode.Operand
import Dang.Assembler.Encoding
import Dang.Assembler.Agreement
import Dang.Machine.Context
import Dang.Machine.Frames
import Dang.Machine.Calls
import Dang.Pool.Lifetime
import Dang.Machine.Signals
import Dang.Machine.Finish
import Dang.Registry
import Dang.Machine.Teardown
import Dang.Machine.Threads
import Dang.Scalar.Shared
import Dang.Machine.DataStack
import Dang.Machine.DataStackCalls
import Dang.Machine.Loaded
import Dang.Foundations.Environment
import Dang.SymbolTable.Lexical
import Dang.SymbolTable.Scoping
import Dang.SymbolTable.ScopingRuns
import Dang.Channel.Fifo
import Dang.Foundations.ChainTable
import Dang.Hash.Listing
import Dang.Array.Slice
import Dang.Array.Failure
import Dang.Foundations.ParentPointers
import Dang.SymbolTable.Parents
import Dang.SymbolTable.Clone
import Dang.Foundations.Lineage
import Dang.Machine.Collect
import Dang.Channel.Destroy
import Dang.Channel.Wakeups
import Dang.Machine.ValueStack
import Dang.Machine.ArrayCopy
import Dang.Hash.Hashes
import Dang.Machine.HashCopy
import Dang.Machine.Branches
import Dang.StringBuffer
import Dang.Channel.Write
import Dang.StackBlock
import Dang.Machine.Duplicate
import Dang.Machine.Locals
import Dang.Machine.Rotations
import Dang.Assembler.Lexer
import Dang.Assembler.Numbers
import Dang.Assembler.Quoted
import Dang.Assembler.Grammar
import Dang.Assembler.Labels
import Dang.Assembler.Answers
import Dang.Machine.Concat
import Dang.Machine.Operands
import Dang.Machine.Characters
import Dang.Foundations.Records
import Dang.Stream.Basic
import Dang.Stream.Delimited
import Dang.Stream.Counted
import Dang.Stream.Socket
import Dang.Machine.HashKeys
import Dang.Foundations.Consecutive
import Dang.Pool.Search
import Dang.Growth
import Dang.StringEnds
import Dang.Assembler.Approach
import Dang.Foundations.Stuttering
import Dang.Machine.OpenCalls
import Dang.Assembler.Preservation
import Dang.Assembler.Simulation
import Dang.Assembler.Starts
import Dang.Assembler.Reproduction
