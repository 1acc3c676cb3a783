import Passage.Code.Basic
import Passage.Code.Disassembly
import Passage.Code.Fault
import Passage.Code.Generate
import Passage.Code.Opcode
import Passage.Code.Tape
import Passage.Config
import Passage.Diagnostic
import Passage.Environment.Basic
import Passage.Environment.Source
import Passage.Fnv
import Passage.Json.Document
import Passage.Json.Numeral
import Passage.Machine.Basic
import Passage.Machine.Event
import Passage.Machine.Fault
import Passage.Machine.Host
import Passage.Machine.Inventory
import Passage.Machine.Trace
import Passage.Node.Basic
import Passage.Node.Hash
import Passage.Node.Lowering
import Passage.Node.Render
import Passage.Node.Substitution
import Passage.Number.Basic
import Passage.Number.Notation
import Passage.Number.Rounding
import Passage.Number.Shortest
import Passage.Object.Basic
import Passage.Object.Pool
import Passage.Object.Signature
import Passage.Object.Table
import Passage.Object.Value
import Passage.Pass.Basic
import Passage.Pass.Call
import Passage.Pass.Connection
import Passage.Pass.Fault
import Passage.Pass.Fold
import Passage.Pass.Inline
import Passage.Pass.Item
import Passage.Pass.Kind
import Passage.Pass.Pipeline
import Passage.Pass.Rules
import Passage.Pass.Setting
import Passage.Pass.Standard
import Passage.Proofs.Accounting
import Passage.Proofs.Arena
import Passage.Proofs.Assembling
import Passage.Proofs.Atomicity
import Passage.Proofs.Binding
import Passage.Proofs.Callees
import Passage.Proofs.Chaining
import Passage.Proofs.Coding
import Passage.Proofs.Coherence
import Passage.Proofs.Collapsing
import Passage.Proofs.Comparing
import Passage.Proofs.Confluence
import Passage.Proofs.Consuming
import Passage.Proofs.Continuity
import Passage.Proofs.Conversation
import Passage.Proofs.Correctness
import Passage.Proofs.Deciding
import Passage.Proofs.Deepening
import Passage.Proofs.Demand
import Passage.Proofs.Dereferencing
import Passage.Proofs.Digits
import Passage.Proofs.Drafting
import Passage.Proofs.Easing
import Passage.Proofs.Encoding
import Passage.Proofs.Entering
import Passage.Proofs.Entries
import Passage.Proofs.Evaluation
import Passage.Proofs.Expanding
import Passage.Proofs.Fallible
import Passage.Proofs.Filling
import Passage.Proofs.Folding
import Passage.Proofs.Formulas
import Passage.Proofs.Framing
import Passage.Proofs.Functions
import Passage.Proofs.Gathering
import Passage.Proofs.Generation
import Passage.Proofs.Glyphs
import Passage.Proofs.Growth
import Passage.Proofs.Heights
import Passage.Proofs.Histories
import Passage.Proofs.Hosting
import Passage.Proofs.Hygiene
import Passage.Proofs.Interpreting
import Passage.Proofs.Inventories
import Passage.Proofs.Joining
import Passage.Proofs.Junctions
import Passage.Proofs.Lasting
import Passage.Proofs.Ledger
import Passage.Proofs.Lexing
import Passage.Proofs.Literals
import Passage.Proofs.Lockstep
import Passage.Proofs.Lowering
import Passage.Proofs.Maintenance
import Passage.Proofs.Making
import Passage.Proofs.Names
import Passage.Proofs.Naming
import Passage.Proofs.Nesting
import Passage.Proofs.Normality
import Passage.Proofs.Numerals
import Passage.Proofs.Objects
import Passage.Proofs.Order
import Passage.Proofs.Packing
import Passage.Proofs.Parsing
import Passage.Proofs.Pointers
import Passage.Proofs.Pool
import Passage.Proofs.Printing
import Passage.Proofs.Printouts
import Passage.Proofs.Rearranging
import Passage.Proofs.Redefining
import Passage.Proofs.Reducing
import Passage.Proofs.Referring
import Passage.Proofs.Refitting
import Passage.Proofs.Regimes
import Passage.Proofs.Regions
import Passage.Proofs.Relowering
import Passage.Proofs.Renaming
import Passage.Proofs.Reordering
import Passage.Proofs.Repeating
import Passage.Proofs.Reserve
import Passage.Proofs.Respelling
import Passage.Proofs.Rewriting
import Passage.Proofs.Rounds
import Passage.Proofs.Scanning
import Passage.Proofs.Schemes
import Passage.Proofs.Scoping
import Passage.Proofs.Scripting
import Passage.Proofs.Serving
import Passage.Proofs.Settling
import Passage.Proofs.Shortcuts
import Passage.Proofs.Silence
import Passage.Proofs.Simulation
import Passage.Proofs.Snapshots
import Passage.Proofs.Spelling
import Passage.Proofs.Stack
import Passage.Proofs.Stages
import Passage.Proofs.Steps
import Passage.Proofs.Strata
import Passage.Proofs.Subsiding
import Passage.Proofs.Substituting
import Passage.Proofs.Symbols
import Passage.Proofs.Taking
import Passage.Proofs.Tapes
import Passage.Proofs.Termination
import Passage.Proofs.Tiling
import Passage.Proofs.Tracing
import Passage.Proofs.Traversal
import Passage.Proofs.Truth
import Passage.Proofs.Truthfulness
import Passage.Proofs.Uncovering
import Passage.Proofs.Unpacking
import Passage.Proofs.Upkeep
import Passage.Proofs.Values
import Passage.Proofs.Verdicts
import Passage.Proofs.Walking
import Passage.Proofs.Weighing
import Passage.Proofs.Wording
import Passage.Proofs.Worklist
import Passage.Rule.Lexer
import Passage.Rule.Parser
import Passage.Rule.Scanner
import Passage.Rule.Token
import Passage.Rule.Tree
import Passage.Setting.Basic
import Passage.Setting.Schema
import Passage.Snapshot.Code
import Passage.Snapshot.Table
import Passage.Snapshot.Varint
import Passage.Stage
import Passage.Symbol.Kind
import Passage.Symbol.Table
import Passage.Text.Align
import Passage.Text.Bytes
import Passage.Text.Hidden
import Passage.Text.Quoted
import Passage.World.Basic
import Passage.World.Context
import Passage.World.Script
