import ArenaScheme.Main
import ArenaScheme.Proofs.FreeList
import ArenaScheme.Proofs.Marking
import ArenaScheme.Proofs.Allocation
import ArenaScheme.Proofs.History
import ArenaScheme.Proofs.Propagation
import ArenaScheme.Proofs.Transparency
import ArenaScheme.Proofs.Exhaustion
import ArenaScheme.Proofs.Interning
import ArenaScheme.Proofs.Reading.Grammar
import ArenaScheme.Proofs.Reading.Automaton
import ArenaScheme.Proofs.Reading.Ownership
import ArenaScheme.Proofs.Reading.Layout
import ArenaScheme.Proofs.Reading.Handover
import ArenaScheme.Proofs.Reading.Refinement
import ArenaScheme.Proofs.Printing.Bytes
import ArenaScheme.Proofs.Printing.Texts
import ArenaScheme.Proofs.Printing.Tokens
import ArenaScheme.Proofs.Printing.Roundtrip
import ArenaScheme.Proofs.Bindings
import ArenaScheme.Proofs.Calls.Frames
import ArenaScheme.Proofs.Protection.Constructors
import ArenaScheme.Proofs.Chains.Updates
import ArenaScheme.Proofs.Templates.Evaluation
import ArenaScheme.Proofs.Spines.Printing
import ArenaScheme.Proofs.Expansion.Let
import ArenaScheme.Proofs.Tails.Boundedness
import ArenaScheme.Proofs.Scanning.Lists
import ArenaScheme.Proofs.Scanning.Completeness
import ArenaScheme.Proofs.Applying.Elements
import ArenaScheme.Proofs.Procedures.Arithmetic
import ArenaScheme.Proofs.Scopes.Let
import ArenaScheme.Proofs.Consuming.Operands
import ArenaScheme.Proofs.Suspension.Frames
