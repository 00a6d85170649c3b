import KernelPrep.Command.Arguments
import KernelPrep.Command.Run
import KernelPrep.Diagnostic.Basic
import KernelPrep.Diagnostic.Code
import KernelPrep.Diagnostic.Render
import KernelPrep.Disk
import KernelPrep.Document
import KernelPrep.Lexeme.Basic
import KernelPrep.Lexeme.Cursor
import KernelPrep.Lexeme.Scan
import KernelPrep.Main
import KernelPrep.Node.Basic
import KernelPrep.Node.Tree
import KernelPrep.Outline.Dump
import KernelPrep.Outline.Error
import KernelPrep.Outline.Feed
import KernelPrep.Outline.Function
import KernelPrep.Outline.Leaf
import KernelPrep.Outline.Parse
import KernelPrep.Outline.Skeleton
import KernelPrep.Pass.Basic
import KernelPrep.Pass.Error
import KernelPrep.Pass.Session
import KernelPrep.Pipeline
import KernelPrep.Platform
import KernelPrep.Prologue
import KernelPrep.Span
import KernelPrep.Text.Blank
import KernelPrep.Text.Printable
import KernelPrep.Text.Quoted
import KernelPrep.Text.Slice
import KernelPrep.Texture.BindingTable
import KernelPrep.Texture.Lowering
import KernelPrep.Texture.Occurrence
import KernelPrep.Texture.Signature
import KernelPrep.Token.Basic
import KernelPrep.Token.FxHash
import KernelPrep.Token.Hash
import KernelPrep.Token.Kind
import KernelPrep.Token.Lex
import KernelPrep.Token.List
import KernelPrep.Token.Run
import KernelPrep.Token.Splice
import KernelPrep.Proofs.Token.Slots
import KernelPrep.Proofs.Token.Thread
import KernelPrep.Proofs.Token.Splicing
import KernelPrep.Proofs.Token.Making
import KernelPrep.Proofs.Token.History
import KernelPrep.Proofs.Token.Lifetime
import KernelPrep.Proofs.Token.Checking
import KernelPrep.Proofs.Token.Exchange
import KernelPrep.Proofs.Token.Chaining
import KernelPrep.Proofs.Node.Forest
import KernelPrep.Proofs.Node.Removal
import KernelPrep.Proofs.Node.Walk
import KernelPrep.Proofs.Document.Cutting
import KernelPrep.Proofs.Document.Inserting
import KernelPrep.Proofs.Document.Coherence
import KernelPrep.Proofs.Document.Ownership
import KernelPrep.Proofs.Outline.Cover
import KernelPrep.Proofs.Outline.Reading
import KernelPrep.Proofs.Outline.Fresh
import KernelPrep.Proofs.Outline.Leaves
import KernelPrep.Proofs.Outline.Planting
import KernelPrep.Proofs.Outline.Soundness
import KernelPrep.Proofs.Text.Encoding
import KernelPrep.Proofs.Lexeme.Munch
import KernelPrep.Proofs.Lexeme.Follow
import KernelPrep.Proofs.Lexeme.Turns
import KernelPrep.Proofs.Token.Spelling
import KernelPrep.Proofs.Token.Lexing
import KernelPrep.Proofs.Token.Sorts
import KernelPrep.Proofs.Token.Joined
import KernelPrep.Proofs.Token.Pieces
import KernelPrep.Proofs.Texture.Weave
import KernelPrep.Proofs.Texture.Strand
import KernelPrep.Proofs.Texture.Scope
import KernelPrep.Proofs.Texture.Opening
import KernelPrep.Proofs.Texture.Growth
import KernelPrep.Proofs.Texture.Woven
import KernelPrep.Proofs.Texture.Found
import KernelPrep.Proofs.Texture.Census
import KernelPrep.Proofs.Texture.Preface
import KernelPrep.Proofs.Texture.Tally
import KernelPrep.Proofs.Texture.Lowered
import KernelPrep.Proofs.Texture.Prepared
import KernelPrep.Proofs.Texture.Recorded
import KernelPrep.Proofs.Texture.Outcome
import KernelPrep.Proofs.Texture.Wording
import KernelPrep.Proofs.Texture.ReadBack
import KernelPrep.Proofs.Texture.Codec
import KernelPrep.Proofs.Texture.SourceOrder
import KernelPrep.Proofs.Texture.Parts
import KernelPrep.Proofs.Texture.DefinedFirst
import KernelPrep.Proofs.Texture.Ledger
import KernelPrep.Proofs.Texture.KernelTable
import KernelPrep.Proofs.Texture.Variables
import KernelPrep.Proofs.Node.History
import KernelPrep.Proofs.Texture.TableFormat
import KernelPrep.Proofs.Outline.Grammar
import KernelPrep.Proofs.Outline.Derivation
import KernelPrep.Proofs.Outline.Branching
import KernelPrep.Proofs.Outline.Matching
import KernelPrep.Proofs.Outline.Acceptance
import KernelPrep.Proofs.Outline.Declaring
import KernelPrep.Proofs.Outline.Recast
import KernelPrep.Proofs.Outline.Rescope
import KernelPrep.Proofs.Outline.Margin
import KernelPrep.Proofs.Outline.Lockstep
import KernelPrep.Proofs.Outline.Formatting
import KernelPrep.Proofs.Texture.Inserted
import KernelPrep.Proofs.Texture.Relexed
import KernelPrep.Proofs.Texture.Owned
import KernelPrep.Proofs.Outline.SetOff
import KernelPrep.Proofs.Texture.Cuts
import KernelPrep.Proofs.Texture.Standing
import KernelPrep.Proofs.Texture.Settled
import KernelPrep.Proofs.Texture.Kept
import KernelPrep.Proofs.Texture.Translation
import KernelPrep.Proofs.Texture.Platforms
import KernelPrep.Proofs.Texture.Remnant
import KernelPrep.Proofs.Texture.Reparsed
import KernelPrep.Proofs.Texture.Outlined
import KernelPrep.Proofs.Texture.LineEnds
import KernelPrep.Proofs.Outline.Lookahead
import KernelPrep.Proofs.Outline.Siting
import KernelPrep.Proofs.Outline.Functions
import KernelPrep.Proofs.Outline.Directives
import KernelPrep.Proofs.Outline.Productions
import KernelPrep.Proofs.Outline.Progress
import KernelPrep.Proofs.Outline.Termination
import KernelPrep.Proofs.Lexeme.Grammar
import KernelPrep.Proofs.Texture.UseGrammar
import KernelPrep.Proofs.Texture.Declarator
import KernelPrep.Proofs.Texture.Reach
import KernelPrep.Proofs.Texture.Truncation
import KernelPrep.Proofs.Token.Navigation
import KernelPrep.Proofs.Node.Visiting
import KernelPrep.Proofs.Command.Failing
