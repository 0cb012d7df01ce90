import Ambient.Algebra.Intersection
import Ambient.Algebra.Union
import Ambient.Assoc
import Ambient.CodePath
import Ambient.Comment
import Ambient.Distinct
import Ambient.Ident
import Ambient.Json.Basic
import Ambient.Json.Shape
import Ambient.Json.Text
import Ambient.Json.Token
import Ambient.Logging
import Ambient.Naming
import Ambient.Options
import Ambient.Pass.Callables
import Ambient.Pass.Classes
import Ambient.Pass.Constructors
import Ambient.Pass.Hoist
import Ambient.Pass.Interfaces
import Ambient.Pass.Mapped
import Ambient.Pass.Overloads
import Ambient.Pass.Pending
import Ambient.Pass.Place
import Ambient.Pass.Simplify
import Ambient.Pass.Substitute
import Ambient.Pipeline
import Ambient.Proofs.Answered
import Ambient.Proofs.Asking
import Ambient.Proofs.Becomes
import Ambient.Proofs.Beside
import Ambient.Proofs.Binding
import Ambient.Proofs.Blocks
import Ambient.Proofs.BottomUp
import Ambient.Proofs.Bounded
import Ambient.Proofs.Callables
import Ambient.Proofs.Capture
import Ambient.Proofs.Completed
import Ambient.Proofs.Contents
import Ambient.Proofs.Declared
import Ambient.Proofs.Dependence
import Ambient.Proofs.Equal
import Ambient.Proofs.EqualLiterals
import Ambient.Proofs.Exact
import Ambient.Proofs.Exchange
import Ambient.Proofs.Expanded
import Ambient.Proofs.ExportedVariables
import Ambient.Proofs.Extracted
import Ambient.Proofs.Extraction
import Ambient.Proofs.Failures
import Ambient.Proofs.FirstFree
import Ambient.Proofs.Forgetful
import Ambient.Proofs.Forwarding
import Ambient.Proofs.Framed
import Ambient.Proofs.FreeParams
import Ambient.Proofs.FreshNames
import Ambient.Proofs.Grouping
import Ambient.Proofs.Hygiene
import Ambient.Proofs.Inert
import Ambient.Proofs.Inheritance
import Ambient.Proofs.Introduced
import Ambient.Proofs.Keys
import Ambient.Proofs.Labels
import Ambient.Proofs.Leaves
import Ambient.Proofs.Leftovers
import Ambient.Proofs.Legible
import Ambient.Proofs.Library
import Ambient.Proofs.Likeness
import Ambient.Proofs.Meaning
import Ambient.Proofs.Memory
import Ambient.Proofs.Nesting
import Ambient.Proofs.NewClasses
import Ambient.Proofs.Normal
import Ambient.Proofs.Numbering
import Ambient.Proofs.Optional
import Ambient.Proofs.Outline
import Ambient.Proofs.Output
import Ambient.Proofs.Overlay
import Ambient.Proofs.Overloads
import Ambient.Proofs.Overriding
import Ambient.Proofs.Parallel
import Ambient.Proofs.Placement
import Ambient.Proofs.Queries
import Ambient.Proofs.Reach
import Ambient.Proofs.Reachable
import Ambient.Proofs.Realm
import Ambient.Proofs.Rebuild
import Ambient.Proofs.Recall
import Ambient.Proofs.Regroup
import Ambient.Proofs.Remembered
import Ambient.Proofs.Renumber
import Ambient.Proofs.RepeatedComments
import Ambient.Proofs.Repeats
import Ambient.Proofs.Reshape
import Ambient.Proofs.Rest
import Ambient.Proofs.Rewritten
import Ambient.Proofs.Rooted
import Ambient.Proofs.Routes
import Ambient.Proofs.Search
import Ambient.Proofs.Settled
import Ambient.Proofs.Shadowing
import Ambient.Proofs.Sharing
import Ambient.Proofs.Simplest
import Ambient.Proofs.Stable
import Ambient.Proofs.Stars
import Ambient.Proofs.Tables
import Ambient.Proofs.Territory
import Ambient.Proofs.Twin.Answer
import Ambient.Proofs.Twin.Basic
import Ambient.Proofs.Twin.Equal
import Ambient.Proofs.Twin.Interfaces
import Ambient.Proofs.Twin.Local
import Ambient.Proofs.Twin.Pipeline
import Ambient.Proofs.Twin.Same
import Ambient.Proofs.Twin.Scope
import Ambient.Proofs.Twin.Scoped
import Ambient.Proofs.Twin.Search
import Ambient.Proofs.Twin.Step
import Ambient.Proofs.Twin.Walk
import Ambient.Proofs.Variables
import Ambient.Proofs.Walk
import Ambient.Scope.Answer
import Ambient.Scope.Basic
import Ambient.Scope.Bound
import Ambient.Scope.Constructors
import Ambient.Scope.FreeParams
import Ambient.Scope.Keys
import Ambient.Scope.Lookup
import Ambient.Scope.Members
import Ambient.Scope.Picker
import Ambient.Scope.Question
import Ambient.Scope.Session
import Ambient.Text.Alphabetic
import Ambient.Text.Blank
import Ambient.Text.Lower
import Ambient.Text.Numeric
import Ambient.Text.Table
import Ambient.Text.Upper
import Ambient.Tree.Basic
import Ambient.Tree.Build
import Ambient.Tree.Decode
import Ambient.Tree.Edit
import Ambient.Tree.Encode
import Ambient.Tree.Equal
import Ambient.Tree.Label
import Ambient.Tree.Mentions
import Ambient.Tree.Node
import Ambient.Tree.Number
import Ambient.Tree.Strip
import Ambient.Violation
import Ambient.Walk.Basic
import Ambient.Walk.Edited
import Ambient.Walk.Hooks
import Ambient.Walk.Trace
