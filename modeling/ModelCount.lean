import ModelCount.Adjacency
import ModelCount.Assignment
import ModelCount.Cache.Basic
import ModelCount.Cache.Entry
import ModelCount.Cnf
import ModelCount.Component
import ModelCount.Config.Basic
import ModelCount.Config.Document
import ModelCount.Counting.Decomposed
import ModelCount.Counting.Enumeration
import ModelCount.Counting.Propagation
import ModelCount.Engine.Basic
import ModelCount.Engine.Decomposition
import ModelCount.Formula
import ModelCount.Ident
import ModelCount.Level
import ModelCount.Literal
import ModelCount.Packing.Bits
import ModelCount.Packing.Error
import ModelCount.Packing.Key
import ModelCount.Packing.Scheme
import ModelCount.Pass.Basic
import ModelCount.Pass.Search
import ModelCount.Pass.Split
import ModelCount.Proofs.Adjacency
import ModelCount.Proofs.Adjacency.Exact
import ModelCount.Proofs.Cache
import ModelCount.Proofs.Cache.Accounting
import ModelCount.Proofs.Cache.Eviction
import ModelCount.Proofs.Cache.History
import ModelCount.Proofs.Cache.InBounds
import ModelCount.Proofs.Cache.Lookup
import ModelCount.Proofs.Checked
import ModelCount.Proofs.Counting.Clauses
import ModelCount.Proofs.Counting.Decomposed
import ModelCount.Proofs.Counting.Enumeration
import ModelCount.Proofs.Counting.Level
import ModelCount.Proofs.Counting.Parts
import ModelCount.Proofs.Counting.Product
import ModelCount.Proofs.Counting.Propagation
import ModelCount.Proofs.Engine.Checked
import ModelCount.Proofs.Engine.Clauses
import ModelCount.Proofs.Engine.Decomposition
import ModelCount.Proofs.Engine.Entries
import ModelCount.Proofs.Engine.InBounds
import ModelCount.Proofs.Engine.Incremental
import ModelCount.Proofs.Engine.Keys
import ModelCount.Proofs.Engine.Leftovers
import ModelCount.Proofs.Engine.Live
import ModelCount.Proofs.Engine.Nesting
import ModelCount.Proofs.Engine.Repeat
import ModelCount.Proofs.Engine.Requests
import ModelCount.Proofs.Engine.Run
import ModelCount.Proofs.Engine.Scores
import ModelCount.Proofs.Engine.Undo
import ModelCount.Proofs.Engine.Worklist
import ModelCount.Proofs.Level
import ModelCount.Proofs.Level.Total
import ModelCount.Proofs.Loading
import ModelCount.Proofs.Models
import ModelCount.Proofs.Packing
import ModelCount.Proofs.Packing.Canonical
import ModelCount.Proofs.Packing.Decode
import ModelCount.Proofs.Packing.Malformed
import ModelCount.Proofs.Packing.Stream
import ModelCount.Proofs.Pass.Agree
import ModelCount.Proofs.Pass.Checked
import ModelCount.Proofs.Pass.Found
import ModelCount.Proofs.Pass.InBounds
import ModelCount.Proofs.Pass.Inside
import ModelCount.Proofs.Pass.Links
import ModelCount.Proofs.Pass.Marks
import ModelCount.Proofs.Pass.Reference
import ModelCount.Proofs.Pass.Scan
import ModelCount.Proofs.Pass.Scores
import ModelCount.Proofs.Pass.Search
import ModelCount.Proofs.Pass.Split
import ModelCount.Proofs.Pass.SplitScores
import ModelCount.Proofs.Pass.Steps
import ModelCount.Proofs.Pass.Turns
import ModelCount.Proofs.Pass.Worklist
import ModelCount.Proofs.Residual
import ModelCount.Proofs.Rows
import ModelCount.Rows
import ModelCount.Sorting
import ModelCount.Table
import ModelCount.Toml.Document
import ModelCount.Toml.Number
import ModelCount.Toml.Token
