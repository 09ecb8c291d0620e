import DocPatch.File.Directory
import DocPatch.Main
import DocPatch.Proofs.Json.Entries
import DocPatch.Proofs.Json.Equality
import DocPatch.Proofs.Json.Thinning
import DocPatch.Proofs.Path.Names
import DocPatch.Proofs.Store.Place
import DocPatch.Proofs.Store.Walk
import DocPatch.Proofs.Store.Batch
import DocPatch.Proofs.Store.Match
import DocPatch.Proofs.Plan.Alias
import DocPatch.Proofs.Plan.Leaves
import DocPatch.Proofs.Plan.Visit
import DocPatch.Proofs.Plan.Description
import DocPatch.Proofs.Plan.Stage
import DocPatch.Proofs.Plan.Predicate
import DocPatch.Proofs.Plan.Ids
import DocPatch.Proofs.Plan.Entry
import DocPatch.Proofs.Plan.Emission
import DocPatch.Proofs.Plan.Origin
import DocPatch.Proofs.Store.Single
import DocPatch.Proofs.Plan.Upsert
import DocPatch.Proofs.Plan.UpsertLaws
import DocPatch.Proofs.Plan.UpsertFrame
import DocPatch.Proofs.Plan.Carries
import DocPatch.Proofs.Plan.Effect
import DocPatch.Proofs.Plan.Settling
import DocPatch.Proofs.Plan.Refinement
import DocPatch.Proofs.Store.Footprint
import DocPatch.Proofs.Plan.Addition
import DocPatch.Proofs.Plan.Doubling
import DocPatch.Proofs.Patcher
import DocPatch.Proofs.Path.Aliases
import DocPatch.Proofs.Plan.Keys
import DocPatch.Proofs.Plan.Removal
import DocPatch.Proofs.Plan.Invariant
import DocPatch.Proofs.Patcher.Targets
import DocPatch.Proofs.Store.Faults
import DocPatch.Proofs.Plan.Scope
import DocPatch.Proofs.Plan.Deletion
import DocPatch.Proofs.Plan.Passage
import DocPatch.Proofs.Plan.Erasure
import DocPatch.Proofs.Plan.Retraction
import DocPatch.Proofs.Patcher.Endings
import DocPatch.Proofs.Store.Pruning
import DocPatch.Proofs.Plan.Appending
import DocPatch.Proofs.Plan.Repetition
import DocPatch.Proofs.Store.Locality
import DocPatch.Proofs.Plan.Permutation
import DocPatch.Proofs.Store.Independence
import DocPatch.Proofs.Patcher.Accounting
import DocPatch.Proofs.Store.Texts
import DocPatch.Proofs.Related
import DocPatch.Proofs.Json.Sameness
import DocPatch.Proofs.Store.Answers
import DocPatch.Proofs.Store.Changes
import DocPatch.Proofs.Store.Unordered
import DocPatch.Proofs.Patcher.Stamp
import DocPatch.Proofs.Store.Existence
import DocPatch.Proofs.Plan.Legible
import DocPatch.Proofs.Plan.Recognition
import DocPatch.Proofs.Plan.Extraction
import DocPatch.Proofs.Json.Weight
import DocPatch.Proofs.Store.Reports
import DocPatch.Proofs.Store.Address
import DocPatch.Proofs.Path.Cut
import DocPatch.Proofs.Plan.Precedence
import DocPatch.Proofs.Plan.Refusal
import DocPatch.Proofs.Store.Lookups
import DocPatch.Proofs.Store.Projected
import DocPatch.Proofs.Plan.Freshness
import DocPatch.Proofs.Json.Outline
import DocPatch.Proofs.Json.Records
import DocPatch.Proofs.Instruction
import DocPatch.Proofs.Plan.Keyed
import DocPatch.Proofs.RoundTrip
import DocPatch.Proofs.Json.Numerals
import DocPatch.Proofs.Json.Quoting
import DocPatch.Proofs.Json.Spelling
import DocPatch.Proofs.Json.Printing
