import PlanShape.Digest.Sha256
import PlanShape.Json.Format
import PlanShape.Toml.Format
import PlanShape.Predicate.Description
import PlanShape.Settings.Document
import PlanShape.Metrics.Document
import PlanShape.Filter.Census
import PlanShape.Lowering.Sql
import PlanShape.Session
import PlanShape.Proofs.ShapeCount
import PlanShape.Proofs.Membership
import PlanShape.Proofs.ShapeKey
import PlanShape.Proofs.Structure
import PlanShape.Proofs.Failures
import PlanShape.Proofs.Postorder
import PlanShape.Proofs.ValueBlind
import PlanShape.Proofs.CandidateSets
import PlanShape.Proofs.Programs
import PlanShape.Proofs.Reports
import PlanShape.Proofs.Scoping
import PlanShape.Proofs.Conservation
import PlanShape.Proofs.Balance
import PlanShape.Proofs.Partition
import PlanShape.Proofs.LeafWalk
import PlanShape.Proofs.SqlText
import PlanShape.Proofs.Binds
import PlanShape.Proofs.Words
import PlanShape.Proofs.Formats
import PlanShape.Proofs.TomlGrammar
import PlanShape.Proofs.TomlNumber
import PlanShape.Proofs.TomlReading
import PlanShape.Proofs.Documents
import PlanShape.Proofs.JsonText
import PlanShape.Proofs.JsonRecords
import PlanShape.Proofs.JsonDocuments
import PlanShape.Proofs.PaddedSets
import PlanShape.Proofs.Equality
import PlanShape.Proofs.Shallowest
import PlanShape.Proofs.CanonicalSizes
import PlanShape.Proofs.Capped
import PlanShape.Proofs.CallOrder
import PlanShape.Proofs.TreeShapes
import PlanShape.Proofs.SlotRanges
import PlanShape.Proofs.Hexadecimal
import PlanShape.Proofs.PlainText
