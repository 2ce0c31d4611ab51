import AppAtlas.Document.File
import AppAtlas.Query.Find
import AppAtlas.Settings.File
import AppAtlas.Proofs.Analysis.Handover
import AppAtlas.Proofs.Analysis.Submitted
import AppAtlas.Proofs.Document.Stored
import AppAtlas.Proofs.Extract.Fields
import AppAtlas.Proofs.Extract.SelfContained
import AppAtlas.Proofs.Identity
import AppAtlas.Proofs.Markup.Blanked
import AppAtlas.Proofs.Query.Agreement
import AppAtlas.Proofs.Query.Bounded
import AppAtlas.Proofs.Query.Cycles
import AppAtlas.Proofs.Query.Neighbourhood
import AppAtlas.Proofs.Query.Tolerance
import AppAtlas.Proofs.Resolve.OwnPast
import AppAtlas.Proofs.Resolve.Patterns
import AppAtlas.Proofs.Resolve.Promotion
import AppAtlas.Proofs.Resolve.Routes
import AppAtlas.Proofs.Route
import AppAtlas.Proofs.Sql.Declarations
import AppAtlas.Proofs.Sql.Flattened
import AppAtlas.Proofs.Sql.InsertQuery
import AppAtlas.Proofs.Sql.LetterCase
import AppAtlas.Proofs.Sql.Lines
import AppAtlas.Proofs.Sql.Statements
import AppAtlas.Proofs.Store.Reproduced
import AppAtlas.Proofs.Store.Resumed
