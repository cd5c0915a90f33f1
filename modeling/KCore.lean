import KCore.Lib.Run
import KCore.Lib.Serial
import KCore.Lib.SharedCopy
import KCore.Lib.Faulty
import KCore.Lib.Dict
import KCore.Lib.MapM
import KCore.Lib.FileTree
import KCore.Impl.Artifacts.IdGeneration
import KCore.Lib.Shuffle
import KCore.Lib.StableSort
import KCore.Impl.Artifacts.Store
import KCore.Impl.Artifacts.Review
import KCore.Lib.Ledger
import KCore.Lib.Json
import KCore.Lib.Markdown
import KCore.Lib.Newlines
import KCore.Impl.Hara.Tools
import KCore.Impl.Utils
import KCore.Impl.CatForm
import KCore.Impl.MadHatter
import KCore.Impl.MadHatter.Hooks
import KCore.Impl.MadHatter.Routes
import KCore.Impl.MadHatter.Extractor
import KCore.Proof.MadHatter.Extractor
import KCore.Impl.MadHatter.Install
import KCore.Proof.MadHatter.Install
import KCore.Proof.MadHatter.Failure
import KCore.Impl.Cache
import KCore.Proof.Cache.InMemory
import KCore.Proof.Cache.Agree
import KCore.Impl.Websocket
import KCore.Proof.Websocket
import KCore.Impl.Auth.Handler
import KCore.Impl.VectorMemory
import KCore.Impl.CheshireCat
import KCore.Impl.Crud
import KCore.Proof.VectorMemory.Filter
import KCore.Proof.CheshireCat
import KCore.Proof.Crud
import KCore.Proof.MadHatter.Active
import KCore.Proof.MadHatter.Endpoints
import KCore.Proof.MadHatter.Core
import KCore.Proof.MadHatter.Pipe
import KCore.Proof.CatForm
import KCore.Proof.Session
import KCore.Proof.Hara.Hazop
import KCore.Proof.Hara.Asil
import KCore.Proof.Hara.Provenance
import KCore.Proof.ParseJson
import KCore.Proof.PromptVariables
import KCore.Proof.Artifacts.Naming
import KCore.Proof.Artifacts.Versions
import KCore.Proof.Artifacts.Review
import KCore.Proof.Artifacts.Approval
import KCore.Proof.Auth.Handler
import KCore.Proof.Auth.Users
import KCore.Proof.Artifacts.Revise
import KCore.Impl.Artifacts.Document
import KCore.Impl.Artifacts.Generators
import KCore.Proof.Artifacts.Gate
import KCore.Proof.Artifacts.Shown
import KCore.Proof.Artifacts.Workflow
import KCore.Impl.VectorMemory.Collections
import KCore.Impl.VectorMemory.Recall
import KCore.Proof.VectorMemory.Recall
import KCore.Impl.Settings
import KCore.Proof.Settings
import KCore.Proof.VectorMemory.Collections
import KCore.Impl.Embedder
import KCore.Proof.Embedder
import KCore.Impl.VectorMemory.Points
import KCore.Proof.VectorMemory.Points
import KCore.Proof.Hara.Stages
import KCore.Lib.JsonIndent
import KCore.Impl.Hara.Prompts
import KCore.Proof.Hara.Prompts
import KCore.Impl.Auth.Sessions
import KCore.Proof.Auth.Sessions
import KCore.Lib.ImportSystem
import KCore.Lib.Interleave
import KCore.Proof.Auth.Concurrent
import KCore.Impl.Artifacts.Writes
import KCore.Proof.Artifacts.Writes
import KCore.Proof.Artifacts.Stops
import KCore.Proof.Artifacts.Interleaved
import KCore.Proof.Artifacts.Sessions
import KCore.Impl.MainAgent
import KCore.Impl.RabbitHole
import KCore.Proof.MainAgent
import KCore.Impl.Hara.Artifact
import KCore.Proof.Hara.Artifact
import KCore.Impl.MadHatter.Importing
import KCore.Proof.MadHatter.Importing
import KCore.Proof.MadHatter.Once
import KCore.Impl.MadHatter.Requirements
import KCore.Proof.MadHatter.Requirements
import KCore.Impl.WorkingMemory
import KCore.Proof.WorkingMemory
import KCore.Proof.Hara.Functions
import KCore.Impl.Hara.OperationalSituation
import KCore.Proof.Hara.OperationalSituation
import KCore.Impl.Artifacts.CoreTools
import KCore.Proof.Artifacts.CoreTools
import KCore.Proof.Artifacts.Listing
import KCore.Proof.Artifacts.Slugs
import KCore.Proof.RabbitHole
import KCore.Proof.CatForm.Errors
import KCore.Impl.MadHatter.Registry
import KCore.Proof.MadHatter.Registry
import KCore.Lib.Calendar
import KCore.Impl.WhiteRabbit
import KCore.Proof.WhiteRabbit
import KCore.Lib.PyJson
import KCore.Lib.JsonReader
import KCore.Impl.MadHatter.PluginSettings
import KCore.Proof.MadHatter.PluginSettings
import KCore.Proof.MadHatter.PluginLife
import KCore.Impl.Artifacts.ReviseTools
import KCore.Proof.Artifacts.ReviseTools
import KCore.Impl.Artifacts.Assistants
import KCore.Proof.Artifacts.Assistants
import KCore.Proof.Artifacts.Traceability
import KCore.Impl.Agents
import KCore.Impl.StrayCat
import KCore.Proof.Agents
import KCore.Proof.Agents.Reports
import KCore.Proof.StrayCat
import KCore.Proof.StrayCat.History
import KCore.Impl.RabbitHole.Ingestion
import KCore.Proof.RabbitHole.Ingestion
import KCore.Impl.LongTermMemory
import KCore.Proof.LongTermMemory
import KCore.Proof.LongTermMemory.Account
import KCore.Impl.PluginSync
import KCore.Proof.PluginSync
