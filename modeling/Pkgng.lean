import Pkgng.Audit.Command
import Pkgng.Audit.Document
import Pkgng.Audit.Expand
import Pkgng.Audit.Preprocess
import Pkgng.Audit.Search
import Pkgng.Audit.Vulnxml
import Pkgng.Checksum.Base32
import Pkgng.Checksum.Generate
import Pkgng.Checksum.OutputBounds
import Pkgng.Cudf.Answers
import Pkgng.Cudf.Emit
import Pkgng.Cudf.Escaping
import Pkgng.Cudf.Numbering
import Pkgng.Cudf.Output
import Pkgng.Cudf.OutputSafety
import Pkgng.Cudf.WellFormed
import Pkgng.Db.Annotations
import Pkgng.Db.BeginSolver
import Pkgng.Db.Integrity
import Pkgng.Db.Lock
import Pkgng.Db.LockCalls
import Pkgng.Db.LockExclusion
import Pkgng.Db.LockRetries
import Pkgng.Db.LockTables
import Pkgng.Db.PackageTable
import Pkgng.Db.Register
import Pkgng.Db.RegisterViews
import Pkgng.Db.Registry
import Pkgng.Db.Store
import Pkgng.Db.StoreStatements
import Pkgng.Db.StoreViews
import Pkgng.Db.Upgrade
import Pkgng.Elf.OriginPaths
import Pkgng.Install.CleanupOld
import Pkgng.Install.Extract
import Pkgng.Install.Recompute
import Pkgng.Install.System
import Pkgng.Install.SystemRuns
import Pkgng.Jobs.Autoremove
import Pkgng.Jobs.Basic
import Pkgng.Jobs.ConflictPartners
import Pkgng.Jobs.Conflicts
import Pkgng.Jobs.Execute
import Pkgng.Jobs.FetchSize
import Pkgng.Jobs.LockedPackages
import Pkgng.Jobs.NeedUpgrade
import Pkgng.Jobs.Ordering
import Pkgng.Jobs.Priorities
import Pkgng.Jobs.PriorityPaths
import Pkgng.Jobs.PriorityTurns
import Pkgng.Jobs.PropagateAutomatic
import Pkgng.Jobs.Reach
import Pkgng.Jobs.RemoteCandidate
import Pkgng.Jobs.RemovalOrder
import Pkgng.Jobs.Replacements
import Pkgng.Jobs.RequestConflicts
import Pkgng.Jobs.Resolve
import Pkgng.Jobs.SplitUpgrade
import Pkgng.Jobs.Transaction
import Pkgng.Jobs.UnsatRecovery
import Pkgng.Jobs.UpgradeChains
import Pkgng.Lib.BufferTokens
import Pkgng.Lib.CStrings
import Pkgng.Lib.Cnf
import Pkgng.Lib.Comparator
import Pkgng.Lib.Consecutive
import Pkgng.Lib.Depth
import Pkgng.Lib.DepthFirst
import Pkgng.Lib.Dimacs
import Pkgng.Lib.DistinctDraws
import Pkgng.Lib.DoublyLinked
import Pkgng.Lib.Fallible
import Pkgng.Lib.Follows
import Pkgng.Lib.Glob
import Pkgng.Lib.HashFree
import Pkgng.Lib.HashTable
import Pkgng.Lib.ListSort
import Pkgng.Lib.MarkedSearch
import Pkgng.Lib.NameTable
import Pkgng.Lib.OwnedSpans
import Pkgng.Lib.PaddedLex
import Pkgng.Lib.Pipe
import Pkgng.Lib.Renames
import Pkgng.Lib.Replacing
import Pkgng.Lib.Runs
import Pkgng.Lib.Savepoint
import Pkgng.Lib.SelfDelimiting
import Pkgng.Lib.SqlText
import Pkgng.Lib.StableSort
import Pkgng.Lib.Substrings
import Pkgng.Lib.Transducer
import Pkgng.Lib.Ucl
import Pkgng.Lib.UtHash
import Pkgng.Manifest.Deps
import Pkgng.Manifest.Options
import Pkgng.Manifest.TextRounds
import Pkgng.Manifest.Texts
import Pkgng.Manifest.Urlencode
import Pkgng.Net.SrvGroups
import Pkgng.Net.SrvMessage
import Pkgng.Net.SrvWeights
import Pkgng.Net.SshServe
import Pkgng.Net.SshSession
import Pkgng.Package
import Pkgng.PkgObject.Calls
import Pkgng.PkgObject.Reset
import Pkgng.Ports.AttributeOwnership
import Pkgng.Ports.KeywordAttributes
import Pkgng.Ports.KeywordScripts
import Pkgng.Ports.Keywords
import Pkgng.Ports.LineBounds
import Pkgng.Ports.Plist
import Pkgng.Print.Format
import Pkgng.Print.Handlers
import Pkgng.Print.Scan
import Pkgng.Print.Trailers
import Pkgng.Query.Conditions
import Pkgng.Query.Evaluation
import Pkgng.Query.EvaluationGrammar
import Pkgng.Query.EvaluationSql
import Pkgng.Query.Injection
import Pkgng.Query.QueryFormat
import Pkgng.Repo.AddPackage
import Pkgng.Repo.CarriedKeys
import Pkgng.Repo.CatalogueNames
import Pkgng.Repo.CleanCache
import Pkgng.Repo.Create
import Pkgng.Repo.CreateComplete
import Pkgng.Repo.DigestPointers
import Pkgng.Repo.DigestRecord
import Pkgng.Repo.DigestsFile
import Pkgng.Repo.FetchPackage
import Pkgng.Repo.Incremental
import Pkgng.Repo.IncrementalExact
import Pkgng.Repo.ManifestSlices
import Pkgng.Repo.Meta
import Pkgng.Repo.Mirror
import Pkgng.Repo.Publication
import Pkgng.Repo.RecordFlow
import Pkgng.Repo.RejectedMeta
import Pkgng.Repo.SchemaVersion
import Pkgng.Repo.Sigkeys
import Pkgng.Repo.SigkeysFormat
import Pkgng.Repo.SignatureChecks
import Pkgng.Repo.Signatures
import Pkgng.Repo.Update
import Pkgng.Repo.UpdateRuns
import Pkgng.Repo.Workers
import Pkgng.Solve.Chains
import Pkgng.Solve.Encoding
import Pkgng.Solve.Export
import Pkgng.Solve.Libraries
import Pkgng.Solve.Problem
import Pkgng.Solve.Requests
import Pkgng.Solve.ResultJobs
import Pkgng.Solve.Rules
import Pkgng.Solve.VariableOrder
import Pkgng.Solve.Variables
import Pkgng.Universe.ChangeUid
import Pkgng.Universe.Digests
import Pkgng.Universe.Evolve
import Pkgng.Universe.Items
import Pkgng.Universe.Populates
import Pkgng.Universe.Process
import Pkgng.Universe.Rewinding
import Pkgng.Util.ExecCmd
import Pkgng.Util.SymlinkChecksum
import Pkgng.Version.Compare
import Pkgng.Version.Lexemes
import Pkgng.Version.Order
import Pkgng.Version.Rewrites
import Pkgng.Version.Shortcut
