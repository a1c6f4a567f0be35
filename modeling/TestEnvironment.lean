import TestEnvironment.Configurator.CommonRoot
import TestEnvironment.Configurator.ConfObject
import TestEnvironment.Configurator.PatternSearch
import TestEnvironment.Configurator.Topology
import TestEnvironment.Configurator.Uniqueness
import TestEnvironment.Tester.MergePaths
import TestEnvironment.Tester.Selection
import TestEnvironment.Tester.SkipBalance
import TestEnvironment.Tester.Numbering
import TestEnvironment.Tester.InheritanceWalk
import TestEnvironment.Tools.DnfShape
import TestEnvironment.Tools.CompoundMerge
import TestEnvironment.Tools.BalancedSearch
import TestEnvironment.Tools.LegacyExpand
import TestEnvironment.Tools.Base64
import TestEnvironment.Tools.ChunkedLines
import TestEnvironment.Tools.Nospace
import TestEnvironment.Tools.Versions
import TestEnvironment.Tools.Replacements
import TestEnvironment.Tools.MessageSplit
import TestEnvironment.Tools.Toeplitz
import TestEnvironment.Tools.TreeBuild
import TestEnvironment.Tools.IntsetText
import TestEnvironment.Tools.CompoundJson
import TestEnvironment.Tad.UpperChecksum
import TestEnvironment.Tad.Bookkeeping
import TestEnvironment.Tad.Crossings
import TestEnvironment.Tad.PduSeq
import TestEnvironment.Tad.LinkedQueue
import TestEnvironment.Tad.ExprMeaning
import TestEnvironment.Tad.Aal5Frames
import TestEnvironment.Trc.UpdateRules
import TestEnvironment.Trc.MergeResults
import TestEnvironment.Trc.DiffCompare
import TestEnvironment.Trc.ReSubst
import TestEnvironment.Trc.ParamsHash
import TestEnvironment.Trc.TestPaths
import TestEnvironment.Trc.ForcedSteps
import TestEnvironment.Tester.ScenarioSteps
import TestEnvironment.Trc.SavedTags
import TestEnvironment.Trc.ArgsCombs
import TestEnvironment.Rgt.RawFetch
import TestEnvironment.Rgt.LogMerge
import TestEnvironment.Rgt.QueueRuns
import TestEnvironment.Rgt.FlowPlaces
import TestEnvironment.Tester.ReqsText
import TestEnvironment.Ipc.Delivery
import TestEnvironment.LoggerTa.LogFraming
import TestEnvironment.LoggerTa.FormatEnds
import TestEnvironment.LogProc.FlowFilters
