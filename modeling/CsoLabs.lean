import CsoLabs.ByteMemory
import CsoLabs.Tiling
import CsoLabs.MallocMemlib
import CsoLabs.MallocNaive
import CsoLabs.MallocClient
import CsoLabs.MallocHeap
import CsoLabs.DriverEval
import CsoLabs.DriverMirror
import CsoLabs.DriverAccept
import CsoLabs.DriverAgree
import CsoLabs.LinkedChain
import CsoLabs.TableHash
import CsoLabs.TableStore
import CsoLabs.TableInvariant
import CsoLabs.TableRefine
import CsoLabs.TableRuns
import CsoLabs.TableLimits
import CsoLabs.TableHistory
import CsoLabs.TableBounds
import CsoLabs.TableGrowth
import CsoLabs.MallocLimits
import CsoLabs.TableArith
import CsoLabs.MallocZero
import CsoLabs.MallocCheckheap
import CsoLabs.DriverUtil
import CsoLabs.CScan
import CsoLabs.DriverRead
import CsoLabs.DriverReadBounds
import CsoLabs.DriverIndices
import CsoLabs.DriverReadText
import CsoLabs.GrepArith
import CsoLabs.MallocHeader
import CsoLabs.GrepBloom
import CsoLabs.GrepFile
import CsoLabs.GrepPrint
import CsoLabs.KSmallest
import CsoLabs.TimerKbest
import CsoLabs.PyLang
import CsoLabs.GradeMatch
import CsoLabs.ParentForest
import CsoLabs.GradeTests
import CsoLabs.GradeScore
import CsoLabs.GradeLab
import CsoLabs.Interleaving
import CsoLabs.TableDestroy
import CsoLabs.TableTester
import CsoLabs.RwlockTest
import CsoLabs.RwlockPriority
import CsoLabs.DriverMain
import CsoLabs.DriverNaive
import CsoLabs.DriverClient
import CsoLabs.GradeTotal
import CsoLabs.GrepTester
import CsoLabs.GrepRandom
import CsoLabs.GrepMain
import CsoLabs.SearchTree
import CsoLabs.TreeHarness
import CsoLabs.DriverVerdict
