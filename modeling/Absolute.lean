import Absolute.LibRuns
import Absolute.RtLedger
import Absolute.AnTypeFaithful
import Absolute.LibProbing
import Absolute.LibFairQueue
import Absolute.LibTally
import Absolute.RtDrain
import Absolute.LibRunningBest
import Absolute.AnOverloadChoice
import Absolute.StdHashMapRefines
import Absolute.LibKeyMap
import Absolute.LibExplore
import Absolute.AnInstantiateFinite
import Absolute.CgArrayStorage
import Absolute.CgArithmeticAgrees
import Absolute.AnInheritance
import Absolute.AnConstMethods
import Absolute.AnConstValues
import Absolute.LibPaired
import Absolute.CgPlaces
import Absolute.CgPlacesAgain
import Absolute.CgUpdates
import Absolute.CgUpdatesTouch
import Absolute.LibFolds
import Absolute.PkgResolve
import Absolute.PkgResolveClosed
import Absolute.PkgCycles
import Absolute.LibHeadcount
import Absolute.LibWaiting
import Absolute.LibSupply
import Absolute.RtRwLock
import Absolute.RtRwLockInv
import Absolute.RtOnce
import Absolute.RtChannel
import Absolute.RtChannelInv
import Absolute.RtCondition
import Absolute.RtConditionNotify
import Absolute.LibRaising
import Absolute.PlugRegistries
import Absolute.PlugLibrary
import Absolute.PlugRefused
import Absolute.PlugUntraced
import Absolute.PlugManager
import Absolute.PlugRecorded
import Absolute.PlugOrder
import Absolute.PlugWalk
import Absolute.PlugClosure
import Absolute.PlugRuns
import Absolute.LibAttended
import Absolute.RtMutex
import Absolute.RtSemaphore
import Absolute.RtTaskGroup
import Absolute.LibSmoothRobin
import Absolute.RtPriority
import Absolute.LibIndexed
import Absolute.PlugConsistent
import Absolute.PlugUnregister
import Absolute.PlugRanges
import Absolute.PlugConflicts
import Absolute.LibBinary64
import Absolute.RtJson
import Absolute.RtJsonReading
import Absolute.RtJsonGrammar
import Absolute.RtJsonRoundTrip
import Absolute.LibOwnedHeap
import Absolute.StdJson
import Absolute.StdJsonOwners
import Absolute.CgLoopFacts
import Absolute.CgLoopFactsHold
import Absolute.LibJoinFold
import Absolute.AnFlow
import Absolute.AnFlowJoin
import Absolute.AnFlowOwners
import Absolute.AnFlowMerge
import Absolute.AnUnify
import Absolute.AnUnifyMatch
import Absolute.AnUnifySound
import Absolute.AnReturns
import Absolute.AnMissingReturn
import Absolute.LibCollect
import Absolute.AnCommonType
import Absolute.AnUpperBound
import Absolute.LibBytes
import Absolute.CgSlices
import Absolute.CgSlicesAgree
import Absolute.AnTypeSemantics
import Absolute.LibRegex
import Absolute.PkgLockfile
import Absolute.LibEscape
import Absolute.CgLinkNames
import Absolute.CgSwitch
import Absolute.CgFormat
import Absolute.PsInterpolation
import Absolute.LibRegexContext
import Absolute.PsLexer
import Absolute.PsLexerMatches
import Absolute.PsNumbers
import Absolute.PsRelex
import Absolute.PsTypes
import Absolute.PsExpressions
import Absolute.PsOperatorTrees
import Absolute.PsPrecedence
import Absolute.StdHashSet
import Absolute.StdHashSetRefines
import Absolute.StdHashCapacity
import Absolute.LibRing
import Absolute.StdStorage
import Absolute.StdDeque
import Absolute.StdDequeRefines
import Absolute.LibHeapOrder
import Absolute.StdPriorityQueue
import Absolute.StdPriorityQueueSifts
import Absolute.StdHashThrowing
import Absolute.StdHashThrowingKeeps
import Absolute.StdHashThrowingSet
import Absolute.StdPriorityQueueOrder
import Absolute.StdPriorityQueueThrowing
import Absolute.StdThrowingCallbacks
import Absolute.LibCalendar
import Absolute.RtDateTime
import Absolute.RtDateTimeRoundTrip
import Absolute.RtIsoText
import Absolute.RtIsoRoundTrip
import Absolute.LibBinaryFormat
import Absolute.LibWordBytes
import Absolute.StdByteBuffer
import Absolute.StdByteBufferAccess
import Absolute.StdByteBufferProtocol
import Absolute.PsTokenTexts
import Absolute.PlugOpaque
import Absolute.RtDayOfWeek
import Absolute.StdByteBufferBounds
import Absolute.StdByteBufferSlices
import Absolute.RtBinary
import Absolute.LibOccurrence
import Absolute.LibUtf8
import Absolute.RtJsonEscapes
import Absolute.StdText
import Absolute.StdTextParts
import Absolute.StdEncoding
import Absolute.StdUriCoding
import Absolute.StdBase64
import Absolute.StdUri
import Absolute.StdForm
import Absolute.StdFormRoundTrip
import Absolute.LibStableSort
import Absolute.LibWhile
import Absolute.StdAlgorithms
import Absolute.StdAlgorithmsCorrect
import Absolute.LibFirstOut
import Absolute.RtLaneOrder
import Absolute.StdHashRounding
import Absolute.StdHashSizing
import Absolute.LibFlatMemory
import Absolute.WasmHeap
import Absolute.WasmHeapSafe
import Absolute.WasmSlots
import Absolute.WasmStrings
import Absolute.LibLexicalPath
import Absolute.WasmPaths
import Absolute.LibKeyedSlots
import Absolute.WasmFiles
import Absolute.LibExchangeSort
import Absolute.WasmDirectories
import Absolute.WasmWatcher
