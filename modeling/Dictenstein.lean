import Dictenstein.BatchInsert
import Dictenstein.OverlayVisit
import Dictenstein.UnionWith
import Dictenstein.WalFrontier
import Dictenstein.WalSegments
import Dictenstein.WalPrune
import Dictenstein.OverlayEvicted
import Dictenstein.PositiveCache
import Dictenstein.DawgRun
import Dictenstein.BijectiveMap
import Dictenstein.VocabSolo
import Dictenstein.ScdawgHandles
import Dictenstein.ScdawgOccurrences
import Dictenstein.DiskAllocation
import Dictenstein.BufferRun
import Dictenstein.Watermark
import Dictenstein.SegmentRebuild
import Dictenstein.OverlayIncrement
import Dictenstein.DatBuilder
import Dictenstein.DatCursor
import Dictenstein.SuffixUnion
import Dictenstein.DawgMinimal
import Dictenstein.CharArena
import Dictenstein.EpochManager
import Dictenstein.FaultingRead
import Dictenstein.PersistentScdawg
import Dictenstein.SuffixSerialize
import Dictenstein.VersionGc
