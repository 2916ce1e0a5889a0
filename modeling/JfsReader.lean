import JfsReader.StepMachine
import JfsReader.HalvingSearch
import JfsReader.FreeList
import JfsReader.BlockCover
import JfsReader.DiskLayout
import JfsReader.BlockRead
import JfsReader.ReadPaths
import JfsReader.BufferPool
import JfsReader.ExtentLookup
import JfsReader.ExtentTree
import JfsReader.ExtentLookupCorrect
import JfsReader.BufferConservation
import JfsReader.FailedPageReads
import JfsReader.InodeSearch
import JfsReader.InodeLocation
import JfsReader.SearchAgreement
import JfsReader.SearchTermination
import JfsReader.LookupSuccess
import JfsReader.PageSearch
import JfsReader.WriteBuffer
import JfsReader.UnicodeConversion
import JfsReader.NameSlots
import JfsReader.NameListing
import JfsReader.DirectoryTree
import JfsReader.DirectoryListing
import JfsReader.DirectoryPaging
import JfsReader.DirectoryRecords
import JfsReader.DirectoryScan
import JfsReader.DirectoryTermination
import JfsReader.LinkedBuckets
import JfsReader.NodeCache
import JfsReader.NodeReferences
import JfsReader.PagerReferences
import JfsReader.ReadNode
import JfsReader.FailedLoads
import JfsReader.LookupLocks
import JfsReader.ConcurrentLookups
import JfsReader.LookupHard
import JfsReader.ParentLookup
import JfsReader.PageRead
import JfsReader.PageMemory
import JfsReader.BlockUnits
import JfsReader.StoreAddresses
import JfsReader.RequestServer
import JfsReader.FileService
import JfsReader.FileClients
import JfsReader.Translator
import JfsReader.TranslatorRefinement
import JfsReader.TranslatorSessions
import JfsReader.TranslatorInvariant
import JfsReader.LockOrder
import JfsReader.LookupThreads
import JfsReader.LookupOrder
import JfsReader.LookupDeadlock
import JfsReader.ReferenceRaces
import JfsReader.SharedBuffers
import JfsReader.LoneSearch
import JfsReader.BufferSections
import JfsReader.ConcurrentSearches
