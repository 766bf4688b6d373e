import TFAT.BlockTraces
import TFAT.ByteRegions
import TFAT.LittleEndianWords
import TFAT.LinkedChains
import TFAT.DiskLayout
import TFAT.ClusterTable
import TFAT.FileDescriptor
import TFAT.VolumeMount
import TFAT.FormatDetection
import TFAT.ClusterPlacement
import TFAT.ChainWalk
import TFAT.VolumeLayout
import TFAT.Fat16Flush
import TFAT.DirectoryIO
import TFAT.Fat32Root
import TFAT.PathText
import TFAT.EntryNames
import TFAT.PathResolution
import TFAT.LongNames
import TFAT.UserCommands
import TFAT.FreshResults
import TFAT.ChainOwners
import TFAT.VolumeTree
import TFAT.ChainRelease
import TFAT.EntryMarking
import TFAT.MarkedTree
import TFAT.DeleteSafety
import TFAT.UndeleteSafety
import TFAT.WriteBack
import TFAT.ShellCommands
import TFAT.MarkingEffects
import TFAT.SystemPlaces
import TFAT.LeavingVolumes
import TFAT.DataOffset
import TFAT.ShellRuns
import TFAT.TableAccesses
import TFAT.HeldEntries
import TFAT.NumberedRuns
import TFAT.WalkEnds
import TFAT.UnmountedShell
import TFAT.LongNameParts
import TFAT.LongNameAccesses
import TFAT.ListedNames
import TFAT.GatheredSlots
import TFAT.SlotSequences
import TFAT.ListingRuns
import TFAT.LongNameRoundTrip
import TFAT.TwoDescriptors
import TFAT.DirectoryTree
import TFAT.CurrentPaths
import TFAT.PathSegments
import TFAT.PathComposition
import TFAT.DirectoryReads
import TFAT.FileDumps
import TFAT.UnresolvedPaths
import TFAT.PathLookup
import TFAT.ShownNames
import TFAT.ChainFreeing
import TFAT.MarkedPlaces
import TFAT.DeleteFootprints
import TFAT.UndeletedChains
import TFAT.MarkedArrays
import TFAT.CurrentNames
import TFAT.RestoredEntries
import TFAT.BlockWriters
import TFAT.BlockStrings
import TFAT.LastComponents
import TFAT.PathBuffers
import TFAT.ConvertedPaths
import TFAT.ChainPrints
import TFAT.PrefixCodes
import TFAT.LongNameCode
import TFAT.ShortNames
import TFAT.ClusterTests
import TFAT.TableDumps
import TFAT.TablePages
import TFAT.SettledVolumes
import TFAT.CarefulRuns
import TFAT.MirroredTables
import TFAT.CutChains
import TFAT.PrunedTrees
import TFAT.RemainingEntries
import TFAT.ProperPaths
import TFAT.Remounts
import TFAT.RelatedResults
import TFAT.HiddenBytes
import TFAT.Conversations
import TFAT.NameBuffers
import TFAT.NameConversion
import TFAT.ScannedWords
import TFAT.CommandLines
import TFAT.TypedRuns
import TFAT.OwnedBlocks
import TFAT.HeapSearches
import TFAT.HeapListings
import TFAT.HeapCommands
import TFAT.HeapRuns
import TFAT.ListedEntries
