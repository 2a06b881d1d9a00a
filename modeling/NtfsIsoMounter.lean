import NtfsIsoMounter.CacheCoherence
import NtfsIsoMounter.BlockReads
import NtfsIsoMounter.CdAddresses
import NtfsIsoMounter.EventReplies
import NtfsIsoMounter.PluginArguments
import NtfsIsoMounter.SplitOutput
import NtfsIsoMounter.CueResults
import NtfsIsoMounter.DirectoryChildren
import NtfsIsoMounter.JolietNames
import NtfsIsoMounter.RecordLookups
import NtfsIsoMounter.MultiExtents
import NtfsIsoMounter.PathEntries
import NtfsIsoMounter.WorkBuffers
import NtfsIsoMounter.FileLists
import NtfsIsoMounter.EmuModes
import NtfsIsoMounter.AutoMount
import NtfsIsoMounter.TableTotals
import NtfsIsoMounter.MountedFiles
import NtfsIsoMounter.OutputCleanup
import NtfsIsoMounter.ImageLayout
import NtfsIsoMounter.UsbNames
import NtfsIsoMounter.CdReads
import NtfsIsoMounter.CdTracks
import NtfsIsoMounter.ParamSfo
import NtfsIsoMounter.FtpRenames
import NtfsIsoMounter.FtpOffsets
import NtfsIsoMounter.FtpSockets
import NtfsIsoMounter.ListBounds
import NtfsIsoMounter.DiscEvents
import NtfsIsoMounter.UmdSetup
import NtfsIsoMounter.FileExtents
import NtfsIsoMounter.FtpDirectories
import NtfsIsoMounter.RecordWalks
import NtfsIsoMounter.SectorRuns
import NtfsIsoMounter.DeviceRuns
import NtfsIsoMounter.MstDevice
import NtfsIsoMounter.RunlistFiles
import NtfsIsoMounter.NameRoundTrip
