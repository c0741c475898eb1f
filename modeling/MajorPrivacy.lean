import MajorPrivacy.Variant.Finished
import MajorPrivacy.Cache.Protocol
import MajorPrivacy.Cache.WritePaths
import MajorPrivacy.Volume.PartialWrite
import MajorPrivacy.Volume.KeyfileMix
import MajorPrivacy.Disk.CryptoIO
import MajorPrivacy.Buffer.CopyOnWrite
import MajorPrivacy.Buffer.Splices
import MajorPrivacy.Buffer.TextFile
import MajorPrivacy.Core.MultimapRuns
import MajorPrivacy.Dns.Forwarding
import MajorPrivacy.Access.Collapse
import MajorPrivacy.Access.Persistence
import MajorPrivacy.Usage.Polling
import MajorPrivacy.Ipc.Broadcast
import MajorPrivacy.Ipc.Calls
import MajorPrivacy.Firewall.Codec
import MajorPrivacy.Usage.LanShare
import MajorPrivacy.Usage.MiscStats
import MajorPrivacy.Records.HashEntry
import MajorPrivacy.Records.Enclave
import MajorPrivacy.Presets.Restore
import MajorPrivacy.Firewall.Events
import MajorPrivacy.Firewall.TemplateGuard
import MajorPrivacy.Dns.Termination
import MajorPrivacy.Variant.SequenceRuns
import MajorPrivacy.Variant.ReaderBounds
import MajorPrivacy.Variant.GoBuilder
import MajorPrivacy.Variant.LazyParse
import MajorPrivacy.Firewall.Restore
import MajorPrivacy.Firewall.Following
import MajorPrivacy.Volume.Pieces
import MajorPrivacy.Firewall.UIntX
import MajorPrivacy.Disk.ImageFile
import MajorPrivacy.Disk.RamDiskRuns
import MajorPrivacy.Boot.RoundTrip
import MajorPrivacy.Dns.Verdict
import MajorPrivacy.Dns.CacheIndexes
import MajorPrivacy.NtPath.Translation
import MajorPrivacy.Boot.CreateEsp
import MajorPrivacy.Tweaks.SvcTweak
import MajorPrivacy.Core.PageCells
import MajorPrivacy.Core.MapLookups
import MajorPrivacy.Core.ListIteration
import MajorPrivacy.Dns.TableTree
import MajorPrivacy.Strings.Wildcmpex
import MajorPrivacy.Tweaks.TweakText
import MajorPrivacy.Path.BestOrder
