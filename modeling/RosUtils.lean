import RosUtils.Base128
import RosUtils.BigEndian
import RosUtils.Binary64
import RosUtils.CMemory
import RosUtils.ChronyExchange
import RosUtils.ChronyReply
import RosUtils.ChronyReports
import RosUtils.ChronyRequests
import RosUtils.ChronySources
import RosUtils.ChronyTime
import RosUtils.ChronyWire
import RosUtils.EventLog
import RosUtils.ExceptState
import RosUtils.FirstSeen
import RosUtils.FixedFields
import RosUtils.GssAcceptor
import RosUtils.GssOid
import RosUtils.Hexadecimal
import RosUtils.JsonCaller
import RosUtils.JsonClient
import RosUtils.JsonFrame
import RosUtils.JsonGrammar
import RosUtils.JsonInstance
import RosUtils.JsonNumber
import RosUtils.JsonReader
import RosUtils.JsonReaderSpec
import RosUtils.JsonReply
import RosUtils.JsonRequest
import RosUtils.JsonResponse
import RosUtils.JsonText
import RosUtils.JsonValue
import RosUtils.JsonVerdict
import RosUtils.JsonWriter
import RosUtils.KrbPrincipal
import RosUtils.LexOrder
import RosUtils.LittleEndian
import RosUtils.MdbCallers
import RosUtils.MdbLocks
import RosUtils.MdbPool
import RosUtils.MdbScan
import RosUtils.MdbSlot
import RosUtils.MdbTxn
import RosUtils.MetaFmt
import RosUtils.ModWord
import RosUtils.NssCall
import RosUtils.NssEntIter
import RosUtils.NssEnumSlot
import RosUtils.NssEnumerate
import RosUtils.NssGroups
import RosUtils.NssLookup
import RosUtils.NssLookupExact
import RosUtils.NssRegistry
import RosUtils.OwnedHeap
import RosUtils.PamAuthenticator
import RosUtils.PamConv
import RosUtils.PamEnvironment
import RosUtils.PamProgress
import RosUtils.PamSecrets
import RosUtils.PamStepped
import RosUtils.Quoting
import RosUtils.SelfDelimiting
import RosUtils.SerdeJson
import RosUtils.ShiftingList
import RosUtils.SipHash
import RosUtils.StreamFraming
import RosUtils.SwapRemove
import RosUtils.Transition
import RosUtils.Utf8
import RosUtils.XdrArrayRef
import RosUtils.XdrBounded
import RosUtils.XdrCanonical
import RosUtils.XdrCounts
import RosUtils.XdrDe
import RosUtils.XdrDerive
import RosUtils.XdrDiscriminant
import RosUtils.XdrEncode
import RosUtils.XdrFromEncoded
import RosUtils.XdrLeaves
import RosUtils.XdrListRef
import RosUtils.XdrMonotone
import RosUtils.XdrPartition
import RosUtils.XdrParts
import RosUtils.XdrRead
import RosUtils.XdrRefine
import RosUtils.XdrRestore
import RosUtils.XdrRoundTrip
import RosUtils.XdrSafe
import RosUtils.XdrSer
import RosUtils.XdrSize
import RosUtils.XdrTruncate
import RosUtils.XdrTypes
import RosUtils.XdrWeaken
