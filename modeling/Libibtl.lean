import Libibtl.Probe
import Libibtl.Selection
import Libibtl.Foundation.MatchingOrder
import Libibtl.ReceiveCredit
import Libibtl.Rendezvous
import Libibtl.RendezvousBounds
import Libibtl.Attribution
import Libibtl.OrderIndependence
import Libibtl.Epochs
import Libibtl.RankTranslation
import Libibtl.Replacement
import Libibtl.ElectionBounds
import Libibtl.NestedVectors
import Libibtl.PackUnpack
import Libibtl.QueueIteration
import Libibtl.QueueFlush
import Libibtl.LinkedHashtable
import Libibtl.RegistrationCache
import Libibtl.Ibio.FileIndependence
import Libibtl.Ibio.ConsecutiveReads
import Libibtl.Ibio.ReadHandlers
import Libibtl.Ibio.ClientWrite
import Libibtl.Ibio.TagRoundTrip
import Libibtl.Ibio.FailedOpen
import Libibtl.Ibio.DirectWrite
import Libibtl.Ibio.Waits
import Libibtl.NetworkAnswers
import Libibtl.Pgz.Checksum
import Libibtl.Pgz.HeaderReading
import Libibtl.Pgz.PipelineCalls
import Libibtl.Pgz.RsyncBlocks
