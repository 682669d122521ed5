import Php53.Calendar.RoundTrip
import Php53.Dba.FlatFileKeys
import Php53.Filter.Int
import Php53.Main.MultipartRoundTrip
import Php53.Main.QueryRoundTrip
import Php53.Main.UploadDisposition
import Php53.Main.UploadSkips
import Php53.Mysqlnd.Exchange
import Php53.Output.Runs
import Php53.Sapi.FcgiReadRequest
import Php53.Sapi.FcgiSession
import Php53.Sapi.FcgiStdin
import Php53.Session.BinaryRoundTrip
import Php53.Session.Files
import Php53.Spl.ArrayRuns
import Php53.Spl.DllistDeque
import Php53.Spl.DllistModes
import Php53.Spl.HeapForeach
import Php53.Standard.ArraySetsMerge
import Php53.Standard.ArraySum
import Php53.Standard.Base64Agreement
import Php53.Standard.Base64String
import Php53.Standard.BaseConvert
import Php53.Standard.CSlashes
import Php53.Standard.Chunked
import Php53.Standard.EscapeShell
import Php53.Standard.Explode
import Php53.Standard.HtmlInPlace
import Php53.Standard.Levenshtein
import Php53.Standard.Liveness
import Php53.Standard.MtRand
import Php53.Standard.NaturalOrder
import Php53.Standard.PopShift
import Php53.Standard.Splice
import Php53.Standard.StrReplace
import Php53.Standard.StripOpeners
import Php53.Standard.UnpackBounds
import Php53.Standard.UrlInside
import Php53.Standard.UuEncode
import Php53.Standard.VersionOrder
import Php53.Standard.WordWrap
import Php53.Streams.FilterFlush
import Php53.Streams.Filtered
import Php53.Streams.LineDetection
import Php53.Streams.MemoryRefinement
import Php53.Sysvshm.Store
import Php53.TSRM.PathExpansion
import Php53.Zend.Alloc.Usage
import Php53.Zend.Arithmetic
import Php53.Zend.Hash.Contents
import Php53.Zend.IncrementString
import Php53.Zend.Ini.Runs
import Php53.Zend.NumericVerdict
import Php53.Zend.Objects.Lifecycle
