import Swirly.Lib.KeySet
import Swirly.Lib.Table
import Swirly.Lib.Effect
import Swirly.Lib.Greedy
import Swirly.Lib.Tally
import Swirly.Ash.Calendar
import Swirly.Ash.Tokeniser
import Swirly.Elm.BookSideRun
import Swirly.Elm.OrderLife
import Swirly.Elm.RefCount
import Swirly.Fig.Response
import Swirly.Fig.PriceTime
import Swirly.Fig.Report
import Swirly.Fig.Admit
import Swirly.Fig.Failure
import Swirly.Fig.RefIdx
import Swirly.Fig.Registry
import Swirly.Fig.MarketDates
import Swirly.Fig.PostTrader
import Swirly.Fig.Directory
import Swirly.Fig.Untouched
import Swirly.Fig.Totals
import Swirly.Fig.Applied
import Swirly.Fig.Posted
import Swirly.Fig.Closing
import Swirly.Fig.Queue
import Swirly.Fig.Replay
import Swirly.Fir.Numbers
import Swirly.Fir.Scratch
import Swirly.Fir.GeneratedSound
import Swirly.Fir.Accepted
import Swirly.Fir.Written
import Swirly.Swirlyd.IdList
import Swirly.Swirlyd.Http
