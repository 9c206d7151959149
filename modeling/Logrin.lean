import Logrin.Batcher
import Logrin.BatcherDelivery
import Logrin.BatcherShutdown
import Logrin.BatcherDrain
import Logrin.BatcherOrder
import Logrin.Library.Bytes
import Logrin.LogRecord
import Logrin.Logger
import Logrin.PatternSegment
import Logrin.Library.Loop
import Logrin.PatternParser
import Logrin.Library.Tiling
import Logrin.PatternScan
import Logrin.PatternTiling
import Logrin.PatternFormat
import Logrin.PatternSpan
import Logrin.PatternColor
import Logrin.PatternFormatter
import Logrin.PatternRender
import Logrin.PatternAgreement
import Logrin.Library.Overlay
import Logrin.PatternPieces
import Logrin.PatternNesting
import Logrin.PatternStyling
import Logrin.PatternLeak
import Logrin.Library.Digits
import Logrin.PatternBlock
import Logrin.PatternPadding
import Logrin.PatternColorSpec
import Logrin.PatternDecoration
import Logrin.PatternJoin
import Logrin.Json
import Logrin.OpenTelemetry
import Logrin.Attribute
import Logrin.Console
import Logrin.LogFactory
import Logrin.LogFactoryLifeCycle
import Logrin.PatternColorRange
import Logrin.PatternAcceptance
import Logrin.PatternTokens
import Logrin.PatternSeam
import Logrin.PatternCompose
import Logrin.PatternTimestamp
import Logrin.ConsoleThreads
import Logrin.PatternSyntax
import Logrin.PatternReading
import Logrin.PatternMeaning
import Logrin.PatternEscape
import Logrin.PatternUtf8
import Logrin.OpenTelemetrySink
import Logrin.Library.Simulation
import Logrin.LoggerThreads
import Logrin.PatternErrors
import Logrin.Library.Shared
import Logrin.SinkOwnership
import Logrin.JsonReading
import Logrin.ConsoleSinks
import Logrin.LoggedLines
