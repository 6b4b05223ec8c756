import NovaRuntime.Lib.Except
import NovaRuntime.Lib.Run
import NovaRuntime.Runs.Outcome
import NovaRuntime.Runs.CallOrder
import NovaRuntime.Runs.Leftovers
import NovaRuntime.Runs.TimerOrder
import NovaRuntime.Runs.WallClock
import NovaRuntime.Runs.TimerReach
import NovaRuntime.Runs.Intervals
import NovaRuntime.Runs.Serving
import NovaRuntime.Runs.Overtime
import NovaRuntime.Runs.CallLife
import NovaRuntime.Glue.Tables
import NovaRuntime.Script.Echo
import NovaRuntime.Script.Source
import NovaRuntime.Script.Headers
import NovaRuntime.Script.Fetch
import NovaRuntime.Script.Answers
import NovaRuntime.Script.Assets
import NovaRuntime.Script.FailedTask
import NovaRuntime.Script.WireJson
import NovaRuntime.Script.EnvBindings
import NovaRuntime.Lib.Utf8Lossy
import NovaRuntime.Script.Exchange
import NovaRuntime.Script.WaitUntil
import NovaRuntime.Host.UrlSetters
import NovaRuntime.Script.UrlOps
import NovaRuntime.Script.Env
import NovaRuntime.Encoding.Streaming
import NovaRuntime.Host.Compression
import NovaRuntime.Runs.Compression
import NovaRuntime.Runs.Piping
import NovaRuntime.Crypto.Separation
import NovaRuntime.Crypto.Sealing
import NovaRuntime.Crypto.Extractable
import NovaRuntime.Host.Jobs
import NovaRuntime.Crypto.Boundary
import NovaRuntime.Crypto.Agreement
import NovaRuntime.Crypto.Lifecycle
import NovaRuntime.Crypto.HexText
import NovaRuntime.Crypto.Random
import NovaRuntime.Encoding.TextEncoder
import NovaRuntime.Encoding.EndOfStream
import NovaRuntime.Encoding.Spelling
import NovaRuntime.Encoding.Legacy
