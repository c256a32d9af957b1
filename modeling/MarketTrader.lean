import MarketTrader.Backtest.BuyAndHold
import MarketTrader.Backtest.Charges
import MarketTrader.Backtest.Conservation
import MarketTrader.Backtest.Costs
import MarketTrader.Backtest.Drawdown
import MarketTrader.Backtest.Engine
import MarketTrader.Backtest.FullBooks
import MarketTrader.Backtest.Governed
import MarketTrader.Backtest.Holdout
import MarketTrader.Backtest.LongShort
import MarketTrader.Backtest.LookAhead
import MarketTrader.Backtest.Metrics
import MarketTrader.Backtest.MultipleTesting
import MarketTrader.Backtest.Pit
import MarketTrader.Backtest.PurgedFolds
import MarketTrader.Backtest.Replay
import MarketTrader.Backtest.ReplayLookAhead
import MarketTrader.Backtest.Simulation
import MarketTrader.Backtest.SizedBook
import MarketTrader.Backtest.Splitters
import MarketTrader.Backtest.Strategies
import MarketTrader.Collectors.AlpacaBars
import MarketTrader.Collectors.BestEffort
import MarketTrader.Collectors.Disclosures
import MarketTrader.Collectors.Edgar
import MarketTrader.Collectors.EdgarSession
import MarketTrader.Collectors.Feeds
import MarketTrader.Collectors.Fundamentals
import MarketTrader.Collectors.Gateway
import MarketTrader.Collectors.Gdelt
import MarketTrader.Collectors.IngestFilings
import MarketTrader.Collectors.Massive
import MarketTrader.Collectors.Payload
import MarketTrader.Collectors.Quality
import MarketTrader.Collectors.Stooq
import MarketTrader.Config.Settings
import MarketTrader.Core.Calendar
import MarketTrader.Core.Identity
import MarketTrader.Core.Schema
import MarketTrader.Core.Time
import MarketTrader.Execution.Alpaca
import MarketTrader.Execution.Audit
import MarketTrader.Execution.Broker
import MarketTrader.Execution.CapResidue
import MarketTrader.Execution.Convergence
import MarketTrader.Execution.DrawdownMark
import MarketTrader.Execution.Engine
import MarketTrader.Execution.FullExit
import MarketTrader.Execution.Governor
import MarketTrader.Execution.Guardrails
import MarketTrader.Execution.Idempotency
import MarketTrader.Execution.KillAction
import MarketTrader.Execution.KillLatch
import MarketTrader.Execution.LiveGate
import MarketTrader.Execution.OrderIds
import MarketTrader.Execution.PaperLedger
import MarketTrader.Execution.Records
import MarketTrader.Execution.RiskGate
import MarketTrader.Execution.Settlement
import MarketTrader.Execution.Submission
import MarketTrader.Features.Base
import MarketTrader.Features.Fundamental
import MarketTrader.Features.Llm
import MarketTrader.Features.Technical
import MarketTrader.Feedback.PredictionLog
import MarketTrader.Forecasting.Dataset
import MarketTrader.Forecasting.Pipeline
import MarketTrader.Library.Attempts
import MarketTrader.Library.Champion
import MarketTrader.Library.Dendrogram
import MarketTrader.Library.DictSum
import MarketTrader.Library.Double
import MarketTrader.Library.Falls
import MarketTrader.Library.Frame
import MarketTrader.Library.Gaussian
import MarketTrader.Library.Json
import MarketTrader.Library.JsonCorrect
import MarketTrader.Library.Keyed
import MarketTrader.Library.Nearest
import MarketTrader.Library.Ownership
import MarketTrader.Library.Paging
import MarketTrader.Library.QuadraticForm
import MarketTrader.Library.Quantile
import MarketTrader.Library.Root
import MarketTrader.Library.Rounding
import MarketTrader.Library.Run
import MarketTrader.Library.Slice
import MarketTrader.Library.Stake
import MarketTrader.Library.StepUp
import MarketTrader.Library.Stride
import MarketTrader.Library.WeightedMean
import MarketTrader.Library.While
import MarketTrader.Memory.AnchorBar
import MarketTrader.Memory.Episodic
import MarketTrader.Memory.EventStudy
import MarketTrader.Memory.PlaceboAnchors
import MarketTrader.Memory.StudyGate
import MarketTrader.Memory.StudyRunner
import MarketTrader.Memory.Taxonomy
import MarketTrader.Portfolio.Caps
import MarketTrader.Portfolio.Construction
import MarketTrader.Portfolio.HierarchicalRiskParity
import MarketTrader.Portfolio.LongOnly
import MarketTrader.Portfolio.QuasiDiagonal
import MarketTrader.Portfolio.Risk
import MarketTrader.Portfolio.Sizing
import MarketTrader.Portfolio.TiltOrder
import MarketTrader.Portfolio.Weighting
import MarketTrader.Reasoning.Agents
import MarketTrader.Reasoning.Budget
import MarketTrader.Reasoning.Extraction
import MarketTrader.Reasoning.Replies
import MarketTrader.Reasoning.Synthesis
import MarketTrader.Runtime.AuditTrail
import MarketTrader.Runtime.AuditedRun
import MarketTrader.Runtime.ClientOrderIds
import MarketTrader.Runtime.Cycle
import MarketTrader.Runtime.DeadTickers
import MarketTrader.Runtime.DrawdownHalt
import MarketTrader.Runtime.DroppedNames
import MarketTrader.Runtime.Evaluation
import MarketTrader.Runtime.Exposure
import MarketTrader.Runtime.GoalBook
import MarketTrader.Runtime.Grading
import MarketTrader.Runtime.Hysteresis
import MarketTrader.Runtime.InsiderAgreement
import MarketTrader.Runtime.InsiderEvents
import MarketTrader.Runtime.InsiderExit
import MarketTrader.Runtime.InsiderLedger
import MarketTrader.Runtime.InsiderSleeve
import MarketTrader.Runtime.Intraday
import MarketTrader.Runtime.IntradayConfirm
import MarketTrader.Runtime.LatestPrice
import MarketTrader.Runtime.Learning
import MarketTrader.Runtime.LearningAgreement
import MarketTrader.Runtime.LedgerReplay
import MarketTrader.Runtime.LedgerSettlement
import MarketTrader.Runtime.LiveBook
import MarketTrader.Runtime.LiveCycle
import MarketTrader.Runtime.MeasuredIc
import MarketTrader.Runtime.NameOwners
import MarketTrader.Runtime.NewsAgreement
import MarketTrader.Runtime.NewsChurn
import MarketTrader.Runtime.NewsLedger
import MarketTrader.Runtime.NewsSleeve
import MarketTrader.Runtime.OneOwner
import MarketTrader.Runtime.Requests
import MarketTrader.Runtime.Schedule
import MarketTrader.Runtime.Scoring
import MarketTrader.Runtime.SignalIc
import MarketTrader.Runtime.Sleeve
import MarketTrader.Runtime.SleeveAgreement
import MarketTrader.Runtime.SleeveLedger
import MarketTrader.Runtime.SleevePass
import MarketTrader.Runtime.SleeveRoom
import MarketTrader.Runtime.Spares
import MarketTrader.Storage.Backends
import MarketTrader.Storage.Bitemporal
import MarketTrader.Storage.FactIdentity
import MarketTrader.Storage.FilteredRead
import MarketTrader.Storage.Journal
import MarketTrader.Storage.PointInTime
import MarketTrader.Storage.SqlAlchemyStore
