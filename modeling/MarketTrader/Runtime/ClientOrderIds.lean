import MarketTrader.Library.Run
import MarketTrader.Runtime.Exposure
import MarketTrader.Runtime.Requests

namespace MarketTrader.Runtime

open Library MarketTrader.Core Storage InMemoryBitemporalStore Config Portfolio Execution

variable {β : Type}

/-- A pass over the shared broker and store, or a new quote at the broker. -/
inductive Turn
  | daily (asOf : Datetime) (inputs : LiveInputs)
  | intraday (asOf : Datetime) (inputs : IntradayInputs)
  | news (asOf : Datetime) (fetched : List Observation) (watchlist : List String)
      (limits : Option RiskLimits)
  | halt (asOf : Datetime) (engine : ExecutionEngine)
  | quote (symbol : String) (price : ℚ)

namespace Turn

variable (N : Numerics) (D : Digests) (B : Broker β) (quote : β → String → ℚ → β)
  (settings : Settings)

def step (w : World β) : Turn → World β
  | .daily asOf inputs => (runLivePaperCycle N D B settings inputs w asOf).2
  | .intraday asOf inputs => (runIntradayCycle N D B settings inputs w asOf).2
  | .news asOf fetched watchlist limits =>
    (NewsSleeve.runNewsSleeveCycle D B settings w fetched watchlist limits asOf).2
  | .halt asOf engine => (haltAndFlatten D B engine w asOf).world
  | .quote symbol price => { w with broker := quote w.broker symbol price }

/-- What the turn asks of its engines. -/
def requests (w : World β) : Turn → List (Request β)
  | .daily asOf inputs => (liveCalls N D B settings inputs w asOf).map .rebalance
  | .intraday asOf inputs => (intradayCall N D B settings inputs w asOf).toList.map .rebalance
  | .news asOf fetched watchlist limits =>
    (newsCall D settings w fetched watchlist limits asOf).toList.map .rebalance
  | .halt asOf _ => [.flatten w asOf]
  | .quote .. => []

def allRequests : World β → List Turn → List (Request β)
  | _, [] => []
  | w, turn :: turns =>
    requests N D B settings w turn ++ allRequests (step N D B quote settings w turn) turns

/-- The ids of all orders that are built in a run. -/
def orderIds (w : World β) (turns : List Turn) : List String :=
  ((allRequests N D B quote settings w turns).flatMap (Request.built B)).map Order.clientOrderId

variable {N D B quote settings}

theorem leads_step (w : World β) (turn : Turn) :
    Leads B quote w (requests N D B settings w turn) (step N D B quote settings w turn) := by
  cases turn with
  | daily asOf inputs => exact leads_liveCalls inputs
  | intraday asOf inputs => exact leads_intradayCall inputs
  | news asOf fetched watchlist limits => exact leads_newsCall fetched watchlist limits
  | halt asOf engine => exact leads_haltAndFlatten engine w asOf
  | quote symbol price => exact .market symbol price (.refl w)

theorem leads_run (w : World β) (turns : List Turn) :
    Leads B quote w (allRequests N D B quote settings w turns)
      (run (step N D B quote settings) w turns) := by
  induction turns generalizing w with
  | nil => exact .refl w
  | cons turn turns ih => exact (leads_step w turn).trans (ih _)

end Turn

/-- A paper broker at its start, before any order. -/
def opened (prices : Dict String ℚ) (cash : ℚ) (positions : Keyed Position.symbol)
    (store : InMemoryBitemporalStore) : World WatchedBroker where
  broker := { paper := { prices := prices, cash := cash, positions := positions } }
  store := store
  submitted := []

theorem stores_opened (prices : Dict String ℚ) (cash : ℚ) (positions : Keyed Position.symbol)
    (store : InMemoryBitemporalStore) : Stores (opened prices cash positions store) where
  handed id hid := by cases hid
  replayed _ := rfl

/-- The ids of a run are distinct if and only if its requests within one second are about different
names, and then the paper broker replays no stored result. -/
theorem order_ids_distinct_iff (N : Numerics) (D : Digests) (settings : Settings) (turns : List Turn)
    (B : Broker β) (quote : β → String → ℚ → β) (w : World β) (prices : Dict String ℚ) (cash : ℚ)
    (positions : Keyed Position.symbol) (store : InMemoryBitemporalStore) :
    ((Turn.orderIds N D B quote settings w turns).Nodup ↔
      Spread B (Turn.allRequests N D B quote settings w turns)) ∧
    let start := opened prices cash positions store
    let step := Turn.step N D watchedBroker WatchedBroker.setPrice settings
    ((Turn.orderIds N D watchedBroker WatchedBroker.setPrice settings start turns).Nodup ∧
      (run step start turns).broker.replayed = []) ↔
      (Turn.allRequests N D watchedBroker WatchedBroker.setPrice settings start turns).Pairwise
        (Request.Apart watchedBroker) := by
  refine ⟨nodup_ids_iff_spread _, ?_⟩
  intro start step
  have hl : Leads watchedBroker WatchedBroker.setPrice start
      (Turn.allRequests N D watchedBroker WatchedBroker.setPrice settings start turns)
      (run step start turns) := Turn.leads_run start turns
  have hiff := nodup_ids_iff_spread (B := watchedBroker)
    (Turn.allRequests N D watchedBroker WatchedBroker.setPrice settings start turns)
  constructor
  · intro h
    exact (hiff.mp h.1).apart
  · intro h
    have hn := hiff.mpr ⟨fun r _ ↦ nodup_names_watched r, h⟩
    refine ⟨hn, (hl.stores (stores_opened prices cash positions store)).replayed ?_⟩
    obtain ⟨sent, he, hs⟩ := hl.submitted
    have hsent : (run step start turns).submitted = sent := he
    rw [hsent]
    exact hn.sublist (hs.map _)

/-- The book buys the name that the insiders have bought. -/
def bookOnInsiders : LiveInputs :=
  { clusterDay with buildScorer := fun _ _ ↦ .ok fun _ _ ↦ .ok [("A", some 1)] }

/-- The sleeve sells off most of what the book has bought in the same cycle, but its order has the
id of the book's, and the broker answers with that. -/
theorem insider_order_replayed :
    let start := opened (.ofList [("A", 100)]) 1000 .empty .empty
    let step := Turn.step .plain .plain watchedBroker WatchedBroker.setPrice (oneSleeve 1)
    ¬(Turn.orderIds .plain .plain watchedBroker WatchedBroker.setPrice (oneSleeve 1) start
      [.daily 0 bookOnInsiders]).Nodup ∧
      (run step start [.daily 0 bookOnInsiders]).broker.replayed ≠ [] := by
  decide +kernel

end MarketTrader.Runtime
