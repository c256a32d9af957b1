import MarketTrader.Execution.Idempotency
import MarketTrader.Runtime.Intraday
import MarketTrader.Runtime.NewsAgreement

namespace MarketTrader.Runtime

open Library MarketTrader.Core Storage InMemoryBitemporalStore Config Portfolio Features Execution
  Feedback

variable {β : Type}

/-! ### What the passes ask of their engines -/

/-- The call at the end of a cycle, unless it fails or aims at nothing. -/
def paperCall (N : Numerics) (D : Digests) (B : Broker β) (settings : Settings)
    (options : CycleOptions) (w : World β) (asOf : Datetime) (symbols : List String)
    (prices : Dict String ℚ) : Option (EngineCall β) :=
  let limits := options.limits.getD (limitsFromSettings settings)
  let broker := if options.cancelStaleOrders then cancelStale B options.reserved w.broker
    else w.broker
  match rankUniverse N options w.store asOf symbols with
  | .error _ => none
  | .ok (matrix, ranked) =>
    let store := if options.predictionLog ∧ !matrix.isEmpty then
        logCyclePredictions D w.store ranked matrix asOf options.modelVersion
          options.predictionHorizon
      else w.store
    let positions := (B.getPositions broker).filter (·.symbol ∉ options.reserved)
    match targetBook N settings options limits store asOf matrix ranked positions prices with
    | .error _ => none
    | .ok target =>
      let goal := flattenDropped (positions.map Position.symbol) prices target
      if goal.toList = [] then none
      else
        some
          { engine := .fresh settings limits true store asOf
            world := { w with broker := broker, store := store }
            target := goal
            prices := prices
            asOf := asOf }

/-- The call at the end of a sleeve pass. -/
def sleeveCall (engine : ExecutionEngine) (w : World β) (p : SleevePass)
    (prices : Dict String ℚ) (asOf : Datetime) : Option (EngineCall β) :=
  if p.target.toList = [] then none
  else
    some
      { engine := engine
        world := { w with store := p.store }
        target := p.target
        prices := prices
        asOf := asOf }

def newsCall (D : Digests) (settings : Settings) (w : World β) (fetched : List Observation)
    (watchlist : List String) (limits : Option RiskLimits) (asOf : Datetime) :
    Option (EngineCall β) :=
  match NewsSleeve.closePhase D settings (NewsSleeve.received D w.store fetched) watchlist asOf with
  | .error _ => none
  | .ok (p₁, b, live) =>
    match NewsSleeve.openPhase D settings watchlist asOf p₁ b live with
    | .error _ => none
    | .ok p => sleeveCall (NewsSleeve.engine settings limits p.store asOf) w p b.prices asOf

def insiderCall (D : Digests) (settings : Settings) (w : World β) (universeNames : List String)
    (gate : Gate) (asOf : Datetime) : Option (EngineCall β) :=
  match InsiderSleeve.decidePass D settings w.store universeNames gate asOf with
  | .error _ => none
  | .ok (p, prices) =>
    sleeveCall (InsiderSleeve.engine settings p.store asOf) w p prices asOf

def intradayCall (N : Numerics) (D : Digests) (B : Broker β) (settings : Settings)
    (inputs : IntradayInputs) (w : World β) (asOf : Datetime) : Option (EngineCall β) :=
  match if inputs.injected then none else liveGate settings with
  | some _ => none
  | none =>
    let w₁ := { w with store := ingest D w.store inputs.bars }
    match Intraday.latestPrices w₁.store asOf with
    | .error _ => none
    | .ok prices =>
      paperCall N D B settings (Intraday.options N settings inputs) w₁ asOf inputs.watchlist prices

/-- The call for the book, and right after it the one of the insider sleeve. -/
def liveCalls (N : Numerics) (D : Digests) (B : Broker β) (settings : Settings)
    (inputs : LiveInputs) (w : World β) (asOf : Datetime) : List (EngineCall β) :=
  match liveGate settings with
  | some _ => []
  | none =>
    let w₁ := { w with store := ingest D w.store inputs.bars }
    match closePrices w₁.store asOf inputs.watchlist with
    | .error _ => []
    | .ok prices =>
      let w₂ := { w₁ with store := ingestFlows D settings inputs w₁.store }
      match bookInputs settings inputs w₂.store asOf with
      | .error _ => []
      | .ok (scoreFn, reserved) =>
        let options := liveOptions settings inputs scoreFn reserved
        (paperCall N D B settings options w₂ asOf inputs.watchlist prices).toList ++
          match runPaperCycle N D B settings options w₂ asOf inputs.watchlist prices with
          | (.error _, _) => []
          | (.ok _, w₃) =>
            if settings.insiderSleeveEnabled then
              (insiderCall D settings w₃ inputs.insiderUniverse inputs.gate asOf).toList
            else []

/-! ### The passes lead through their calls -/

variable {N : Numerics} {D : Digests} {B : Broker β} {quote : β → String → ℚ → β}
  {settings : Settings} {w : World β} {asOf : Datetime}

theorem leads_call {engine : ExecutionEngine} {w' : World β} {target prices : Dict String ℚ}
    (h : Leads B quote w [] w') :
    Leads B quote w ((some ⟨engine, w', target, prices, asOf⟩ : Option (EngineCall β)).toList.map
      .rebalance) (rebalance D B engine w' target prices asOf).world :=
  h.trans (leads_rebalance ⟨engine, w', target, prices, asOf⟩)

theorem leads_sleeveCall (engine : ExecutionEngine) (p : SleevePass) (prices : Dict String ℚ) :
    Leads B quote w ((sleeveCall engine w p prices asOf).toList.map .rebalance)
      (executePass D B engine w p prices asOf).2 := by
  have hw : Leads B quote w [] { w with store := p.store } := .store p.store (.refl w)
  unfold executePass sleeveCall
  dsimp only
  split
  · exact hw
  · exact leads_call hw

theorem leads_newsCall (fetched : List Observation) (watchlist : List String)
    (limits : Option RiskLimits) :
    Leads B quote w ((newsCall D settings w fetched watchlist limits asOf).toList.map .rebalance)
      (NewsSleeve.runNewsSleeveCycle D B settings w fetched watchlist limits asOf).2 := by
  unfold newsCall
  split
  · next hc =>
    rw [NewsSleeve.run_of_close_error hc]
    exact .store _ (.refl w)
  · next hc =>
    split
    · next ho =>
      rw [NewsSleeve.run_of_open_error limits hc ho]
      exact .store _ (.refl w)
    · next ho =>
      rw [NewsSleeve.run_of_opened limits hc ho]
      exact leads_sleeveCall _ _ _

theorem leads_insiderCall (universeNames : List String) (gate : Gate) :
    Leads B quote w ((insiderCall D settings w universeNames gate asOf).toList.map .rebalance)
      (InsiderSleeve.runInsiderSleeveCycle D B settings w universeNames gate asOf).2 := by
  unfold InsiderSleeve.runInsiderSleeveCycle insiderCall
  cases InsiderSleeve.decidePass D settings w.store universeNames gate asOf with
  | error err => exact .refl w
  | ok decision => exact leads_sleeveCall _ _ _

theorem leads_paperCall (options : CycleOptions) (symbols : List String) (prices : Dict String ℚ) :
    Leads B quote w
      ((paperCall N D B settings options w asOf symbols prices).toList.map .rebalance)
      (runPaperCycle N D B settings options w asOf symbols prices).2 := by
  have hb : ∀ store, Leads B quote w []
      { w with
        store := store
        broker := if options.cancelStaleOrders then cancelStale B options.reserved w.broker
          else w.broker } := by
    intro store
    split
    · exact (Leads.store store (.refl w)).cancelAll _
    · exact .store store (.refl w)
  unfold runPaperCycle paperCall
  dsimp only
  generalize (if options.cancelStaleOrders then cancelStale B options.reserved w.broker
    else w.broker) = b at hb ⊢
  cases rankUniverse N options w.store asOf symbols with
  | error e => exact hb w.store
  | ok ranking =>
    dsimp only
    generalize (if options.predictionLog ∧ !ranking.1.isEmpty then _ else w.store) = store
    cases targetBook N settings options (options.limits.getD (limitsFromSettings settings)) store asOf
        ranking.1 ranking.2 ((B.getPositions b).filter (·.symbol ∉ options.reserved)) prices with
    | error e => exact hb store
    | ok target =>
      dsimp only
      split
      · exact hb store
      · split <;> exact leads_call (hb store)

theorem leads_intradayCall (inputs : IntradayInputs) :
    Leads B quote w ((intradayCall N D B settings inputs w asOf).toList.map .rebalance)
      (runIntradayCycle N D B settings inputs w asOf).2 := by
  have hw : Leads B quote w [] { w with store := ingest D w.store inputs.bars } :=
    .store _ (.refl w)
  unfold runIntradayCycle intradayCall
  cases (if inputs.injected then none else liveGate settings : Option CycleError) with
  | some e => exact .refl w
  | none =>
    dsimp only
    cases Intraday.latestPrices (ingest D w.store inputs.bars) asOf with
    | error e => exact hw
    | ok prices => exact hw.trans (leads_paperCall _ _ _)

theorem leads_liveCalls (inputs : LiveInputs) :
    Leads B quote w ((liveCalls N D B settings inputs w asOf).map .rebalance)
      (runLivePaperCycle N D B settings inputs w asOf).2 := by
  have hw : ∀ store, Leads B quote w [] { w with store := store } := fun store ↦
    .store store (.refl w)
  unfold runLivePaperCycle liveCalls
  cases liveGate settings with
  | some e => exact .refl w
  | none =>
    dsimp only
    cases closePrices (ingest D w.store inputs.bars) asOf inputs.watchlist with
    | error e => exact hw _
    | ok prices =>
      dsimp only
      cases bookInputs settings inputs
          (ingestFlows D settings inputs (ingest D w.store inputs.bars)) asOf with
      | error e => exact hw _
      | ok bookInputs =>
        obtain ⟨scoreFn, reserved⟩ := bookInputs
        dsimp only
        rw [List.map_append]
        let w₂ : World β :=
          { w with store := ingestFlows D settings inputs (ingest D w.store inputs.bars) }
        let options := liveOptions settings inputs scoreFn reserved
        have hbook : Leads B quote w
            ((paperCall N D B settings options w₂ asOf inputs.watchlist prices).toList.map
              .rebalance)
            (runPaperCycle N D B settings options w₂ asOf inputs.watchlist prices).2 :=
          (hw _).trans (leads_paperCall options inputs.watchlist prices)
        rcases hrun : runPaperCycle N D B settings options w₂ asOf inputs.watchlist prices with
          ⟨result, w₃⟩
        rw [hrun] at hbook
        cases result with
        | error e => simpa using hbook
        | ok result =>
          refine hbook.trans ?_
          dsimp only
          split
          · exact leads_insiderCall _ _
          · exact .refl w₃

end MarketTrader.Runtime
