import MarketTrader.Runtime.AuditTrail
import MarketTrader.Runtime.ClientOrderIds

namespace MarketTrader.Runtime

open Library MarketTrader.Core Storage InMemoryBitemporalStore Config Portfolio Execution Feedback

variable {β : Type} {N : Numerics} {D : Digests} {B : Broker β} {quote : β → String → ℚ → β}
  {settings : Settings} {asOf : Datetime} {dataset : String} {s : InMemoryBitemporalStore}
  {w : World β}

/-! ### What the passes write before they trade -/

theorem spares_foldl {ι : Type} {f : SleevePass → ι → SleevePass}
    (h : ∀ p a, Spares D dataset p.store (f p a).store) (l : List ι) (p : SleevePass) :
    Spares D dataset p.store (l.foldl f p).store := by
  induction l generalizing p with
  | nil => exact .refl _
  | cons a l ih => exact (h p a).trans (ih (f p a))

theorem spares_closeWith {π : Type} {due : String × π → Bool}
    {record : InMemoryBitemporalStore → String × π → InMemoryBitemporalStore}
    (h : ∀ s a, Spares D dataset s (record s a)) (p : SleevePass) (a : String × π) :
    Spares D dataset p.store (closeWith due record p a).store := by
  unfold closeWith
  split
  · exact h p.store a
  · exact .refl _

theorem spares_sleeveRow {own symbol ref : String} {value : Dict String Value}
    (hbar : '|' ∉ own.toList) (hne : own ≠ dataset) (s : InMemoryBitemporalStore) :
    Spares D dataset s (s.insert (sleeveRow D own symbol ref asOf value)) :=
  .insert ⟨hasIdentity_sleeveRow hbar, hne⟩

namespace NewsSleeve

variable {p : SleevePass} {b : Briefing} {live watchlist : List String}

theorem spares_closeStep {prices : Dict String ℚ} (hne : sleeveDataset ≠ dataset) (p : SleevePass)
    (a : String × SleevePosition) :
    Spares D dataset p.store (closeStep D settings prices asOf p a).store :=
  spares_closeWith (fun s _ ↦ spares_sleeveRow bar_not_mem_sleeveDataset hne s) p a

theorem spares_closePhase (hne : sleeveDataset ≠ dataset)
    (h : closePhase D settings s watchlist asOf = .ok (p, b, live)) :
    Spares D dataset s p.store := by
  unfold closePhase at h
  cases hprices : latestPrices s asOf watchlist with
  | error err =>
    simp only [hprices, bind, Except.bind] at h
    cases h
  | ok prices =>
    cases hactive : activeSleevePositions s asOf with
    | error err =>
      simp only [hprices, hactive, bind, Except.bind] at h
      cases h
    | ok active =>
      simp only [hprices, hactive, bind, Except.bind, pure, Except.pure, Except.ok.injEq,
        Prod.mk.injEq] at h
      obtain ⟨rfl, -, -⟩ := h
      exact spares_foldl (spares_closeStep hne) active.toList { store := s }

theorem spares_openLoop (hne : sleeveDataset ≠ dataset) (hp : predictionDataset ≠ dataset)
    (evs : List NewsEvent) (p : SleevePass) (live : List String) :
    Spares D dataset p.store (openLoop D settings asOf b evs p live).store := by
  induction evs generalizing p live with
  | nil => exact .refl _
  | cons ev rest ih =>
    rw [openLoop]
    split
    · exact .refl _
    · split
      · exact ih p live
      · split
        · refine Keyed.ExtendedBy.trans ?_ (ih _ _)
          exact (spares_sleeveRow bar_not_mem_sleeveDataset hne _).trans
            (spares_logPredictions hp _ _)
        · exact ih p live

theorem spares_openPhase (hne : sleeveDataset ≠ dataset) (hp : predictionDataset ≠ dataset)
    {p' : SleevePass} (h : openPhase D settings watchlist asOf p b live = .ok p') :
    Spares D dataset p.store p'.store := by
  unfold openPhase at h
  cases hevents : detectNewsEvents D p.store asOf watchlist settings.newsSleeveCountSurge
      settings.newsSleeveToneMin settings.newsSleeveBaselineDays with
  | error err =>
    rw [hevents] at h
    cases h
  | ok events =>
    rw [hevents] at h
    cases h
    exact spares_openLoop hne hp _ p live

end NewsSleeve

namespace InsiderSleeve

variable {p : SleevePass} {prices : Dict String ℚ} {universeNames : List String} {gate : Gate}

theorem spares_closeStep (hne : sleeveDataset ≠ dataset) (p : SleevePass)
    (a : String × InsiderSleevePosition) :
    Spares D dataset p.store (closeStep D settings prices asOf p a).store :=
  spares_closeWith (fun s _ ↦ spares_sleeveRow bar_not_mem_sleeveDataset hne s) p a

theorem spares_openStep (hne : sleeveDataset ≠ dataset) (hp : predictionDataset ≠ dataset)
    (p : SleevePass) (e : SleeveEntry) :
    Spares D dataset p.store (openStep D settings prices asOf p e).store := by
  unfold openStep
  split
  · exact .refl _
  · exact (spares_sleeveRow bar_not_mem_sleeveDataset hne _).trans (spares_logPredictions hp _ _)

theorem spares_decidePass (hne : sleeveDataset ≠ dataset) (hp : predictionDataset ≠ dataset)
    (h : decidePass D settings s universeNames gate asOf = .ok (p, prices)) :
    Spares D dataset s p.store := by
  unfold decidePass at h
  cases hactive : activeInsiderPositions s asOf with
  | error err =>
    simp only [hactive, bind, Except.bind] at h
    cases h
  | ok active =>
    cases hprices : latestPrices s asOf (universeNames ++ active.keys) with
    | error err =>
      simp only [hactive, hprices, bind, Except.bind] at h
      cases h
    | ok prices =>
      simp only [hactive, hprices, bind, Except.bind, pure, Except.pure, Except.ok.injEq,
        Prod.mk.injEq] at h
      obtain ⟨rfl, -⟩ := h
      exact (spares_foldl (spares_closeStep hne) active.toList { store := s }).trans
        (spares_foldl (spares_openStep hne hp) _ _)

end InsiderSleeve

/-! ### What the passes file -/

section Passes

variable (hD : Function.Injective D.uuid5)

/-- Rows of feeds, none of them of the trail. -/
def OffTrail (rows : List Observation) : Prop :=
  ∀ o ∈ rows, '|' ∉ o.source.toList ∧ '|' ∉ o.dataset.toList ∧ o.dataset ≠ executionDataset

include hD

theorem files_call {engine : ExecutionEngine} {w' : World β} {target prices : Dict String ℚ}
    (h : Files D s [] w'.store) :
    Files D s ((some ⟨engine, w', target, prices, asOf⟩ : Option (EngineCall β)).toList.flatMap
      (rebalanceAnswers B)) (rebalance D B engine w' target prices asOf).world.store := by
  rw [Option.toList_some, List.flatMap_singleton]
  exact h.trans (files_rebalance hD ⟨engine, w', target, prices, asOf⟩)

theorem files_sleeveCall (engine : ExecutionEngine) {p : SleevePass} (prices : Dict String ℚ)
    (h : Spares D executionDataset s p.store) :
    Files D s ((sleeveCall engine w p prices asOf).toList.flatMap (rebalanceAnswers B))
      (executePass D B engine w p prices asOf).2.store := by
  have hp : Files D s [] p.store := Files.of_spares hD h
  unfold executePass sleeveCall
  dsimp only
  split
  · exact hp
  · exact files_call hD hp

theorem files_newsCall {fetched : List Observation} (hf : OffTrail fetched)
    (watchlist : List String) (limits : Option RiskLimits) :
    Files D w.store
      ((newsCall D settings w fetched watchlist limits asOf).toList.flatMap (rebalanceAnswers B))
      (NewsSleeve.runNewsSleeveCycle D B settings w fetched watchlist limits asOf).2.store := by
  have hreceived : Spares D executionDataset w.store (NewsSleeve.received D w.store fetched) := by
    unfold NewsSleeve.received
    split
    · exact .refl _
    · exact spares_ingest hf w.store
  unfold newsCall
  split
  · next hc =>
    rw [NewsSleeve.run_of_close_error hc]
    exact Files.of_spares hD hreceived
  · next hc =>
    have hclosed := hreceived.trans (NewsSleeve.spares_closePhase (by decide) hc)
    split
    · next ho =>
      rw [NewsSleeve.run_of_open_error limits hc ho]
      exact Files.of_spares hD hclosed
    · next ho =>
      rw [NewsSleeve.run_of_opened limits hc ho]
      exact files_sleeveCall hD _ _
        (hclosed.trans (NewsSleeve.spares_openPhase (by decide) (by decide) ho))

theorem files_insiderCall (universeNames : List String) (gate : Gate) :
    Files D w.store
      ((insiderCall D settings w universeNames gate asOf).toList.flatMap (rebalanceAnswers B))
      (InsiderSleeve.runInsiderSleeveCycle D B settings w universeNames gate asOf).2.store := by
  unfold InsiderSleeve.runInsiderSleeveCycle insiderCall
  cases hdecide : InsiderSleeve.decidePass D settings w.store universeNames gate asOf with
  | error err => exact Files.refl _
  | ok decision =>
    exact files_sleeveCall hD _ _
      (InsiderSleeve.spares_decidePass (by decide) (by decide) hdecide)

theorem files_paperCall (options : CycleOptions) (symbols : List String) (prices : Dict String ℚ) :
    Files D w.store
      ((paperCall N D B settings options w asOf symbols prices).toList.flatMap
        (rebalanceAnswers B))
      (runPaperCycle N D B settings options w asOf symbols prices).2.store := by
  unfold runPaperCycle paperCall
  dsimp only
  generalize (if options.cancelStaleOrders then cancelStale B options.reserved w.broker
    else w.broker) = b
  cases rankUniverse N options w.store asOf symbols with
  | error e => exact Files.refl _
  | ok ranking =>
    dsimp only
    have hlog : Files D w.store [] (if options.predictionLog ∧ !ranking.1.isEmpty then
        logCyclePredictions D w.store ranking.2 ranking.1 asOf options.modelVersion
          options.predictionHorizon else w.store) := by
      split
      · exact Files.of_spares hD (spares_logCyclePredictions (by decide) _ _ _ _ _ _)
      · exact Files.refl _
    generalize (if options.predictionLog ∧ !ranking.1.isEmpty then _ else w.store) = store at hlog ⊢
    cases targetBook N settings options (options.limits.getD (limitsFromSettings settings)) store asOf
        ranking.1 ranking.2 ((B.getPositions b).filter (·.symbol ∉ options.reserved)) prices with
    | error e => exact hlog
    | ok target =>
      dsimp only
      split
      · exact hlog
      · split <;> exact files_call hD hlog

theorem files_intradayCall {inputs : IntradayInputs} (hf : OffTrail inputs.bars) :
    Files D w.store
      ((intradayCall N D B settings inputs w asOf).toList.flatMap (rebalanceAnswers B))
      (runIntradayCycle N D B settings inputs w asOf).2.store := by
  have hw : Files D w.store [] (ingest D w.store inputs.bars) :=
    Files.of_spares hD (spares_ingest hf w.store)
  unfold runIntradayCycle intradayCall
  cases (if inputs.injected then none else liveGate settings : Option CycleError) with
  | some e => exact Files.refl _
  | none =>
    dsimp only
    cases Intraday.latestPrices (ingest D w.store inputs.bars) asOf with
    | error e => exact hw
    | ok prices => exact hw.trans (files_paperCall hD _ _ _)

theorem files_liveCalls {inputs : LiveInputs} (hb : OffTrail inputs.bars)
    (hf : OffTrail inputs.filings) (hn : OffTrail inputs.news) :
    Files D w.store ((liveCalls N D B settings inputs w asOf).flatMap (rebalanceAnswers B))
      (runLivePaperCycle N D B settings inputs w asOf).2.store := by
  have hbars : Spares D executionDataset w.store (ingest D w.store inputs.bars) :=
    spares_ingest hb w.store
  have hflows : Spares D executionDataset w.store
      (ingestFlows D settings inputs (ingest D w.store inputs.bars)) := by
    unfold ingestFlows
    dsimp only
    split <;> split
    · exact (hbars.trans (spares_ingest hf _)).trans (spares_ingest hn _)
    · exact hbars.trans (spares_ingest hn _)
    · exact hbars.trans (spares_ingest hf _)
    · exact hbars
  unfold runLivePaperCycle liveCalls
  cases liveGate settings with
  | some e => exact Files.refl _
  | none =>
    dsimp only
    cases closePrices (ingest D w.store inputs.bars) asOf inputs.watchlist with
    | error e => exact Files.of_spares hD hbars
    | ok prices =>
      dsimp only
      cases bookInputs settings inputs
          (ingestFlows D settings inputs (ingest D w.store inputs.bars)) asOf with
      | error e => exact Files.of_spares hD hflows
      | ok bookInputs =>
        obtain ⟨scoreFn, reserved⟩ := bookInputs
        dsimp only
        rw [List.flatMap_append]
        let w₂ : World β :=
          { w with store := ingestFlows D settings inputs (ingest D w.store inputs.bars) }
        let options := liveOptions settings inputs scoreFn reserved
        have hbook : Files D w.store
            ((paperCall N D B settings options w₂ asOf inputs.watchlist prices).toList.flatMap
              (rebalanceAnswers B))
            (runPaperCycle N D B settings options w₂ asOf inputs.watchlist prices).2.store :=
          (Files.of_spares hD hflows).trans
            (files_paperCall (w := w₂) hD options inputs.watchlist prices)
        rcases hrun : runPaperCycle N D B settings options w₂ asOf inputs.watchlist prices with
          ⟨result, w₃⟩
        rw [hrun] at hbook
        cases result with
        | error e => simpa using hbook
        | ok result =>
          refine hbook.trans ?_
          dsimp only
          split
          · exact files_insiderCall hD _ _
          · exact Files.refl _

end Passes

/-! ### A whole run -/

/-- A turn, or a pass of the insider sleeve outside the daily cycle. -/
inductive Visit
  | turn (t : Turn)
  | insider (asOf : Datetime) (universeNames : List String) (gate : Gate)

namespace Visit

def OffTrail : Visit → Prop
  | .turn (.daily _ inputs) => Runtime.OffTrail inputs.bars ∧ Runtime.OffTrail inputs.filings ∧
      Runtime.OffTrail inputs.news
  | .turn (.intraday _ inputs) => Runtime.OffTrail inputs.bars
  | .turn (.news _ fetched _ _) => Runtime.OffTrail fetched
  | .turn (.halt ..) | .turn (.quote ..) | .insider .. => True

section Run

variable (N D B quote settings)

def step (w : World β) : Visit → World β
  | .turn t => t.step N D B quote settings w
  | .insider asOf universeNames gate =>
    (InsiderSleeve.runInsiderSleeveCycle D B settings w universeNames gate asOf).2

def requests (w : World β) : Visit → List (Request β)
  | .turn t => t.requests N D B settings w
  | .insider asOf universeNames gate =>
    (insiderCall D settings w universeNames gate asOf).toList.map .rebalance

def allRequests : World β → List Visit → List (Request β)
  | _, [] => []
  | w, v :: visits =>
    requests N D B settings w v ++ allRequests (step N D B quote settings w v) visits

def answered (w : World β) : Visit → List Answered
  | .turn (.daily asOf inputs) =>
    (liveCalls N D B settings inputs w asOf).flatMap (rebalanceAnswers B)
  | .turn (.intraday asOf inputs) =>
    (intradayCall N D B settings inputs w asOf).toList.flatMap (rebalanceAnswers B)
  | .turn (.news asOf fetched watchlist limits) =>
    (newsCall D settings w fetched watchlist limits asOf).toList.flatMap (rebalanceAnswers B)
  | .turn (.halt asOf engine) => haltAnswers B engine w asOf
  | .turn (.quote ..) => []
  | .insider asOf universeNames gate =>
    (insiderCall D settings w universeNames gate asOf).toList.flatMap (rebalanceAnswers B)

/-- All orders of a run that the broker answers. -/
def allAnswered : World β → List Visit → List Answered
  | _, [] => []
  | w, v :: visits =>
    answered N D B settings w v ++ allAnswered (step N D B quote settings w v) visits

end Run

theorem files_step (hD : Function.Injective D.uuid5) {v : Visit} (hv : v.OffTrail) :
    Files D w.store (answered N D B settings w v) (step N D B quote settings w v).store := by
  cases v with
  | turn t =>
    cases t with
    | daily asOf inputs => exact files_liveCalls hD hv.1 hv.2.1 hv.2.2
    | intraday asOf inputs => exact files_intradayCall hD hv
    | news asOf fetched watchlist limits => exact files_newsCall hD hv watchlist limits
    | halt asOf engine => exact files_haltAndFlatten hD engine w asOf
    | quote symbol price => exact Files.refl _
  | insider asOf universeNames gate => exact files_insiderCall hD universeNames gate

theorem files_run (hD : Function.Injective D.uuid5) {visits : List Visit}
    (hv : ∀ v ∈ visits, v.OffTrail) :
    Files D w.store (allAnswered N D B quote settings w visits)
      (run (step N D B quote settings) w visits).store := by
  induction visits generalizing w with
  | nil => exact Files.refl _
  | cons v visits ih =>
    exact (files_step hD (hv v List.mem_cons_self)).trans
      (ih fun v hm ↦ hv v (List.mem_cons_of_mem _ hm))

end Visit

/-! ### The ids of what is answered -/

theorem answers_sublist (b : β) (orders : List Order) :
    ((answers B b orders).map Prod.fst).Sublist orders := by
  induction orders generalizing b with
  | nil => exact .slnil
  | cons o orders ih =>
    rw [answers]
    split
    · exact (ih _).cons_cons o
    · exact (ih _).cons o

theorem answered_sublist (e : ExecutionEngine) (flatten : Bool) (b : β) (orders : List Order) :
    ((answered B e asOf flatten b orders).map Answered.order).Sublist orders := by
  unfold answered
  rw [List.map_map]
  exact answers_sublist b orders

theorem rebalanceAnswers_sublist (calls : List (EngineCall β)) :
    ((calls.flatMap (rebalanceAnswers B)).map Answered.order).Sublist
      ((calls.map Request.rebalance).flatMap (Request.built B)) := by
  induction calls with
  | nil => exact .slnil
  | cons c calls ih =>
    rw [List.flatMap_cons, List.map_append, List.map_cons, List.flatMap_cons]
    exact ((answered_sublist _ _ _ _).trans (sentOrders_sublist c)).append ih

namespace Visit

theorem answered_sublist (v : Visit) :
    ((answered N D B settings w v).map Answered.order).Sublist
      ((requests N D B settings w v).flatMap (Request.built B)) := by
  cases v with
  | turn t =>
    cases t with
    | daily asOf inputs => exact rebalanceAnswers_sublist _
    | intraday asOf inputs => exact rebalanceAnswers_sublist _
    | news asOf fetched watchlist limits => exact rebalanceAnswers_sublist _
    | halt asOf engine =>
      simp only [requests, Turn.requests, List.flatMap_singleton]
      exact Runtime.answered_sublist _ _ _ _
    | quote symbol price => exact .slnil
  | insider asOf universeNames gate => exact rebalanceAnswers_sublist _

theorem allAnswered_sublist (w : World β) (visits : List Visit) :
    ((allAnswered N D B quote settings w visits).map Answered.order).Sublist
      ((allRequests N D B quote settings w visits).flatMap (Request.built B)) := by
  induction visits generalizing w with
  | nil => exact .slnil
  | cons v visits ih =>
    rw [allAnswered, allRequests, List.map_append, List.flatMap_append]
    exact (answered_sublist v).append (ih _)

end Visit

theorem bar_not_mem_orderId (r : Request β) {name : String} (h : '|' ∉ name.toList) :
    '|' ∉ (r.orderId name).toList := by
  have hcompact : '|' ∉ r.asOf.compact.toList := by
    simp [Datetime.compact, twoDigits, Datetime.bar_not_mem_yearDigits, Datetime.bar_ne_digit]
  have hflat : '|' ∉ (if r.isFlatten then "flat-".toList else []) := by
    split <;> decide
  rw [r.toList_orderId, List.mem_append, not_or]
  exact ⟨hflat, by simp [hcompact, h]⟩

/-- The ids of what is answered are different, if what is asked within one second is about
different names. -/
theorem Visit.distinct {visits : List Visit}
    (hs : Spread B (allRequests N D B quote settings w visits))
    (hbar : ∀ r ∈ allRequests N D B quote settings w visits, ∀ name ∈ r.names B,
      '|' ∉ name.toList) : Distinct (allAnswered N D B quote settings w visits) := by
  have hsub : ((allAnswered N D B quote settings w visits).map Answered.order).Sublist
      ((allRequests N D B quote settings w visits).flatMap (Request.built B)) :=
    allAnswered_sublist w visits
  have hids : (allAnswered N D B quote settings w visits).map (·.order.clientOrderId) =
      ((allAnswered N D B quote settings w visits).map Answered.order).map Order.clientOrderId := by
    rw [List.map_map]
    rfl
  constructor
  · rw [hids]
    exact ((nodup_ids_iff_spread _).mpr hs).sublist (hsub.map _)
  · intro a ha
    obtain ⟨r, hr, hm⟩ := List.mem_flatMap.mp (hsub.subset (List.mem_map_of_mem ha))
    obtain ⟨name, hname, he⟩ := List.mem_map.mp (r.ids_perm.mem_iff.mp (List.mem_map_of_mem hm))
    rw [← he]
    exact bar_not_mem_orderId r (hbar r hr name hname)

/-- Over a run whose orders have different ids, the trail is complete if and only if the engines
that audit are those whose orders the broker takes. -/
theorem audit_complete_iff (N : Numerics) {D : Digests} (hD : Function.Injective D.uuid5)
    (B : Broker β) (quote : β → String → ℚ → β) (settings : Settings) {w : World β}
    (hi : Identified D w.store) (hnew : ∀ o ∈ w.store.toList, o.dataset ≠ executionDataset)
    {visits : List Visit} (hv : ∀ v ∈ visits, v.OffTrail) {k : Datetime}
    (hk : ∀ a ∈ Visit.allAnswered N D B quote settings w visits, a.asOf ≤ k)
    (hs : Spread B (Visit.allRequests N D B quote settings w visits))
    (hbar : ∀ r ∈ Visit.allRequests N D B quote settings w visits, ∀ name ∈ r.names B,
      '|' ∉ name.toList) :
    Complete (Visit.allAnswered N D B quote settings w visits) k
        (run (Visit.step N D B quote settings) w visits).store ↔
      ∀ a ∈ Visit.allAnswered N D B quote settings w visits,
        a.audited ↔ a.answer.status ≠ .rejected := by
  have hdis := Visit.distinct hs hbar
  have hstart : Trail D [] w.store := ⟨hi, fun o ho hd ↦ absurd hd (hnew o ho), by simp⟩
  exact (Visit.files_run hD hv [] hdis hstart).complete_iff hdis hk

/-- The settings of the day on which the book buys, without the sleeve. -/
def noSleeve : Settings := { oneSleeve 1 with insiderSleeveEnabled := false }

theorem audit_complete_book :
    let start := opened (.ofList [("A", 100)]) 1000 .empty .empty
    let answered := Visit.allAnswered .plain .plain watchedBroker WatchedBroker.setPrice noSleeve
      start [.turn (.daily 0 bookOnInsiders)]
    answered ≠ [] ∧ Complete answered 0
      (run (Visit.step .plain .plain watchedBroker WatchedBroker.setPrice noSleeve) start
        [.turn (.daily 0 bookOnInsiders)]).store := by
  intro start answered
  have hnone : answered ≠ [] := by decide +kernel
  have hv : ∀ v ∈ [Visit.turn (.daily 0 bookOnInsiders)], v.OffTrail := by
    intro v hv
    rw [List.mem_singleton.mp hv]
    refine ⟨?_, ?_, ?_⟩ <;> unfold OffTrail <;> decide
  have hids : (((Visit.allRequests .plain .plain watchedBroker WatchedBroker.setPrice noSleeve start
      [.turn (.daily 0 bookOnInsiders)]).flatMap (Request.built watchedBroker)).map
        Order.clientOrderId).Nodup := by decide +kernel
  have hbar : ∀ r ∈ Visit.allRequests .plain .plain watchedBroker WatchedBroker.setPrice noSleeve
      start [.turn (.daily 0 bookOnInsiders)], ∀ name ∈ r.names watchedBroker,
      '|' ∉ name.toList := by decide +kernel
  have htaken : ∀ a ∈ answered, a.audited ↔ a.answer.status ≠ .rejected := by decide +kernel
  have hk : ∀ a ∈ answered, a.asOf ≤ 0 := by decide +kernel
  exact ⟨hnone, (audit_complete_iff .plain Digests.plain_uuid5_injective watchedBroker
    WatchedBroker.setPrice noSleeve (by simp [start, opened, Identified])
    (by simp [start, opened]) hv hk ((nodup_ids_iff_spread _).mp hids) hbar).mpr htaken⟩

/-- The broker fills the order of the insider sleeve, and no row of the trail is about it. -/
theorem sleeve_order_unaudited :
    ¬∀ visits : List Visit,
      let start := opened (.ofList [("A", 100)]) 1000 .empty .empty
      Complete (Visit.allAnswered .plain .plain watchedBroker WatchedBroker.setPrice (oneSleeve 1)
          start visits) 0
        (run (Visit.step .plain .plain watchedBroker WatchedBroker.setPrice (oneSleeve 1)) start
          visits).store := by
  intro h
  have hunaudited : (Visit.allAnswered .plain .plain watchedBroker WatchedBroker.setPrice
      (oneSleeve 1) (opened (.ofList [("A", 100)]) 1000 .empty .empty)
      [.turn (.daily 0 clusterDay)]).any (fun a ↦ a.answer.status ≠ .rejected ∧
        (loadExecutionAudit (run (Visit.step .plain .plain watchedBroker WatchedBroker.setPrice
          (oneSleeve 1)) (opened (.ofList [("A", 100)]) 1000 .empty .empty)
          [.turn (.daily 0 clusterDay)]).store 0).filter
          (·.get? "client_order_id" = some (.str a.order.clientOrderId)) = []) := by
    decide +kernel
  obtain ⟨a, ha, hnone⟩ := List.any_eq_true.mp hunaudited
  obtain ⟨htaken, hempty⟩ := of_decide_eq_true hnone
  obtain ⟨o, ho, -⟩ := (h [.turn (.daily 0 clusterDay)]).recorded a ha htaken
  rw [hempty] at ho
  cases ho

end MarketTrader.Runtime
