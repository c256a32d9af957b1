import MarketTrader.Portfolio.Caps
import MarketTrader.Runtime.Spares

namespace MarketTrader.Runtime

open Library MarketTrader.Core Storage InMemoryBitemporalStore Config Portfolio Execution Features

variable {β : Type} {N : Numerics} {D : Digests} {B : Broker β} {settings : Settings}

theorem gross_empty : grossOf (.empty : Weights) = 0 := rfl

/-- Every book goes through the risk limits, or holds nothing. -/
theorem gross_targetBook {options : CycleOptions} {limits : RiskLimits}
    {store : InMemoryBitemporalStore} {asOf : Datetime} {matrix : FeatureMatrix}
    {ranked : List (String × ℚ)} {positions : List Position} {prices : Dict String ℚ}
    {target : Weights}
    (h : targetBook N settings options limits store asOf matrix ranked positions prices =
      .ok target) : grossOf target ≤ max |limits.maxGrossExposure| (-limits.maxNetExposure) := by
  have hempty : grossOf (.empty : Weights) ≤
      max |limits.maxGrossExposure| (-limits.maxNetExposure) :=
    le_max_of_le_left (abs_nonneg limits.maxGrossExposure)
  unfold targetBook at h
  split at h
  · cases h
  · dsimp only at h
    split at h
    · cases h
      exact hempty
    · split at h
      · unfold chassisBook at h
        dsimp only at h
        split at h
        · cases h
        · cases h
          exact hempty
        · split at h
          · cases h
            exact hempty
          · cases h
            unfold sizeBook
            dsimp only
            split
            · exact hempty
            · exact gross_applyRiskLimits limits _
      · unfold winnersBook at h
        dsimp only at h
        split at h
        · split at h
          · cases h
          · cases h
            exact gross_applyRiskLimits limits _
          · cases h
            exact gross_applyRiskLimits limits _
        · cases h
          exact gross_applyRiskLimits limits _

theorem gross_runPaperCycle {options : CycleOptions} {w : World β} {asOf : Datetime}
    {symbols : List String} {prices : Dict String ℚ} {result : CycleResult}
    (h : (runPaperCycle N D B settings options w asOf symbols prices).1 = .ok result) :
    let limits := options.limits.getD (limitsFromSettings settings)
    grossOf result.targetWeights ≤ max |limits.maxGrossExposure| (-limits.maxNetExposure) := by
  intro limits
  unfold runPaperCycle at h
  dsimp only at h
  generalize (if options.cancelStaleOrders then cancelStale B options.reserved w.broker
    else w.broker) = b at h
  split at h
  · cases h
  · split at h
    · cases h
    · next target ht =>
      have hgross : grossOf target ≤ max |limits.maxGrossExposure| (-limits.maxNetExposure) :=
        gross_targetBook ht
      split at h
      · cases h
        exact hgross
      · split at h
        · cases h
        · cases h
          exact hgross

/-- What is left to the book of the gross that is allowed. -/
def dailyGross (settings : Settings) : ℚ :=
  settings.maxGrossExposure * (1 - sleeveBudget settings)

theorem dailyLimits_eq (h : 0 ≤ sleeveBudget settings) :
    let limits := (dailyLimits settings).getD (limitsFromSettings settings)
    limits.maxGrossExposure = dailyGross settings ∧
      limits.maxNetExposure = settings.maxNetExposure := by
  unfold dailyLimits dailyGross
  split
  · exact ⟨rfl, rfl⟩
  · next hb =>
    have hzero : sleeveBudget settings = 0 := le_antisymm (not_lt.mp hb) h
    rw [hzero, sub_zero, mul_one]
    exact ⟨rfl, rfl⟩

theorem gross_live {inputs : LiveInputs} {w : World β} {asOf : Datetime} {result : CycleResult}
    (hb : 0 ≤ sleeveBudget settings)
    (h : (runLivePaperCycle N D B settings inputs w asOf).1 = .ok result) :
    grossOf result.targetWeights ≤ max |dailyGross settings| (-settings.maxNetExposure) := by
  obtain ⟨hg, hn⟩ := dailyLimits_eq hb
  unfold runLivePaperCycle at h
  dsimp only at h
  split at h
  · cases h
  · split at h
    · cases h
    · split at h
      · cases h
      · split at h
        · cases h
        · next result' w' hrun =>
          obtain rfl : result' = result := Except.ok.inj h
          have hgross := gross_runPaperCycle (congrArg Prod.fst hrun)
          dsimp only [liveOptions] at hgross
          rw [hg, hn] at hgross
          exact hgross

def ingested (D : Digests) (settings : Settings) (inputs : LiveInputs)
    (store : InMemoryBitemporalStore) : InMemoryBitemporalStore :=
  ingestFlows D settings inputs (ingest D store inputs.bars)

/-- A daily cycle stops on its way, or it ends with the pass of the insider sleeve. -/
theorem live_store_cases (N : Numerics) (D : Digests) (B : Broker β) (settings : Settings)
    (inputs : LiveInputs) (w : World β) (asOf : Datetime) :
    let out := (runLivePaperCycle N D B settings inputs w asOf).2
    (∃ s, (s = w.store ∨ s = ingest D w.store inputs.bars ∨
        s = ingested D settings inputs w.store) ∧
        ∀ dataset, dataset ∉ bookDatasets → Spares D dataset s out.store) ∨
      settings.insiderSleeveEnabled ∧ ∃ w', (∀ dataset, dataset ∉ bookDatasets →
        Spares D dataset (ingested D settings inputs w.store) w'.store) ∧
        out = (InsiderSleeve.runInsiderSleeveCycle D B settings w' inputs.insiderUniverse
          inputs.gate asOf).2 := by
  intro out
  have hout : out = (runLivePaperCycle N D B settings inputs w asOf).2 := rfl
  unfold runLivePaperCycle at hout
  dsimp only at hout
  split at hout
  · rw [hout]
    exact .inl ⟨_, .inl rfl, fun _ _ ↦ .refl _⟩
  · split at hout
    · rw [hout]
      exact .inl ⟨_, .inr (.inl rfl), fun _ _ ↦ .refl _⟩
    · next prices _ =>
      split at hout
      · rw [hout]
        exact .inl ⟨_, .inr (.inr rfl), fun _ _ ↦ .refl _⟩
      · next scoreFn reserved _ =>
        have hbook := fun dataset (hd : dataset ∉ bookDatasets) ↦ spares_runPaperCycle (D := D) hd
          N B settings (liveOptions settings inputs scoreFn reserved)
          { w with store := ingestFlows D settings inputs (ingest D w.store inputs.bars) } asOf
          inputs.watchlist prices
        split at hout
        · next hrun =>
          rw [hrun] at hbook
          rw [hout]
          exact .inl ⟨_, .inr (.inr rfl), hbook⟩
        · next w' hrun =>
          rw [hrun] at hbook
          cases henabled : settings.insiderSleeveEnabled with
          | false =>
            rw [hout, henabled]
            exact .inl ⟨_, .inr (.inr rfl), hbook⟩
          | true =>
            rw [henabled] at hout
            exact .inr ⟨rfl, w', hbook, hout⟩

section Ingested

variable {inputs : LiveInputs} {dataset : String}

def LiveInputs.Collected (inputs : LiveInputs) : Prop :=
  Runtime.Collected inputs.bars ∧ Runtime.Collected inputs.filings ∧ Runtime.Collected inputs.news

theorem Collected.spares {rows : List Observation} (hr : Collected rows)
    (hd : dataset ∈ [NewsSleeve.sleeveDataset, InsiderSleeve.sleeveDataset])
    (s : InMemoryBitemporalStore) : Spares D dataset s (ingest D s rows) := by
  apply spares_ingest
  intro o ho
  obtain ⟨hs, hb, hn, hi⟩ := hr o ho
  refine ⟨hs, hb, ?_⟩
  rcases List.mem_pair.mp hd with rfl | rfl
  · exact hn
  · exact hi

theorem spares_ingested (hin : inputs.Collected)
    (hd : dataset ∈ [NewsSleeve.sleeveDataset, InsiderSleeve.sleeveDataset])
    (s : InMemoryBitemporalStore) : Spares D dataset s (ingested D settings inputs s) := by
  have hbars : Spares D dataset s (ingest D s inputs.bars) := hin.1.spares hd s
  unfold ingested ingestFlows
  dsimp only
  split
  · split
    · exact (hbars.trans (hin.2.1.spares hd _)).trans (hin.2.2.spares hd _)
    · exact hbars.trans (hin.2.2.spares hd _)
  · split
    · exact hbars.trans (hin.2.1.spares hd _)
    · exact hbars

end Ingested

end MarketTrader.Runtime
