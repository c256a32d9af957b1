import MarketTrader.Execution.Records
import MarketTrader.Runtime.LiveCycle
import MarketTrader.Runtime.SleevePass

namespace MarketTrader.Runtime

open Library MarketTrader.Core Storage InMemoryBitemporalStore Config Portfolio Execution Feedback

variable {β π : Type} {D : Digests} {dataset : String} {s s' : InMemoryBitemporalStore}
  {k k' : Datetime}

/-- All that was written between two stores is in other datasets. -/
abbrev Spares (D : Digests) (dataset : String) :
    InMemoryBitemporalStore → InMemoryBitemporalStore → Prop :=
  Keyed.ExtendedBy (fun r ↦ HasIdentity D r ∧ r.dataset ≠ dataset)

namespace Spares

theorem asOf_eq (hD : Function.Injective D.uuid5) (hi : Identified D s)
    (h : Spares D dataset s s') (k : Datetime) :
    asOf s' k { dataset := some dataset } = asOf s k { dataset := some dataset } := by
  obtain ⟨l, hl, rfl⟩ := h
  exact asOf_insertAll_dataset hD hi hl

theorem activePositions_eq (hD : Function.Injective D.uuid5) (hi : Identified D s)
    (h : Spares D dataset s s') (better : Observation → Observation → Bool)
    (read : Observation → Except TradingError π) (k : Datetime) :
    activePositions better read dataset s' k = activePositions better read dataset s k := by
  unfold activePositions
  rw [h.asOf_eq hD hi]

theorem mem_of_mem (h : Spares D dataset s s') {o : Observation} (ho : o ∈ s'.toList)
    (hd : o.dataset = dataset) : o ∈ s.toList :=
  (h.mem_or ho).resolve_right fun hr ↦ hr.2 hd

theorem identified (hi : Identified D s) (h : Spares D dataset s s') : Identified D s' := by
  intro o ho
  rcases h.mem_or ho with ho | ho
  · exact hi o ho
  · exact ho.1

theorem ledger {IsRow : Observation → Prop} (hl : Ledger D dataset IsRow s)
    (h : Spares D dataset s s') : Ledger D dataset IsRow s' where
  identified := h.identified hl.identified
  rows o ho hd := hl.rows o (h.mem_of_mem ho hd) hd

end Spares

/-- A reader at this time may know every row of the dataset. -/
def KnownBy (dataset : String) (s : InMemoryBitemporalStore) (now : Datetime) : Prop :=
  ∀ o ∈ s.toList, o.dataset = dataset → o.knowledgeTime ≤ now

theorem asOf_eq_of_knownBy (h : KnownBy dataset s k) (h' : KnownBy dataset s k') :
    asOf s k { dataset := some dataset } = asOf s k' { dataset := some dataset } := by
  have hrows : (visible s k).filter (·.dataset = dataset) =
      (visible s k').filter (·.dataset = dataset) := by
    simp only [visible, List.filter_filter]
    apply List.filter_congr
    intro o ho
    by_cases hd : o.dataset = dataset
    · simp [hd, h o ho hd, h' o ho hd]
    · simp [hd]
  simp only [asOf, Query.select, keepEqual, hrows]

theorem activePositions_of_knownBy (h : KnownBy dataset s k) (h' : KnownBy dataset s k')
    (better : Observation → Observation → Bool) (read : Observation → Except TradingError π) :
    activePositions better read dataset s k = activePositions better read dataset s k' := by
  unfold activePositions
  rw [asOf_eq_of_knownBy h h']

/-! ### What the cycles write -/

/-- The rows that a collector makes of what it fetched: of a dataset of its own, and without the
separator of identity keys. -/
def Collected (rows : List Observation) : Prop :=
  ∀ o ∈ rows, '|' ∉ o.source.toList ∧ '|' ∉ o.dataset.toList ∧
    o.dataset ≠ NewsSleeve.sleeveDataset ∧ o.dataset ≠ InsiderSleeve.sleeveDataset

def bookDatasets : List String := [predictionDataset, executionDataset, drawdownStateDataset]

theorem spares_ingest {rows : List Observation} (hr : ∀ o ∈ rows, '|' ∉ o.source.toList ∧
    '|' ∉ o.dataset.toList ∧ o.dataset ≠ dataset) (s : InMemoryBitemporalStore) :
    Spares D dataset s (ingest D s rows) := by
  refine ⟨_, fun r hm ↦ ?_, rfl⟩
  have hm' := (Keyed.mem_of_mem_insertAll hm).resolve_left (by simp)
  obtain ⟨o, ho', rfl⟩ := List.mem_map.mp hm'
  obtain ⟨hs, hd, hne⟩ := hr o ho'
  exact ⟨⟨rfl, hs, hd⟩, hne⟩

section Log

variable (hp : predictionDataset ≠ dataset)

include hp

theorem spares_logPredictions (records : List PredictionRecord)
    (s : InMemoryBitemporalStore) : Spares D dataset s (logPredictions D s records) := by
  refine ⟨_, fun r hm ↦ ?_, rfl⟩
  obtain ⟨rec, -, rfl⟩ := List.mem_map.mp hm
  have hs : '|' ∉ "forecast".toList := by decide
  have hd : '|' ∉ predictionDataset.toList := by decide
  exact ⟨⟨rfl, hs, hd⟩, hp⟩

theorem spares_logCyclePredictions (ranked : List (String × ℚ))
    (matrix : Features.FeatureMatrix) (asOf : Datetime) (modelVersion : String) (horizonDays : ℤ)
    (s : InMemoryBitemporalStore) : Spares D dataset s
      (logCyclePredictions D s ranked matrix asOf modelVersion horizonDays) := by
  unfold logCyclePredictions
  split
  · exact .refl s
  · exact spares_logPredictions hp _ s

end Log

theorem spares_rebalance_of_ne (he : executionDataset ≠ dataset)
    (hd : drawdownStateDataset ≠ dataset) (B : Broker β) (e : ExecutionEngine) (w : World β)
    (target prices : Dict String ℚ) (asOf : Datetime) :
    Spares D dataset w.store (rebalance D B e w target prices asOf).world.store := by
  have hs : '|' ∉ "execution".toList := by decide
  have haudit : ∀ r, e.audited ∧ IsAudit D r → HasIdentity D r ∧ r.dataset ≠ dataset := by
    rintro r ⟨-, t, symbol, event, detail, rfl⟩
    have hsep : '|' ∉ executionDataset.toList := by decide
    exact ⟨⟨rfl, hs, hsep⟩, he⟩
  by_cases hb : Blocked e
  · obtain ⟨err, hr, -⟩ := rebalance_of_blocked D B w target prices asOf hb
    rw [hr]
    exact .refl _
  · obtain ⟨-, ha, -⟩ := rebalance_of_not_blocked D B w target prices asOf hb
    have hobs : Spares D dataset w.store (w.observe D B e asOf).store := by
      simp only [World.observe, ExecutionEngine.saveDrawdownState]
      split
      · exact .refl _
      · split
        · have hsep : '|' ∉ drawdownStateDataset.toList := by decide
          exact .insert ⟨⟨rfl, hs, hsep⟩, hd⟩
        · exact .refl _
    exact hobs.trans (ha.mono haudit)

section Book

variable (ho : dataset ∉ bookDatasets)

include ho

theorem ne_of_mem_bookDatasets {d : String} (hd : d ∈ bookDatasets) : d ≠ dataset := by
  rintro rfl
  exact ho hd

theorem spares_rebalance (B : Broker β) (e : ExecutionEngine) (w : World β)
    (target prices : Dict String ℚ) (asOf : Datetime) :
    Spares D dataset w.store (rebalance D B e w target prices asOf).world.store :=
  spares_rebalance_of_ne (ne_of_mem_bookDatasets ho (by decide))
    (ne_of_mem_bookDatasets ho (by decide)) B e w target prices asOf

theorem spares_runPaperCycle (N : Numerics) (B : Broker β) (settings : Settings)
    (options : CycleOptions) (w : World β) (asOf : Datetime) (symbols : List String)
    (prices : Dict String ℚ) : Spares D dataset w.store
      (runPaperCycle N D B settings options w asOf symbols prices).2.store := by
  have hp : predictionDataset ≠ dataset := ne_of_mem_bookDatasets ho (by decide)
  unfold runPaperCycle
  dsimp only
  generalize (if options.cancelStaleOrders then cancelStale B options.reserved w.broker
    else w.broker) = b
  split
  · exact .refl _
  · next matrix ranked _ =>
    have hlog : Spares D dataset w.store
        (if options.predictionLog ∧ !matrix.isEmpty then
          logCyclePredictions D w.store ranked matrix asOf options.modelVersion
            options.predictionHorizon
        else w.store) := by
      split
      · exact spares_logCyclePredictions hp ranked matrix asOf _ _ w.store
      · exact .refl _
    split
    · exact hlog
    · split
      · exact hlog
      · split
        · exact hlog.trans (spares_rebalance ho B _ _ _ prices asOf)
        · exact hlog.trans (spares_rebalance ho B _ _ _ prices asOf)

end Book

end MarketTrader.Runtime
