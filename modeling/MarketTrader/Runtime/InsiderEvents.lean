import MarketTrader.Library.Rounding
import MarketTrader.Memory.EventStudy
import MarketTrader.Memory.Taxonomy

namespace MarketTrader.Runtime

open Library MarketTrader.Core Storage Memory

structure SleeveEntry where
  symbol : String
  knowledgeTime : Datetime
  exitBy : Datetime
  nBuys : ℚ
  expectedCar : ℚ

/-- The event types that have cleared the event-study gate. -/
abbrev Gate := Dict EventType EventOutcomeDistribution

/-- A cluster that is not held and became knowable within the last `freshnessDays` whole days. -/
def eligibleCluster (asOf : Datetime) (freshnessDays : ℤ) (held : List String) (e : Event) : Bool :=
  e.entityId ∉ held ∧ Timedelta.days (asOf - e.knowledgeTime) ≤ freshnessDays

/-- Fresh, gated clusters, newest first, at most `maxNames` of them. -/
def insiderClusterEntries (store : InMemoryBitemporalStore) (asOf : Datetime) (gate : Gate)
    (holdDays maxNames freshnessDays : ℤ) (held : List String) : List SleeveEntry :=
  match Dict.get? gate .insiderClusterBuy with
  | none => []
  | some dist =>
    if dist.meanCar ≤ 0 then []
    else
      let clusters := (detectEvents store asOf 3 30).filter (·.eventType = .insiderClusterBuy)
      let fresh := (sortBy (fun e : Event ↦ OrderDual.toDual e.knowledgeTime) clusters).filter
        (eligibleCluster asOf freshnessDays held)
      (fresh.map (fun e ↦
        { symbol := e.entityId
          knowledgeTime := e.knowledgeTime
          exitBy := asOf + Timedelta.ofDays holdDays
          nBuys := truncate (((Dict.get? e.payload "n_buys").bind Value.float?).getD 0)
          expectedCar := dist.meanCar })).take (max 1 maxNames).toNat

theorem filter_cluster_detectEvents (store : InMemoryBitemporalStore) (asOf : Datetime)
    (n : ℕ) (days : ℤ) : (((detectEvents store asOf n days).filter
      (·.eventType = .insiderClusterBuy)).map Event.entityId).Nodup := by
  have hcluster : ∀ (id : String) (obs : List Observation) (e : Event),
      insiderCluster n id obs = some e → e.eventType = .insiderClusterBuy ∧ e.entityId = id := by
    intro id obs e h
    unfold insiderCluster at h
    split at h
    · split at h <;> cases h
      exact ⟨rfl, rfl⟩
    · cases h
  have hcongress : ∀ rows : List Observation,
      (rows.filterMap congressTrade).filter (·.eventType = .insiderClusterBuy) = [] := by
    intro rows
    rw [List.filter_eq_nil_iff]
    intro e he
    obtain ⟨o, -, ho⟩ := List.mem_filterMap.mp he
    unfold congressTrade at ho
    split at ho <;> cases ho
    simp
  unfold detectEvents
  dsimp only
  rw [List.filter_append, hcongress, List.append_nil, List.filter_eq_self.mpr]
  · exact Dict.nodup_filterMap (fun a e h ↦ (hcluster a.1 a.2 e h).2) _
  · intro e he
    obtain ⟨a, -, ha⟩ := List.mem_filterMap.mp he
    simpa using (hcluster a.1 a.2 e ha).1

theorem nodup_insiderClusterEntries (store : InMemoryBitemporalStore) (asOf : Datetime)
    (gate : Gate) (holdDays maxNames freshnessDays : ℤ) (held : List String) :
    ((insiderClusterEntries store asOf gate holdDays maxNames freshnessDays held).map
      SleeveEntry.symbol).Nodup := by
  unfold insiderClusterEntries
  split
  · simp
  · split
    · simp
    · simp only [List.map_take, List.map_map, Function.comp_def]
      refine List.Nodup.sublist (List.take_sublist _ _) ?_
      refine List.Nodup.sublist (List.filter_sublist.map _) ?_
      exact ((sortBy_perm _ _).map _).nodup_iff.mpr (filter_cluster_detectEvents store asOf 3 30)

theorem length_insiderClusterEntries (store : InMemoryBitemporalStore) (asOf : Datetime)
    (gate : Gate) (holdDays maxNames freshnessDays : ℤ) (held : List String) :
    (insiderClusterEntries store asOf gate holdDays maxNames freshnessDays held).length ≤
      (max 1 maxNames).toNat := by
  unfold insiderClusterEntries
  split
  · exact Nat.zero_le _
  · split
    · exact Nat.zero_le _
    · exact List.length_take_le _ _

theorem not_mem_held_of_mem_entries {store : InMemoryBitemporalStore} {asOf : Datetime}
    {gate : Gate} {holdDays maxNames freshnessDays : ℤ} {held : List String} {e : SleeveEntry}
    (h : e ∈ insiderClusterEntries store asOf gate holdDays maxNames freshnessDays held) :
    e.symbol ∉ held := by
  unfold insiderClusterEntries at h
  split at h
  · cases h
  · split at h
    · cases h
    · obtain ⟨ev, hev, rfl⟩ := List.mem_map.mp (List.mem_of_mem_take h)
      exact (of_decide_eq_true (List.mem_filter.mp hev).2).1

end MarketTrader.Runtime
