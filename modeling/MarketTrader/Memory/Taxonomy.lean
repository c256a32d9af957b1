import MarketTrader.Storage.Bitemporal

namespace MarketTrader.Memory

open Library MarketTrader.Core Storage InMemoryBitemporalStore

def form4Dataset : String := "filing.form4"

def congressDataset : String := "disclosure.congress_trade"

inductive EventType
  | earningsBeat
  | earningsMiss
  | cpiSurprise
  | fedSurprise
  | guidanceChange
  | mAndA
  | regulatoryAction
  | geopoliticalShock
  | insiderClusterBuy
  | leadershipCongressTrade
  | newsSentimentSpike
deriving DecidableEq

structure Event where
  eventType : EventType
  entityId : String
  eventTime : Datetime
  knowledgeTime : Datetime
  payload : Dict String Value := .empty

def groupByEntity (rows : List Observation) : Dict String (List Observation) :=
  rows.foldl (fun d o ↦ Dict.set d o.entityId (Dict.getD d o.entityId [] ++ [o])) .empty

/-- At least `clusterThreshold` disclosed purchases of one name within the window. -/
def insiderCluster (clusterThreshold : ℕ) (entityId : String) (obs : List Observation) :
    Option Event :=
  match (obs.map Observation.eventTime).max?, (obs.map Observation.knowledgeTime).max? with
  | some eventTime, some knowledgeTime =>
    if clusterThreshold ≤ obs.length then
      some
        { eventType := .insiderClusterBuy
          entityId := entityId
          eventTime := eventTime
          knowledgeTime := knowledgeTime
          payload := .ofList [("n_buys", .num obs.length)] }
    else none
  | _, _ => none

def congressTrade (o : Observation) : Option Event :=
  if ((Dict.get? o.metadata "high_signal_role").getD .null).truthy then
    some
      { eventType := .leadershipCongressTrade
        entityId := o.entityId
        eventTime := o.eventTime
        knowledgeTime := o.knowledgeTime
        payload := .ofList [("transaction_type", (o.get? "transaction_type").getD .null)] }
  else none

/-- The events knowable as of `asOf`. -/
def detectEvents (store : InMemoryBitemporalStore) (asOf : Datetime) (clusterThreshold : ℕ)
    (clusterWindowDays : ℤ) : List Event :=
  let cutoff := asOf - Timedelta.ofDays clusterWindowDays
  let purchases := groupByEntity ((store.asOf asOf { dataset := some form4Dataset }).filter
    (fun o ↦ ((o.get? "is_purchase").getD .null).truthy && decide (cutoff < o.knowledgeTime)))
  purchases.toList.filterMap (fun p ↦ insiderCluster clusterThreshold p.1 p.2) ++
    (store.asOf asOf { dataset := some congressDataset }).filterMap congressTrade

theorem get?_groupByEntity (rows : List Observation) (symbol : String) :
    Dict.get? (groupByEntity rows) symbol =
      if rows.filter (·.entityId = symbol) = [] then none
      else some (rows.filter (·.entityId = symbol)) :=
  Dict.get?_group Observation.entityId rows symbol

theorem insiderCluster_eq_some {clusterThreshold : ℕ} {symbol : String} {obs : List Observation}
    {e : Event} (h : insiderCluster clusterThreshold symbol obs = some e) :
    e.eventType = .insiderClusterBuy ∧ e.entityId = symbol ∧
      Dict.get? e.payload "n_buys" = some (.num obs.length) ∧ clusterThreshold ≤ obs.length := by
  unfold insiderCluster at h
  split at h
  · split at h
    · next hc =>
      cases h
      exact ⟨rfl, rfl, rfl, hc⟩
    · cases h
  · cases h

theorem exists_insiderCluster {clusterThreshold : ℕ} (symbol : String) {obs : List Observation}
    (hne : obs ≠ []) (hc : clusterThreshold ≤ obs.length) :
    ∃ e, insiderCluster clusterThreshold symbol obs = some e := by
  have hmax : ∀ f : Observation → Datetime, ∃ t, (obs.map f).max? = some t := fun f ↦
    Option.isSome_iff_exists.mp (List.isSome_max?_of_ne_nil (by simpa using hne))
  obtain ⟨t, ht⟩ := hmax Observation.eventTime
  obtain ⟨k, hk⟩ := hmax Observation.knowledgeTime
  unfold insiderCluster
  rw [ht, hk]
  exact ⟨_, if_pos hc⟩

variable {store : InMemoryBitemporalStore} {asOf : Datetime} {clusterThreshold n : ℕ}
  {clusterWindowDays : ℤ} {symbol : String}

/-- The disclosed purchases of a name that became known within the window. -/
def windowPurchases (store : InMemoryBitemporalStore) (asOf : Datetime) (clusterWindowDays : ℤ)
    (symbol : String) : List Observation :=
  ((store.asOf asOf { dataset := some form4Dataset }).filter (fun o ↦
    ((o.get? "is_purchase").getD .null).truthy &&
      decide (asOf - Timedelta.ofDays clusterWindowDays < o.knowledgeTime))).filter
        (·.entityId = symbol)

/-- A cluster is reported with its count exactly where there are purchases enough. -/
theorem exists_cluster_iff : (∃ e ∈ detectEvents store asOf clusterThreshold clusterWindowDays,
      e.eventType = .insiderClusterBuy ∧ e.entityId = symbol ∧
        Dict.get? e.payload "n_buys" = some (.num n)) ↔
    n = (windowPurchases store asOf clusterWindowDays symbol).length ∧
      clusterThreshold ≤ n ∧ 0 < n := by
  constructor
  · rintro ⟨e, he, ht, rfl, hn⟩
    rw [detectEvents, List.mem_append, List.mem_filterMap, List.mem_filterMap] at he
    rcases he with ⟨⟨symbol, obs⟩, hm, he⟩ | ⟨o, -, he⟩
    · obtain ⟨-, hid, hbuys, hc⟩ := insiderCluster_eq_some he
      rw [← Dict.get?_eq_some, get?_groupByEntity] at hm
      split at hm
      · cases hm
      · next hne =>
        obtain rfl := Option.some.inj hm
        rw [hbuys, Option.some.injEq, Value.num.injEq, Nat.cast_inj] at hn
        rw [hid, windowPurchases, ← hn]
        exact ⟨rfl, hc, List.length_pos_iff.mpr hne⟩
    · unfold congressTrade at he
      split at he
      · cases he
        cases ht
      · cases he
  · rintro ⟨rfl, hc, hpos⟩
    have hne := List.length_pos_iff.mp hpos
    obtain ⟨e, he⟩ := exists_insiderCluster symbol hne hc
    obtain ⟨ht, hid, hbuys, -⟩ := insiderCluster_eq_some he
    refine ⟨e, ?_, ht, hid, hbuys⟩
    rw [detectEvents, List.mem_append, List.mem_filterMap]
    refine .inl ⟨(symbol, _), ?_, he⟩
    rw [← Dict.get?_eq_some, get?_groupByEntity]
    exact if_neg hne

end MarketTrader.Memory
