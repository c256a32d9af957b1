import MarketTrader.Storage.Bitemporal

namespace MarketTrader.Storage.InMemoryBitemporalStore

open Library MarketTrader.Core

variable {s : InMemoryBitemporalStore} {k : Datetime} {o : Observation}

/-- The version of a fact that a reader at `k` should see: of the rows knowable by then, the
first of the most recent ones. -/
def latestKnown (rows : List Observation) (k : Datetime) (key : LogicalKey) : Option Observation :=
  firstMax recency (rows.filter (fun o ↦ o.knowledgeTime ≤ k ∧ o.logicalKey = key))

/-- A filter-free read is the table of the latest known versions. -/
theorem mem_asOf_all : o ∈ asOf s k {} ↔ latestKnown s.toList k o.logicalKey = some o := by
  have hf : (visible s k).filter (·.logicalKey = o.logicalKey) =
      s.toList.filter (fun p ↦ p.knowledgeTime ≤ k ∧ p.logicalKey = o.logicalKey) := by
    simp [visible, List.filter_filter, Bool.and_comm]
  rw [asOf, sortObservations, mem_sortBy, if_pos rfl]
  simp only [Query.select, keepEqual]
  rw [mem_collapse, hf, latestKnown]

theorem asOf_all_nodup (s : InMemoryBitemporalStore) (k : Datetime) :
    ((asOf s k {}).map Observation.logicalKey).Nodup :=
  ((sortBy_perm sortKey _).map _).nodup_iff.mpr (collapse_nodup _)

theorem mem_keys_asOf_all {key : LogicalKey} :
    key ∈ (asOf s k {}).map Observation.logicalKey ↔
      ∃ o ∈ s.toList, o.knowledgeTime ≤ k ∧ o.logicalKey = key := by
  have hp : ((asOf s k {}).map Observation.logicalKey).Perm
      ((collapseLatestRevisions (visible s k)).map Observation.logicalKey) :=
    (sortBy_perm sortKey _).map _
  rw [hp.mem_iff, mem_keys_collapse]
  simp only [mem_visible, and_assoc]

theorem select_dataset (rows : List Observation) (d : String) :
    ({ dataset := some d } : Query).select rows = rows.filter (·.dataset = d) := rfl

/-- Where facts are known as they happen, an earlier read is the later one cut off. -/
theorem asOf_eq_filter {d : String} (h : ∀ o ∈ s.toList, o.dataset = d →
    o.knowledgeTime = o.eventTime) {t : Datetime} (ht : t ≤ k) :
    asOf s t { dataset := some d } =
      (asOf s k { dataset := some d }).filter (·.eventTime ≤ t) := by
  have hkey : ∀ a b : Observation, a.logicalKey = b.logicalKey →
      decide (a.eventTime ≤ t) = decide (b.eventTime ≤ t) := by
    intro a b he
    rw [show a.eventTime = b.eventTime from congrArg (·.2.2.2.1) he]
  rw [filter_asOf_of_key hkey s k rfl, select_dataset, asOf, select_dataset, if_pos rfl]
  congr 2
  simp only [visible, List.filter_filter]
  apply List.filter_congr
  intro o ho
  rw [Bool.eq_iff_iff]
  simp only [Bool.and_eq_true, decide_eq_true_eq]
  constructor
  · rintro ⟨hd, hk⟩
    have hkt := h o ho hd
    exact ⟨hkt.symm.trans_le hk, hd, hk.trans ht⟩
  · rintro ⟨he, hd, -⟩
    have hkt := h o ho hd
    exact ⟨hd, hkt.trans_le he⟩

def ofUpserts (batches : List (List Observation)) : InMemoryBitemporalStore :=
  batches.foldl upsertMany .empty

theorem ofUpserts_eq (batches : List (List Observation)) :
    ofUpserts batches = Keyed.ofList batches.flatten := by
  have h : ∀ s : InMemoryBitemporalStore,
      batches.foldl upsertMany s = s.insertAll batches.flatten := by
    induction batches with
    | nil => intro s; rfl
    | cons b batches ih =>
      intro s
      rw [List.foldl_cons, ih, List.flatten_cons, Keyed.insertAll_append]
      rfl
  exact h .empty

theorem toList_ofUpserts {batches : List (List Observation)}
    (h : (batches.flatten.map Observation.observationId).Nodup) :
    (ofUpserts batches).toList = batches.flatten := by
  rw [ofUpserts_eq, Keyed.ofList, Keyed.toList_insertAll (by simpa using h), Keyed.toList_empty,
    List.nil_append]

/-- The second history is the first with further observations, all of them knowable only after
`k`, put in anywhere. -/
inductive InsertsLater (k : Datetime) : List Observation → List Observation → Prop
  | nil : InsertsLater k [] []
  | keep (o : Observation) {l l' : List Observation} :
      InsertsLater k l l' → InsertsLater k (o :: l) (o :: l')
  | later (o : Observation) {l l' : List Observation} :
      k < o.knowledgeTime → InsertsLater k l l' → InsertsLater k l (o :: l')

theorem InsertsLater.filter_eq {l l' : List Observation} (h : InsertsLater k l l') :
    l.filter (·.knowledgeTime ≤ k) = l'.filter (·.knowledgeTime ≤ k) := by
  induction h with
  | nil => rfl
  | keep o h ih => by_cases ho : o.knowledgeTime ≤ k <;> simp [ho, ih]
  | later o ho h ih => simp [not_le.mpr ho, ih]

/-- The point-in-time guarantee: one version a known fact, the most recent one knowable by then,
nothing from later, and no trace of what is learnt later. -/
theorem asOf_point_in_time (batches : List (List Observation)) (k : Datetime)
    (hid : (batches.flatten.map Observation.observationId).Nodup) :
    let read := asOf (ofUpserts batches) k {}
    (∀ key, (∃ o ∈ batches.flatten, o.knowledgeTime ≤ k ∧ o.logicalKey = key) →
      ∃! o, o ∈ read ∧ o.logicalKey = key) ∧
    (read.map Observation.logicalKey).Nodup ∧
    (∀ o ∈ read, o ∈ batches.flatten ∧ o.knowledgeTime ≤ k ∧
      ∀ o' ∈ batches.flatten, o'.knowledgeTime ≤ k → o'.logicalKey = o.logicalKey →
        recency o' ≤ recency o) ∧
    (∀ batches', InsertsLater k batches.flatten batches'.flatten →
      (batches'.flatten.map Observation.observationId).Nodup →
      asOf (ofUpserts batches') k {} = read) := by
  have hl := toList_ofUpserts hid
  have hn := asOf_all_nodup (ofUpserts batches) k
  refine ⟨fun key hkey ↦ ?_, hn, fun o ho ↦ ?_, fun batches' hb hid' ↦ ?_⟩
  · rw [← hl, ← mem_keys_asOf_all] at hkey
    obtain ⟨o, ho, hk⟩ := List.mem_map.mp hkey
    exact ⟨o, ⟨ho, hk⟩, fun o' ho' ↦ List.inj_on_of_nodup_map hn ho'.1 ho (ho'.2.trans hk.symm)⟩
  · have hm := knowledgeTime_le_of_mem_asOf ho
    rw [hl] at hm
    refine ⟨hm.1, hm.2, fun o' ho' hk' hkey ↦ ?_⟩
    rw [mem_asOf_all, hl] at ho
    exact le_of_firstMax ho (List.mem_filter.mpr ⟨ho', by simp [hk', hkey]⟩)
  · refine asOf_congr ?_ {}
    rw [visible, visible, hl, toList_ofUpserts hid', hb.filter_eq]

/-- Two revisions of one price, of which the second becomes knowable later. -/
theorem asOf_point_in_time_two_revisions :
    let bar : Observation :=
      { source := "p", dataset := "d", entityType := "e", entityId := "A", eventTime := 0
        knowledgeTime := 0, observationId := 1 }
    let fix : Observation := { bar with knowledgeTime := 5, revision := 1, observationId := 2 }
    asOf (ofUpserts [[bar], [fix]]) 3 {} = asOf (ofUpserts [[bar]]) 3 {} := by
  intro bar fix
  have hid : (([[bar]] : List (List Observation)).flatten.map Observation.observationId).Nodup := by
    decide
  obtain ⟨-, -, -, h⟩ := asOf_point_in_time [[bar]] 3 hid
  exact h [[bar], [fix]] (.keep bar (.later fix (by decide) .nil)) (by decide)

end MarketTrader.Storage.InMemoryBitemporalStore
