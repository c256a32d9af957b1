import MarketTrader.Storage.PointInTime

namespace MarketTrader.Storage

open Library MarketTrader.Core

/-- What every backend makes of the rows that its filters admit. -/
def finishRead (latestRevisionOnly : Bool) (rows : List Observation) : List Observation :=
  sortObservations (if latestRevisionOnly then collapseLatestRevisions rows else rows)

structure SqlQuery extends Query where
  since : Option Datetime := none

def Query.Matches (q : Query) (o : Observation) : Prop :=
  (∀ v ∈ q.source, o.source = v) ∧ (∀ v ∈ q.dataset, o.dataset = v) ∧
    (∀ v ∈ q.entityType, o.entityType = v) ∧ ∀ v ∈ q.entityId, o.entityId = v

def SqlQuery.Matches (q : SqlQuery) (o : Observation) : Prop :=
  (∀ t ∈ q.since, t ≤ o.eventTime) ∧ q.toQuery.Matches o

instance (q : Query) : DecidablePred q.Matches := fun _ ↦
  inferInstanceAs (Decidable (_ ∧ _ ∧ _ ∧ _))

instance (q : SqlQuery) : DecidablePred q.Matches := fun _ ↦
  inferInstanceAs (Decidable (_ ∧ _))

/-- The table `observations`. A merge replaces the row of one primary key, and the order of the
rows has no meaning. -/
structure SqlAlchemyBitemporalStore where
  table : Keyed Observation.observationId

namespace SqlAlchemyBitemporalStore

def empty : SqlAlchemyBitemporalStore := ⟨.empty⟩

def upsertMany (s : SqlAlchemyBitemporalStore) (l : List Observation) :
    SqlAlchemyBitemporalStore := ⟨s.table.insertAll l⟩

def ofUpserts (batches : List (List Observation)) : SqlAlchemyBitemporalStore :=
  batches.foldl upsertMany empty

def select (s : SqlAlchemyBitemporalStore) (k : Datetime) (q : SqlQuery) : List Observation :=
  s.table.toList.filter (fun o ↦ o.knowledgeTime ≤ k ∧ q.Matches o)

/-- A read may return the list: the database yields the selected rows in some order. -/
def Returns (s : SqlAlchemyBitemporalStore) (k : Datetime) (q : SqlQuery)
    (read : List Observation) : Prop :=
  ∃ rows, rows.Perm (s.select k q) ∧ read = finishRead q.latestRevisionOnly rows

end SqlAlchemyBitemporalStore

variable {q : Query} {k : Datetime} {o o' : Observation} {rows rows' : List Observation}
  {latest : Bool}

theorem keepEqual_eq_filter (field : Observation → String) (v : Option String)
    (rows : List Observation) :
    keepEqual field v rows = rows.filter (fun o ↦ ∀ w ∈ v, field o = w) := by
  cases v with
  | none => simp [keepEqual]
  | some v => simp [keepEqual]

theorem Query.select_eq_filter (q : Query) (rows : List Observation) :
    q.select rows = rows.filter (q.Matches ·) := by
  simp only [select, keepEqual_eq_filter, List.filter_filter]
  refine List.filter_congr fun o _ ↦ ?_
  rw [Bool.eq_iff_iff, decide_eq_true_iff]
  simp only [Matches, Bool.and_eq_true, decide_eq_true_eq]
  tauto

namespace InMemoryBitemporalStore

theorem asOf_eq_finishRead (s : InMemoryBitemporalStore) (k : Datetime) (q : Query) :
    asOf s k q = finishRead q.latestRevisionOnly ((visible s k).filter (q.Matches ·)) := by
  rw [asOf, q.select_eq_filter]
  rfl

end InMemoryBitemporalStore

theorem table_ofUpserts (batches : List (List Observation)) :
    (SqlAlchemyBitemporalStore.ofUpserts batches).table =
      InMemoryBitemporalStore.ofUpserts batches := by
  have h : ∀ s : SqlAlchemyBitemporalStore,
      (batches.foldl SqlAlchemyBitemporalStore.upsertMany s).table =
        batches.foldl InMemoryBitemporalStore.upsertMany s.table := by
    induction batches with
    | nil => intro s; rfl
    | cons b batches ih =>
      intro s
      exact ih (s.upsertMany b)
  exact h .empty

/-! ### What a read keeps -/

theorem mem_finishRead_latest : o ∈ finishRead true rows ↔
    firstMax recency (rows.filter (·.logicalKey = o.logicalKey)) = some o := by
  rw [finishRead, if_pos rfl, sortObservations, mem_sortBy, mem_collapse]

theorem finishRead_subset (h : o ∈ finishRead latest rows) : o ∈ rows := by
  rw [finishRead, sortObservations, mem_sortBy] at h
  split at h
  · exact collapse_subset h
  · exact h

theorem exists_mem_finishRead (h : o ∈ rows) :
    ∃ w ∈ finishRead true rows, w.logicalKey = o.logicalKey := by
  obtain ⟨w, hw, hk⟩ := List.mem_map.mp (mem_keys_collapse.mpr ⟨o, h, rfl⟩)
  refine ⟨w, ?_, hk⟩
  rwa [finishRead, if_pos rfl, sortObservations, mem_sortBy]

theorem finishRead_keys_nodup (rows : List Observation) :
    ((finishRead true rows).map Observation.logicalKey).Nodup :=
  ((sortBy_perm sortKey _).map _).nodup_iff.mpr (collapse_nodup rows)

theorem recency_le_of_mem_finishRead (h : o ∈ finishRead true rows) (h' : o' ∈ rows)
    (hk : o'.logicalKey = o.logicalKey) : recency o' ≤ recency o :=
  le_of_firstMax (mem_finishRead_latest.mp h) (List.mem_filter.mpr ⟨h', by simp [hk]⟩)

theorem mem_finishRead_of_lt (h : o ∈ rows) (hlt : ∀ o' ∈ rows, o'.logicalKey = o.logicalKey →
    o' ≠ o → recency o' < recency o) : o ∈ finishRead true rows := by
  rw [mem_finishRead_latest]
  refine firstMax_of_lt (List.mem_filter.mpr ⟨h, by simp⟩) ?_
  intro b hb hne
  obtain ⟨hb, hk⟩ := List.mem_filter.mp hb
  exact hlt b hb (of_decide_eq_true hk) hne

end MarketTrader.Storage
