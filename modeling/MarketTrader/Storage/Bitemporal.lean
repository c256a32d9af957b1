import MarketTrader.Core.Schema
import MarketTrader.Library.Champion
import Mathlib.Data.Prod.Lex
import Mathlib.Data.String.Basic

namespace MarketTrader.Storage

open Library MarketTrader.Core

/-- Revisions of one fact are compared by when they became knowable, then by number. -/
def recency (o : Observation) : ℤ ×ₗ ℤ := toLex (o.knowledgeTime, o.revision)

def collapseLatestRevisions (rows : List Observation) : List Observation :=
  (champions Observation.logicalKey (fun cur o ↦ recency cur < recency o) rows).toList

def sortKey (o : Observation) : ℤ ×ₗ ℤ ×ₗ String ×ₗ String ×ₗ String ×ₗ ℤ :=
  toLex (o.knowledgeTime, toLex (o.eventTime, toLex (o.source, toLex (o.dataset,
    toLex (o.entityId, o.revision)))))

def sortObservations (rows : List Observation) : List Observation := sortBy sortKey rows

structure Query where
  source : Option String := none
  dataset : Option String := none
  entityType : Option String := none
  entityId : Option String := none
  latestRevisionOnly : Bool := true

def keepEqual (field : Observation → String) : Option String → List Observation → List Observation
  | none, rows => rows
  | some v, rows => rows.filter (field · = v)

def Query.select (q : Query) (rows : List Observation) : List Observation :=
  keepEqual (·.entityId) q.entityId <| keepEqual (·.entityType) q.entityType <|
    keepEqual (·.dataset) q.dataset <| keepEqual (·.source) q.source rows

/-- The reference store: a dict keyed on the observation id. -/
abbrev InMemoryBitemporalStore := Keyed Observation.observationId

namespace InMemoryBitemporalStore

def addMany (s : InMemoryBitemporalStore) (l : List Observation) : InMemoryBitemporalStore :=
  s.insertAll l

def upsertMany (s : InMemoryBitemporalStore) (l : List Observation) : InMemoryBitemporalStore :=
  addMany s l

def count (s : InMemoryBitemporalStore) : ℕ := s.toList.length

def visible (s : InMemoryBitemporalStore) (k : Datetime) : List Observation :=
  s.toList.filter (·.knowledgeTime ≤ k)

def asOf (s : InMemoryBitemporalStore) (k : Datetime) (q : Query) : List Observation :=
  let rows := q.select (visible s k)
  sortObservations (if q.latestRevisionOnly then collapseLatestRevisions rows else rows)

end InMemoryBitemporalStore

theorem collapse_nodup (rows : List Observation) :
    ((collapseLatestRevisions rows).map Observation.logicalKey).Nodup :=
  Keyed.nodup _

theorem mem_keys_collapse {rows : List Observation} {key : LogicalKey} :
    key ∈ (collapseLatestRevisions rows).map Observation.logicalKey ↔
      ∃ o ∈ rows, o.logicalKey = key :=
  mem_keys_champions

/-- What survives the collapse is the first of the most recent rows of its logical key. -/
theorem mem_collapse {rows : List Observation} {o : Observation} :
    o ∈ collapseLatestRevisions rows ↔
      firstMax recency (rows.filter (·.logicalKey = o.logicalKey)) = some o :=
  mem_champions

theorem collapse_subset {rows : List Observation} {o : Observation}
    (h : o ∈ collapseLatestRevisions rows) : o ∈ rows :=
  mem_of_mem_champions h

theorem recency_le_of_mem_collapse {rows : List Observation} {o o' : Observation}
    (h : o ∈ collapseLatestRevisions rows) (h' : o' ∈ rows)
    (hk : o'.logicalKey = o.logicalKey) : recency o' ≤ recency o :=
  le_of_firstMax (mem_collapse.mp h) (List.mem_filter.mpr ⟨h', by simp [hk]⟩)

theorem mem_keepEqual {field : Observation → String} {v : Option String}
    {rows : List Observation} {o : Observation} :
    o ∈ keepEqual field v rows ↔ o ∈ rows ∧ ∀ w ∈ v, field o = w := by
  cases v <;> simp [keepEqual]

namespace InMemoryBitemporalStore

variable {s : InMemoryBitemporalStore} {k : Datetime} {o : Observation}

theorem mem_visible : o ∈ visible s k ↔ o ∈ s.toList ∧ o.knowledgeTime ≤ k := by
  simp [visible]

theorem mem_of_mem_asOf {q : Query} (h : o ∈ asOf s k q) : o ∈ q.select (visible s k) := by
  rw [asOf, sortObservations, mem_sortBy] at h
  split at h
  · exact collapse_subset h
  · exact h

/-- Nothing that became knowable later is ever read, whatever the filters. -/
theorem knowledgeTime_le_of_mem_asOf {q : Query} (h : o ∈ asOf s k q) :
    o ∈ s.toList ∧ o.knowledgeTime ≤ k := by
  have hs := mem_of_mem_asOf h
  simp only [Query.select, mem_keepEqual] at hs
  exact mem_visible.mp hs.1.1.1.1

theorem mem_asOf_dataset {d : String} (h : o ∈ asOf s k { dataset := some d }) :
    o ∈ s.toList ∧ o.knowledgeTime ≤ k ∧ o.dataset = d := by
  have hs := mem_of_mem_asOf h
  simp only [Query.select, mem_keepEqual, Option.mem_def, reduceCtorEq, false_imp_iff,
    forall_const, and_true, Option.some_inj, forall_eq', mem_visible] at hs
  exact ⟨hs.1.1, hs.1.2, hs.2⟩

theorem mem_asOf_of_unique {d : String} (ho : o ∈ s.toList) (hk : o.knowledgeTime ≤ k)
    (hd : o.dataset = d)
    (hu : ∀ o' ∈ s.toList, o'.dataset = d → o'.logicalKey = o.logicalKey → o' = o) :
    o ∈ asOf s k { dataset := some d } := by
  rw [asOf, sortObservations, mem_sortBy, if_pos rfl, mem_collapse]
  refine firstMax_of_lt (List.mem_filter.mpr ⟨?_, by simp⟩) (fun b hb hne ↦ absurd ?_ hne)
  · simp [Query.select, keepEqual, mem_visible, ho, hk, hd]
  · obtain ⟨hb, hbk⟩ := List.mem_filter.mp hb
    simp only [Query.select, keepEqual, List.mem_filter, mem_visible, decide_eq_true_eq] at hb hbk
    exact hu b hb.1.1 hb.2 hbk

theorem filter_asOf_of_key {p : Observation → Bool}
    (hp : ∀ a b : Observation, a.logicalKey = b.logicalKey → p a = p b)
    (s : InMemoryBitemporalStore) (k : Datetime) {q : Query} (hq : q.latestRevisionOnly) :
    (asOf s k q).filter p =
      sortObservations (collapseLatestRevisions ((q.select (visible s k)).filter p)) := by
  rw [asOf, if_pos hq, sortObservations, filter_sortBy]
  dsimp only [collapseLatestRevisions]
  rw [filter_champions hp]
  rfl

/-- Two stores with the same visible rows, in order, answer every read alike. -/
theorem asOf_congr {s' : InMemoryBitemporalStore} (h : visible s k = visible s' k) (q : Query) :
    asOf s k q = asOf s' k q := by
  rw [asOf, asOf, h]

end InMemoryBitemporalStore

end MarketTrader.Storage
