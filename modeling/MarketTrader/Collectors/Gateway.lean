import MarketTrader.Collectors.Quality
import MarketTrader.Core.Identity
import MarketTrader.Storage.Bitemporal

namespace MarketTrader.Collectors

open Library MarketTrader.Core Storage InMemoryBitemporalStore

structure IngestSummary where
  received : ℕ
  unique : ℕ
  newlyAdded : ℤ
  qualityOk : Bool
  qualityIssues : ℕ
deriving DecidableEq

/-- The one choke point through which every collected observation passes before storage. -/
structure IngestionGateway where
  validate : Bool := true
  strict : Bool := false

/-- The observations of a batch under their ids. Of two with one id the later one counts, in the
place of the earlier. -/
def byId (D : Digests) (observations : List Observation) : InMemoryBitemporalStore :=
  .ofList (observations.map (withDeterministicId D))

/-- What an ingest returns, or the report that it raises, and the store it leaves. -/
structure Ingested where
  result : Except QualityReport IngestSummary
  store : InMemoryBitemporalStore

def IngestionGateway.ingest (D : Digests) (g : IngestionGateway) (store : InMemoryBitemporalStore)
    (observations : List Observation) : Ingested :=
  let unique := (byId D observations).toList
  let report := if g.validate then some (validateObservations unique) else none
  match report.filter (fun r ↦ !r.ok && g.strict) with
  | some r => ⟨.error r, store⟩
  | none =>
    let store' := upsertMany store unique
    ⟨.ok
      { received := observations.length
        unique := unique.length
        newlyAdded := store'.count - store.count
        qualityOk := (report.map QualityReport.ok).getD true
        qualityIssues := (report.map (·.issues.length)).getD 0 }, store'⟩

variable {D : Digests} {g : IngestionGateway} {store : InMemoryBitemporalStore}
  {observations : List Observation}

/-- Deduplication within the batch does not show in the store. -/
theorem upsertMany_byId (D : Digests) (store : InMemoryBitemporalStore)
    (observations : List Observation) : upsertMany store (byId D observations).toList =
      store.insertAll (observations.map (withDeterministicId D)) :=
  Keyed.insertAll_ofList store _

def IngestionGateway.Admits (D : Digests) (g : IngestionGateway)
    (observations : List Observation) : Prop :=
  g.validate → g.strict → (validateObservations (byId D observations).toList).ok

theorem ingest_of_admits (h : g.Admits D observations) :
    (g.ingest D store observations).store =
      store.insertAll (observations.map (withDeterministicId D)) ∧
    ∃ summary, (g.ingest D store observations).result = .ok summary ∧
      summary.newlyAdded = ((observations.map (deterministicId D)).toFinset \
        store.keys.toFinset).card := by
  have hpass : ((if g.validate then some (validateObservations (byId D observations).toList)
      else none).filter fun r ↦ !r.ok && g.strict) = none := by
    rw [Option.filter_eq_none_iff]
    intro r hr hbad
    rw [Bool.and_eq_true] at hbad
    split at hr
    · next hv =>
      cases hr
      rw [h hv hbad.2] at hbad
      exact absurd hbad.1 (by decide)
    · cases hr
  have hgrow : (upsertMany store (byId D observations).toList).count = store.count +
      ((observations.map (deterministicId D)).toFinset \ store.keys.toFinset).card := by
    rw [upsertMany_byId, count, Keyed.length_insertAll, List.map_map]
    rfl
  unfold IngestionGateway.ingest
  dsimp only
  rw [hpass]
  refine ⟨upsertMany_byId D store observations, _, rfl, ?_⟩
  dsimp only
  rw [hgrow]
  omega

theorem ingest_of_not_admits (h : ¬g.Admits D observations) :
    (g.ingest D store observations).store = store ∧ ∃ report,
      (g.ingest D store observations).result = .error report ∧ report.ok = false := by
  unfold IngestionGateway.Admits at h
  simp only [Classical.not_imp, Bool.not_eq_true] at h
  obtain ⟨hv, hs, hbad⟩ := h
  unfold IngestionGateway.ingest
  simp only [hv, hs, if_true, Option.filter_some, hbad]
  exact ⟨rfl, _, rfl, hbad⟩

/-- Ingestion is idempotent and does not depend on batching; it counts the ids that are new, and a
strict gateway that raises leaves the store alone. -/
theorem ingest_laws (D : Digests) (store : InMemoryBitemporalStore) (a b : List Observation) :
    (∀ validate,
      let g : IngestionGateway := { validate := validate, strict := false }
      let once := (g.ingest D store a).store
      (g.ingest D store (a ++ b)).store = (g.ingest D once b).store ∧
        (g.ingest D once a).store = once ∧
        ∃ summary, (g.ingest D once a).result = .ok summary ∧ summary.newlyAdded = 0) ∧
    (∀ (g : IngestionGateway) summary, (g.ingest D store a).result = .ok summary →
      summary.newlyAdded = ((a.map (deterministicId D)).toFinset \ store.keys.toFinset).card) ∧
    ((validateObservations (byId D a).toList).ok = false →
      let g : IngestionGateway := { validate := true, strict := true }
      (g.ingest D store a).store = store ∧
        ∃ report, (g.ingest D store a).result = .error report ∧ report.ok = false) := by
  refine ⟨fun validate ↦ ?_, fun g summary hsum ↦ ?_, fun hbad ↦ ?_⟩
  · intro g once
    have hadm : ∀ l, g.Admits D l := by
      intro l _ hs
      cases hs
    have hstore : ∀ (s : InMemoryBitemporalStore) l, (g.ingest D s l).store =
        s.insertAll (l.map (withDeterministicId D)) := fun s l ↦ (ingest_of_admits (hadm l)).1
    have honce : once = store.insertAll (a.map (withDeterministicId D)) := hstore store a
    have hagain : (g.ingest D once a).store = once := by
      rw [hstore, honce, Keyed.insertAll_insertAll]
    refine ⟨?_, hagain, ?_⟩
    · rw [hstore, hstore, honce, List.map_append, Keyed.insertAll_append]
    · obtain ⟨-, summary, hres, hnew⟩ := ingest_of_admits (hadm a)
      refine ⟨summary, hres, ?_⟩
      -- every id of the batch is stored already
      have hsub : (a.map (deterministicId D)).toFinset ⊆ once.keys.toFinset := by
        intro id hid
        rw [List.mem_toFinset] at hid ⊢
        rw [honce, Keyed.mem_keys_insertAll, List.map_map]
        exact .inr hid
      rw [hnew, Finset.sdiff_eq_empty_iff_subset.mpr hsub]
      rfl
  · by_cases hadm : g.Admits D a
    · obtain ⟨-, summary', hres, hnew⟩ := ingest_of_admits hadm
      rw [hsum, Except.ok.injEq] at hres
      rw [hres, hnew]
    · obtain ⟨-, report, hres, -⟩ := ingest_of_not_admits hadm
      rw [hsum] at hres
      cases hres
  · intro g
    apply ingest_of_not_admits
    intro hadm
    rw [hadm rfl rfl] at hbad
    cases hbad

end MarketTrader.Collectors
