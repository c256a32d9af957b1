import MarketTrader.Features.Fundamental
import MarketTrader.Forecasting.Dataset
import MarketTrader.Runtime.LiveCycle

namespace MarketTrader.Runtime

open Library MarketTrader.Core Storage InMemoryBitemporalStore
open Features (latestCloses)
open Forecasting (fredDataset latestSeries)

/-- The number that a row has in a field. -/
def fieldNum (field : String) (o : Observation) : ℚ :=
  ((o.get? field).bind Value.float?).getD 0

def rowsOf (rows : List Observation) (entity : String) : List Observation :=
  rows.filter (·.entityId = entity)

/-- What the row of the latest period says of each entity. -/
def latestPeriod (rows : List Observation) (entity : String) : Option Observation :=
  firstMax Observation.eventTime (rowsOf rows entity)

/-- What a reader that lets the last row win says of each entity. -/
def lastKnown (rows : List Observation) (entity : String) : Option Observation :=
  (rowsOf rows entity).getLast?

/-- The rows of an entity differ in their times and their revisions alone: what it has of one
period are versions of one fact. -/
def OneSource (dataset : String) (store : InMemoryBitemporalStore) : Prop :=
  ∀ o ∈ store.toList, ∀ o' ∈ store.toList, o.dataset = dataset → o'.dataset = dataset →
    o.entityId = o'.entityId → o.eventTime = o'.eventTime → o.logicalKey = o'.logicalKey

def Positive (dataset field : String) (store : InMemoryBitemporalStore) : Prop :=
  ∀ o ∈ store.toList, o.dataset = dataset → ∃ q, 0 < q ∧ o.get? field = some (.num q)

/-- The last that became known of some entity is another value of an older period. -/
def CorrectedLate (field : String) (rows : List Observation) : Prop :=
  ∃ o ∈ rows, ∃ p ∈ rows, o.entityId = p.entityId ∧ o.eventTime < p.eventTime ∧
    (∀ r ∈ rows, r.entityId = p.entityId → r.eventTime ≤ p.eventTime) ∧
    (∀ r ∈ rows, r.entityId = p.entityId →
      toLex (r.knowledgeTime, r.eventTime) ≤ toLex (o.knowledgeTime, o.eventTime)) ∧
    fieldNum field o ≠ fieldNum field p

/-- Every reader takes the value of the latest period: both sleeves, the daily cycle, the regime and
the earnings yield. -/
structure TakesLatest (store : InMemoryBitemporalStore) (asOf : Datetime) : Prop where
  sleeves (symbols : List String) : ∃ prices, latestPrices store asOf symbols = .ok prices ∧
    ∀ e, Dict.get? prices e = if e ∈ symbols then
      (latestPeriod (store.asOf asOf { dataset := some priceDataset }) e).map (fieldNum "close")
      else none
  cycle (watchlist : List String) : ∃ prices, closePrices store asOf watchlist = .ok prices ∧
    ∀ e, Dict.get? prices e = if e ∈ watchlist then
      (latestPeriod (store.asOf asOf { dataset := some priceDataset }) e).map (fieldNum "close")
      else none
  regime : ∃ latest, latestSeries store asOf = .ok latest ∧ ∀ e, Dict.get? latest e =
    (latestPeriod (store.asOf asOf { dataset := some fredDataset }) e).map (fieldNum "value")
  earningsYield : ∃ latest,
    latestCloses (store.asOf asOf { dataset := some priceDataset }) .empty = .ok latest ∧
    ∀ e, Dict.get? latest e =
      (latestPeriod (store.asOf asOf { dataset := some priceDataset }) e).map
        fun o ↦ (o.eventTime, fieldNum "close" o)

section Rows

variable {dataset field : String} {store : InMemoryBitemporalStore} {asOf : Datetime}
  {rows : List Observation} {entity : String} {o : Observation}

theorem mem_rowsOf : o ∈ rowsOf rows entity ↔ o ∈ rows ∧ o.entityId = entity := by
  simp [rowsOf]

theorem rowsOf_append (rows rows' : List Observation) :
    rowsOf (rows ++ rows') entity = rowsOf rows entity ++ rowsOf rows' entity :=
  List.filter_append ..

theorem fieldNum_of_get? {q : ℚ} (h : o.get? field = some (.num q)) : fieldNum field o = q := by
  rw [fieldNum, h]
  rfl

theorem positive_asOf (h : Positive dataset field store) :
    ∀ o ∈ store.asOf asOf { dataset := some dataset },
      0 < fieldNum field o ∧ o.get? field = some (.num (fieldNum field o)) := by
  intro o ho
  obtain ⟨hs, -, hd⟩ := mem_asOf_dataset ho
  obtain ⟨q, hq, hget⟩ := h o hs hd
  rw [fieldNum_of_get? hget]
  exact ⟨hq, hget⟩

/-- The rows of a read are told apart by their period and entity. -/
theorem eq_of_asOf (hone : OneSource dataset store) {p : Observation}
    (ho : o ∈ store.asOf asOf { dataset := some dataset })
    (hp : p ∈ store.asOf asOf { dataset := some dataset }) (he : o.entityId = p.entityId)
    (ht : o.eventTime = p.eventTime) : o = p := by
  obtain ⟨hos, -, hod⟩ := mem_asOf_dataset ho
  obtain ⟨hps, -, hpd⟩ := mem_asOf_dataset hp
  have hkey := hone o hos p hps hod hpd he ht
  rw [InMemoryBitemporalStore.asOf, sortObservations, mem_sortBy, if_pos rfl] at ho hp
  exact List.inj_on_of_nodup_map (collapse_nodup _) ho hp hkey

/-- Nothing of the entity is known later than its last row. -/
theorem le_lastKnown {s : InMemoryBitemporalStore} {q : Query}
    (h : lastKnown (s.asOf asOf q) entity = some o) {r : Observation}
    (hr : r ∈ s.asOf asOf q) (he : r.entityId = entity) :
    toLex (r.knowledgeTime, r.eventTime) ≤ toLex (o.knowledgeTime, o.eventTime) := by
  obtain ⟨before, hrows⟩ := List.getLast?_eq_some_iff.mp h
  have hsorted : (rowsOf (s.asOf asOf q) entity).Pairwise (fun a b ↦ sortKey a ≤ sortKey b) :=
    (sortBy_pairwise sortKey _).filter _
  have hmem := mem_rowsOf.mpr ⟨hr, he⟩
  rw [hrows] at hsorted hmem
  rcases List.mem_append.mp hmem with hr | hr
  · have hle := (List.pairwise_append.mp hsorted).2.2 r hr o (List.mem_singleton_self o)
    simp only [sortKey, Prod.Lex.toLex_le_toLex] at hle ⊢
    rcases hle with hlt | ⟨heq, hlt | ⟨heq', -⟩⟩
    · exact .inl hlt
    · exact .inr ⟨heq, hlt.le⟩
    · exact .inr ⟨heq, heq'.le⟩
  · rw [List.mem_singleton.mp hr]

theorem mem_of_lastKnown (h : lastKnown rows entity = some o) : o ∈ rows ∧ o.entityId = entity :=
  mem_rowsOf.mp (List.mem_of_getLast? h)

theorem mem_of_latestPeriod (h : latestPeriod rows entity = some o) :
    o ∈ rows ∧ o.entityId = entity := mem_rowsOf.mp (champion_mem h)

theorem le_latestPeriod (h : latestPeriod rows entity = some o) {r : Observation} (hr : r ∈ rows)
    (he : r.entityId = entity) : r.eventTime ≤ o.eventTime :=
  le_of_firstMax h (mem_rowsOf.mpr ⟨hr, he⟩)

theorem lastKnown_eq_none : lastKnown rows entity = none ↔ latestPeriod rows entity = none := by
  rw [lastKnown, List.getLast?_eq_none_iff, latestPeriod, firstMax, champion_eq_none]

/-- The last row of every entity has the value of its latest period unless an older period was
corrected after it. -/
theorem lastKnown_eq_latestPeriod_iff (hone : OneSource dataset store) :
    (∀ e, (lastKnown (store.asOf asOf { dataset := some dataset }) e).map (fieldNum field) =
      (latestPeriod (store.asOf asOf { dataset := some dataset }) e).map (fieldNum field)) ↔
    ¬CorrectedLate field (store.asOf asOf { dataset := some dataset }) := by
  constructor
  · rintro h ⟨o, ho, p, hp, he, hlt, hlatest, hlast, hne⟩
    have hl : lastKnown (store.asOf asOf { dataset := some dataset }) p.entityId = some o := by
      cases hl : lastKnown (store.asOf asOf { dataset := some dataset }) p.entityId with
      | none =>
        rw [lastKnown, List.getLast?_eq_none_iff] at hl
        exact absurd (mem_rowsOf.mpr ⟨ho, he⟩) (by rw [hl]; exact List.not_mem_nil)
      | some r =>
        obtain ⟨hr, hre⟩ := mem_of_lastKnown hl
        have heq := le_antisymm (hlast r hr hre) (le_lastKnown hl ho he)
        rw [eq_of_asOf hone hr ho (hre.trans he.symm) (congrArg Prod.snd (toLex_inj.mp heq))]
    have hp' : latestPeriod (store.asOf asOf { dataset := some dataset }) p.entityId = some p := by
      cases hm : latestPeriod (store.asOf asOf { dataset := some dataset }) p.entityId with
      | none =>
        rw [← lastKnown_eq_none, hl] at hm
        cases hm
      | some r =>
        obtain ⟨hr, hre⟩ := mem_of_latestPeriod hm
        rw [eq_of_asOf hone hr hp hre (le_antisymm (hlatest r hr hre) (le_latestPeriod hm hp rfl))]
    have hval := h p.entityId
    rw [hl, hp', Option.map_some, Option.map_some, Option.some_inj] at hval
    exact hne hval
  · intro h e
    cases hl : lastKnown (store.asOf asOf { dataset := some dataset }) e with
    | none => rw [lastKnown_eq_none.mp hl]
    | some o =>
      cases hm : latestPeriod (store.asOf asOf { dataset := some dataset }) e with
      | none =>
        rw [← lastKnown_eq_none, hl] at hm
        cases hm
      | some p =>
        obtain ⟨ho, rfl⟩ := mem_of_lastKnown hl
        obtain ⟨hp, hpe⟩ := mem_of_latestPeriod hm
        rw [Option.map_some, Option.map_some, Option.some_inj]
        rcases (le_latestPeriod hm ho rfl).lt_or_eq with hlt | heq
        · by_contra hne
          exact h ⟨o, ho, p, hp, hpe.symm, hlt,
            fun r hr hre ↦ le_latestPeriod hm hr (hre.trans hpe),
            fun r hr hre ↦ le_lastKnown hl hr (hre.trans hpe), hne⟩
        · rw [eq_of_asOf hone ho hp hpe.symm heq]

end Rows

section Readers

variable {field : String} {store : InMemoryBitemporalStore} {asOf : Datetime}
  {rows : List Observation} {ε : Type} {f : Observation → Except ε (Option ℚ)}

/-- A reader that takes a number from every row it wants ends with the last one of each entity. -/
theorem collect_lastKnown (field : String) (P : String → Prop) [DecidablePred P]
    (hf : ∀ o ∈ rows, f o = .ok (if P o.entityId then some (fieldNum field o) else none)) :
    ∃ prices, Dict.collect Observation.entityId f .empty rows = .ok prices ∧
      ∀ e, Dict.get? prices e = if P e then (lastKnown rows e).map (fieldNum field) else none := by
  have htotal : ∃ prices, Dict.collect Observation.entityId f .empty rows = .ok prices :=
    Dict.collect_total fun o ho ↦ ⟨_, hf o ho⟩
  obtain ⟨prices, hprices⟩ := htotal
  refine ⟨prices, hprices, fun e ↦ ?_⟩
  split
  · next hw =>
    rw [Dict.get?_collect_getLast? hprices (g := fieldNum field), Dict.get?_empty, Option.or_none]
    · rfl
    · rintro o ho rfl
      rw [hf o ho, if_pos hw]
  · next hw =>
    cases hget : Dict.get? prices e with
    | none => rfl
    | some q =>
      obtain ⟨o, ho, rfl, hq⟩ := (Dict.of_get?_collect hprices hget).resolve_left (by simp)
      rw [hf o ho, if_neg hw] at hq
      cases hq

theorem latestPrices_lastKnown (asOf : Datetime) (h : Positive priceDataset "close" store)
    (symbols : List String) :
    ∃ prices, latestPrices store asOf symbols = .ok prices ∧ ∀ e, Dict.get? prices e =
      if e ∈ symbols then
        (lastKnown (store.asOf asOf { dataset := some priceDataset }) e).map (fieldNum "close")
      else none := by
  refine collect_lastKnown "close" (· ∈ symbols) fun o ho ↦ ?_
  obtain ⟨hpos, hget⟩ := positive_asOf h o ho
  simp only [hget, Option.getD_some, Value.truthy_num, Value.float?_num, decide_eq_true_eq,
    hpos.ne', ne_eq, not_false_eq_true, and_true]
  split <;> rfl

theorem closePrices_lastKnown (asOf : Datetime) (h : Positive priceDataset "close" store)
    (watchlist : List String) :
    ∃ prices, closePrices store asOf watchlist = .ok prices ∧ ∀ e, Dict.get? prices e =
      if e ∈ watchlist then
        (lastKnown (store.asOf asOf { dataset := some priceDataset }) e).map (fieldNum "close")
      else none := by
  refine collect_lastKnown "close" (· ∈ watchlist) fun o ho ↦ ?_
  obtain ⟨-, hget⟩ := positive_asOf h o ho
  simp only [hget, Value.float?_num]
  split <;> rfl

theorem latestSeries_lastKnown (asOf : Datetime) (h : Positive fredDataset "value" store) :
    ∃ latest, latestSeries store asOf = .ok latest ∧ ∀ e, Dict.get? latest e =
      (lastKnown (store.asOf asOf { dataset := some fredDataset }) e).map (fieldNum "value") := by
  have hread : ∃ latest, latestSeries store asOf = .ok latest ∧ ∀ e, Dict.get? latest e =
      if True then
        (lastKnown (store.asOf asOf { dataset := some fredDataset }) e).map (fieldNum "value")
      else none := by
    refine collect_lastKnown "value" (fun _ ↦ True) fun o ho ↦ ?_
    obtain ⟨-, hget⟩ := positive_asOf h o ho
    simp only [hget, Value.float?_num, if_true]
  simpa only [if_true] using hread

/-! ### The reader that looks at the periods -/

theorem latestCloses_append_singleton (rows : List Observation) (o : Observation)
    (latest : Dict String (Datetime × ℚ)) : latestCloses (rows ++ [o]) latest =
      latestCloses rows latest >>= latestCloses [o] := by
  induction rows generalizing latest with
  | nil => rfl
  | cons r rows ih =>
    rw [List.cons_append, latestCloses, latestCloses]
    split
    · exact ih latest
    · split
      · exact ih latest
      · split
        · rfl
        · exact ih _

theorem latestCloses_singleton {o : Observation}
    (ho : o.get? "close" = some (.num (fieldNum "close" o)))
    (latest : Dict String (Datetime × ℚ)) : latestCloses [o] latest =
      .ok (if (Dict.get? latest o.entityId).any (fun cur ↦ o.eventTime ≤ cur.1) then latest
        else Dict.set latest o.entityId (o.eventTime, fieldNum "close" o)) := by
  rw [latestCloses, ho]
  simp only [Option.filter_some, ne_eq, reduceCtorEq, not_false_eq_true, decide_true, if_true,
    Value.float?_num]
  split <;> rfl

theorem latestCloses_latestPeriod
    (h : ∀ o ∈ rows, o.get? "close" = some (.num (fieldNum "close" o))) :
    ∃ latest, latestCloses rows .empty = .ok latest ∧ ∀ e, Dict.get? latest e =
      (latestPeriod rows e).map fun o ↦ (o.eventTime, fieldNum "close" o) := by
  induction rows using List.reverseRecOn with
  | nil => exact ⟨.empty, rfl, fun e ↦ rfl⟩
  | append_singleton rows o ih =>
    obtain ⟨latest, hlatest, hget⟩ := ih fun r hr ↦ h r (List.mem_append_left _ hr)
    have ho := h o (List.mem_append_right _ (List.mem_singleton_self o))
    have hperiod : ∀ e, latestPeriod (rows ++ [o]) e =
        if o.entityId = e then
          challenge (fun b a ↦ b.eventTime < a.eventTime) (latestPeriod rows e) o
        else latestPeriod rows e := by
      intro e
      rw [latestPeriod, rowsOf_append, rowsOf, rowsOf, List.filter_singleton]
      by_cases he : o.entityId = e
      · simp only [he, decide_true, cond_true, if_true]
        exact champion_append_singleton _ _ _
      · simp only [he, decide_false, cond_false, List.append_nil, if_false]
        rfl
    rw [latestCloses_append_singleton, hlatest]
    refine ⟨_, latestCloses_singleton ho latest, fun e ↦ ?_⟩
    rw [hperiod, hget]
    by_cases he : o.entityId = e
    · subst he
      rw [if_pos rfl]
      have hcur := hget o.entityId
      cases hb : latestPeriod rows o.entityId with
      | none => simp [challenge, Dict.get?_set_self]
      | some b =>
        rw [hb] at hcur
        by_cases hle : o.eventTime ≤ b.eventTime
        · simp [challenge, hle, not_lt.mpr hle, hcur]
        · simp [challenge, hle, not_le.mp hle, Dict.get?_set_self]
    · rw [if_neg he]
      split
      · exact hget e
      · rw [Dict.get?_set, if_neg he, hget]

end Readers

/-- The latest price is the latest unless an older period was corrected, to another value, after
everything else became known. -/
theorem takes_latest_iff (store : InMemoryBitemporalStore) (asOf : Datetime)
    (hbars : OneSource priceDataset store) (hseries : OneSource fredDataset store)
    (hclose : Positive priceDataset "close" store) (hvalue : Positive fredDataset "value" store) :
    TakesLatest store asOf ↔
      ¬CorrectedLate "close" (store.asOf asOf { dataset := some priceDataset }) ∧
        ¬CorrectedLate "value" (store.asOf asOf { dataset := some fredDataset }) := by
  rw [← lastKnown_eq_latestPeriod_iff hbars, ← lastKnown_eq_latestPeriod_iff hseries]
  constructor
  · intro h
    constructor
    · intro e
      obtain ⟨prices, hprices, hget⟩ := latestPrices_lastKnown asOf hclose [e]
      obtain ⟨prices', hprices', hget'⟩ := h.sleeves [e]
      cases hprices.symm.trans hprices'
      have heq := (hget e).symm.trans (hget' e)
      rwa [if_pos (List.mem_singleton_self e), if_pos (List.mem_singleton_self e)] at heq
    · intro e
      obtain ⟨latest, hlatest, hget⟩ := latestSeries_lastKnown asOf hvalue
      obtain ⟨latest', hlatest', hget'⟩ := h.regime
      cases hlatest.symm.trans hlatest'
      exact (hget e).symm.trans (hget' e)
  · rintro ⟨hc, hv⟩
    refine ⟨fun symbols ↦ ?_, fun watchlist ↦ ?_, ?_,
      latestCloses_latestPeriod fun o ho ↦ (positive_asOf hclose o ho).2⟩
    · obtain ⟨prices, hprices, hget⟩ := latestPrices_lastKnown asOf hclose symbols
      exact ⟨prices, hprices, fun e ↦ by rw [hget e, hc e]⟩
    · obtain ⟨prices, hprices, hget⟩ := closePrices_lastKnown asOf hclose watchlist
      exact ⟨prices, hprices, fun e ↦ by rw [hget e, hc e]⟩
    · obtain ⟨latest, hlatest, hget⟩ := latestSeries_lastKnown asOf hvalue
      exact ⟨latest, hlatest, fun e ↦ by rw [hget e, hv e]⟩

/-! ### A correction -/

/-- Version `version` of the value of one day. -/
def dayRow (dataset entity field : String) (day known version : ℤ) (q : ℚ) (id : ℕ) :
    Observation :=
  { source := "vendor", dataset := dataset, entityType := "series", entityId := entity,
    eventTime := day, knowledgeTime := known, value := Dict.set .empty field (.num q),
    revision := version, observationId := id }

/-- The first of two days has been corrected, when `corrected` says. -/
def correctedStore (corrected : ℤ) : InMemoryBitemporalStore :=
  Keyed.ofList
    [dayRow priceDataset "A" "close" 1 1 0 100 0, dayRow priceDataset "A" "close" 2 3 0 50 1,
      dayRow priceDataset "A" "close" 1 corrected 1 101 2,
      dayRow fredDataset "DGS10" "value" 1 1 0 4 3, dayRow fredDataset "DGS10" "value" 2 3 0 3 4,
      dayRow fredDataset "DGS10" "value" 1 corrected 1 5 5]

theorem toList_correctedStore (corrected : ℤ) : (correctedStore corrected).toList =
    [dayRow priceDataset "A" "close" 1 1 0 100 0, dayRow priceDataset "A" "close" 2 3 0 50 1,
      dayRow priceDataset "A" "close" 1 corrected 1 101 2,
      dayRow fredDataset "DGS10" "value" 1 1 0 4 3, dayRow fredDataset "DGS10" "value" 2 3 0 3 4,
      dayRow fredDataset "DGS10" "value" 1 corrected 1 5 5] := by
  rfl

theorem of_mem_correctedStore {corrected : ℤ} {o : Observation}
    (h : o ∈ (correctedStore corrected).toList) : ∃ day known version q id, 0 < q ∧
      (o = dayRow priceDataset "A" "close" day known version q id ∨
        o = dayRow fredDataset "DGS10" "value" day known version q id) := by
  rw [toList_correctedStore] at h
  simp only [List.mem_cons, List.not_mem_nil, or_false] at h
  rcases h with rfl | rfl | rfl | rfl | rfl | rfl
  · exact ⟨_, _, _, _, _, by norm_num, .inl rfl⟩
  · exact ⟨_, _, _, _, _, by norm_num, .inl rfl⟩
  · exact ⟨_, _, _, _, _, by norm_num, .inl rfl⟩
  · exact ⟨_, _, _, _, _, by norm_num, .inr rfl⟩
  · exact ⟨_, _, _, _, _, by norm_num, .inr rfl⟩
  · exact ⟨_, _, _, _, _, by norm_num, .inr rfl⟩

theorem oneSource_correctedStore (dataset : String) (corrected : ℤ) :
    OneSource dataset (correctedStore corrected) := by
  intro o ho o' ho' hd hd' he ht
  have hkey : ∀ r ∈ (correctedStore corrected).toList,
      r.logicalKey = ("vendor", r.dataset, r.entityId, r.eventTime, none) := by
    intro r hr
    obtain ⟨_, _, _, _, _, -, rfl | rfl⟩ := of_mem_correctedStore hr <;> rfl
  rw [hkey o ho, hkey o' ho', hd, hd', he, ht]

theorem positive_correctedStore (corrected : ℤ) :
    Positive priceDataset "close" (correctedStore corrected) ∧
      Positive fredDataset "value" (correctedStore corrected) := by
  constructor
  · intro o ho hd
    obtain ⟨_, _, _, q, _, hq, rfl | rfl⟩ := of_mem_correctedStore ho
    · exact ⟨q, hq, Dict.get?_set_self ..⟩
    · exact absurd hd (by decide : fredDataset ≠ priceDataset)
  · intro o ho hd
    obtain ⟨_, _, _, q, _, hq, rfl | rfl⟩ := of_mem_correctedStore ho
    · exact absurd hd (by decide : priceDataset ≠ fredDataset)
    · exact ⟨q, hq, Dict.get?_set_self ..⟩

/-- A correction that is known before the next day does no harm. -/
theorem takes_latest_corrected_early : TakesLatest (correctedStore 2) 4 := by
  obtain ⟨hclose, hvalue⟩ := positive_correctedStore 2
  refine (takes_latest_iff _ _ (oneSource_correctedStore _ 2) (oneSource_correctedStore _ 2) hclose
    hvalue).mpr ⟨?_, ?_⟩
  · unfold CorrectedLate
    decide +kernel
  · unfold CorrectedLate
    decide +kernel

/-- One that is known after it makes the older close the price. -/
theorem older_bar_corrected : ∃ (store : InMemoryBitemporalStore) (asOf : Datetime),
    (OneSource priceDataset store ∧ OneSource fredDataset store) ∧
    (Positive priceDataset "close" store ∧ Positive fredDataset "value" store) ∧
    (latestPrices store asOf ["A"]).toOption.bind (Dict.get? · "A") = some 101 ∧
    (latestPeriod (store.asOf asOf { dataset := some priceDataset }) "A").map (fieldNum "close") =
      some 50 ∧
    ¬TakesLatest store asOf := by
  have hread : (latestPrices (correctedStore 4) 4 ["A"]).toOption.bind (Dict.get? · "A") =
      some 101 := by decide +kernel
  refine ⟨correctedStore 4, 4, ⟨oneSource_correctedStore _ 4, oneSource_correctedStore _ 4⟩,
    positive_correctedStore 4, hread, by decide +kernel, fun h ↦ ?_⟩
  obtain ⟨prices, hprices, hget⟩ := h.sleeves ["A"]
  rw [hprices] at hread
  have hlatest := (hget "A").symm.trans hread
  revert hlatest
  decide +kernel

end MarketTrader.Runtime
