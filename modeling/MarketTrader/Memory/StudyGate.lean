import MarketTrader.Memory.StudyRunner
import MarketTrader.Storage.Backends

namespace MarketTrader.Memory

open Library MarketTrader.Core Storage InMemoryBitemporalStore Backtest
open MarketTrader.Runtime (priceDataset)

/-! ### What detection takes of a row -/

/-- The fields that order a read, and nothing else of the row. -/
def bare (o : Observation) : Observation where
  source := o.source
  dataset := o.dataset
  entityType := ""
  entityId := o.entityId
  ref := none
  eventTime := o.eventTime
  knowledgeTime := o.knowledgeTime
  revision := o.revision

theorem bare_congr {o o' : Observation} (h : sortKey o = sortKey o') : bare o = bare o' := by
  simp only [sortKey, toLex_inj, Prod.mk.injEq] at h
  obtain ⟨hk, he, hs, hd, hi, hr⟩ := h
  simp only [bare, hs, hd, hi, he, hk, hr]

theorem map_bare_congr {l l' : List Observation} (h : l.map sortKey = l'.map sortKey) :
    l.map bare = l'.map bare := by
  induction l generalizing l' with
  | nil => rw [List.map_eq_nil_iff.mp h.symm]
  | cons o l ih =>
    cases l' with
    | nil => cases h
    | cons o' l' =>
      rw [List.map_cons, List.map_cons, List.cons.injEq] at h
      rw [List.map_cons, List.map_cons, bare_congr h.1, ih h.2]

variable {l l' rows rows' : List Observation} {t : Datetime}

/-- Two sorted lists of the same rows differ by the order among ties only. -/
theorem map_bare_of_perm (hp : l.Perm l') (hs : l.Pairwise (sortKey · ≤ sortKey ·))
    (hs' : l'.Pairwise (sortKey · ≤ sortKey ·)) : l.map bare = l'.map bare := by
  have hkeys : l.map sortKey = l'.map sortKey :=
    (hp.map sortKey).eq_of_pairwise (fun a b _ _ hab hba ↦ le_antisymm hab hba)
      (List.pairwise_map.mpr hs) (List.pairwise_map.mpr hs')
  exact map_bare_congr hkeys

theorem groupByEntity_map_bare (rows : List Observation) :
    groupByEntity (rows.map bare) =
      Dict.mapVals (fun _ obs ↦ obs.map bare) (groupByEntity rows) := by
  induction rows using List.reverseRecOn with
  | nil => rfl
  | append_singleton rows o ih =>
    have hstep : ∀ (rows : List Observation) (o : Observation), groupByEntity (rows ++ [o]) =
        Dict.set (groupByEntity rows) o.entityId
          (Dict.getD (groupByEntity rows) o.entityId [] ++ [o]) := by
      intro rows o
      rw [groupByEntity, List.foldl_append]
      rfl
    have hkey : (bare o).entityId = o.entityId := rfl
    have hget : Dict.getD (groupByEntity (rows.map bare)) o.entityId [] =
        (Dict.getD (groupByEntity rows) o.entityId []).map bare := by
      rw [ih]
      exact Dict.getD_mapVals o.entityId []
    rw [List.map_append, List.map_singleton, hstep, hstep, Dict.mapVals_set, hkey, hget, ih,
      List.map_append, List.map_singleton]

theorem insiderCluster_map_bare (n : ℕ) (symbol : String) (obs : List Observation) :
    insiderCluster n symbol (obs.map bare) = insiderCluster n symbol obs := by
  simp [insiderCluster, Function.comp_def, bare]

def purchaseIn (t : Datetime) (o : Observation) : Bool :=
  ((o.get? "is_purchase").getD .null).truthy && decide (t - Timedelta.ofDays 30 < o.knowledgeTime)

def highSignal (o : Observation) : Bool :=
  ((Dict.get? o.metadata "high_signal_role").getD .null).truthy

/-- The rows of one dataset that detection counts. -/
def counted (store : InMemoryBitemporalStore) (t : Datetime) (dataset : String)
    (counts : Observation → Bool) : List Observation :=
  (store.asOf t { dataset := some dataset }).filter counts

theorem clusters_congr (h : rows.map bare = rows'.map bare) (n : ℕ) :
    (groupByEntity rows).toList.filterMap (fun p ↦ insiderCluster n p.1 p.2) =
      (groupByEntity rows').toList.filterMap (fun p ↦ insiderCluster n p.1 p.2) := by
  have hbare : ∀ rows : List Observation,
      (groupByEntity (rows.map bare)).toList.filterMap (fun p ↦ insiderCluster n p.1 p.2) =
        (groupByEntity rows).toList.filterMap (fun p ↦ insiderCluster n p.1 p.2) := by
    intro rows
    rw [groupByEntity_map_bare, Dict.toList_mapVals, List.filterMap_map]
    apply List.filterMap_congr
    intro p _
    exact insiderCluster_map_bare n p.1 p.2
  rw [← hbare rows, h, hbare rows']

theorem map_key_congressTrade (rows : List Observation) :
    (rows.filterMap congressTrade).map Event.key = ((rows.filter highSignal).map bare).map
      (fun o ↦ (o.entityId, EventType.leadershipCongressTrade, o.knowledgeTime)) := by
  induction rows with
  | nil => rfl
  | cons o rows ih =>
    by_cases hs : highSignal o
    · have ho : congressTrade o = some
          { eventType := .leadershipCongressTrade
            entityId := o.entityId
            eventTime := o.eventTime
            knowledgeTime := o.knowledgeTime
            payload := .ofList [("transaction_type", (o.get? "transaction_type").getD .null)] } :=
        if_pos hs
      rw [List.filterMap_cons_some ho, List.filter_cons_of_pos hs, List.map_cons, ih]
      rfl
    · have ho : congressTrade o = none := if_neg hs
      rw [List.filterMap_cons_none ho, List.filter_cons_of_neg hs, ih]

/-- Detection finds the same anchors in two stores that give it the same rows, up to their order
among ties. -/
theorem map_key_detectEvents_congr {store store' : InMemoryBitemporalStore}
    (hf : (counted store t form4Dataset (purchaseIn t)).Perm
      (counted store' t form4Dataset (purchaseIn t)))
    (hc : (counted store t congressDataset highSignal).Perm
      (counted store' t congressDataset highSignal)) :
    (detectEvents store t 3 30).map Event.key = (detectEvents store' t 3 30).map Event.key := by
  have hsorted : ∀ (store : InMemoryBitemporalStore) (dataset : String)
      (counts : Observation → Bool),
      (counted store t dataset counts).Pairwise (sortKey · ≤ sortKey ·) := by
    intro store dataset counts
    exact (sortBy_pairwise sortKey _).filter _
  have hclusters := clusters_congr (map_bare_of_perm hf (hsorted _ _ _) (hsorted _ _ _)) 3
  have htrades := map_bare_of_perm hc (hsorted _ _ _) (hsorted _ _ _)
  have hkeys : ∀ store : InMemoryBitemporalStore, (detectEvents store t 3 30).map Event.key =
      ((groupByEntity (counted store t form4Dataset (purchaseIn t))).toList.filterMap
        (fun p ↦ insiderCluster 3 p.1 p.2)).map Event.key ++
      ((counted store t congressDataset highSignal).map bare).map
        (fun o ↦ (o.entityId, EventType.leadershipCongressTrade, o.knowledgeTime)) := by
    intro store
    rw [detectEvents, List.map_append, map_key_congressTrade]
    rfl
  rw [hkeys, hkeys, hclusters, htrades]

section Counted

variable {s s' : InMemoryBitemporalStore} {dataset : String} {counts : Observation → Bool}
  {o : Observation}

/-- A fact that counts has one version only. -/
def Sole (s : InMemoryBitemporalStore) (t : Datetime) (dataset : String)
    (counts : Observation → Bool) : Prop :=
  ∀ o ∈ s.toList, o.knowledgeTime ≤ t → o.dataset = dataset → counts o →
    ∀ o' ∈ s.toList, o'.logicalKey = o.logicalKey → o' = o

theorem mem_counted (h : Sole s t dataset counts) : o ∈ counted s t dataset counts ↔
    o ∈ s.toList ∧ o.knowledgeTime ≤ t ∧ o.dataset = dataset ∧ counts o := by
  rw [counted, List.mem_filter]
  constructor
  · intro ⟨ho, hc⟩
    obtain ⟨hm, hk, hd⟩ := mem_asOf_dataset ho
    exact ⟨hm, hk, hd, hc⟩
  · intro ⟨hm, hk, hd, hc⟩
    refine ⟨mem_asOf_of_unique hm hk hd fun o' ho' _ hkey ↦ ?_, hc⟩
    exact h o hm hk hd hc o' ho' hkey

theorem counted_nodup (s : InMemoryBitemporalStore) (t : Datetime) (dataset : String)
    (counts : Observation → Bool) : (counted s t dataset counts).Nodup := by
  rw [counted, asOf_eq_finishRead]
  exact (finishRead_keys_nodup _).of_map.filter _

theorem counted_perm (h : Sole s t dataset counts) (hsub : ∀ o ∈ s'.toList, o ∈ s.toList)
    (hkept : ∀ o ∈ s.toList, o.knowledgeTime ≤ t → o.dataset = dataset → counts o →
      o ∈ s'.toList) : (counted s t dataset counts).Perm (counted s' t dataset counts) := by
  have h' : Sole s' t dataset counts := fun o ho hk hd hc o' ho' ↦
    h o (hsub o ho) hk hd hc o' (hsub o' ho')
  apply (List.perm_ext_iff_of_nodup (counted_nodup s t dataset counts)
    (counted_nodup s' t dataset counts)).mpr
  intro o
  rw [mem_counted h, mem_counted h']
  constructor
  · intro ⟨hm, hk, hd, hc⟩
    exact ⟨hkept o hm hk hd hc, hk, hd, hc⟩
  · intro ⟨hm, hk, hd, hc⟩
    exact ⟨hsub o hm, hk, hd, hc⟩

end Counted

/-! ### What the copy holds -/

/-- The row is among those that the gate asks the table for. -/
def Asked (since : Datetime) (o : Observation) : Prop :=
  o.knowledgeTime ≤ distantFuture ∧ since ≤ o.eventTime

/-- The latest version of each fact that the gate asks for, and nothing else. -/
structure CopyOf (table : List Observation) (since : Datetime) (mem : InMemoryBitemporalStore) :
    Prop where
  stored : ∀ o ∈ mem.toList, o ∈ table ∧ Asked since o
  latest : ∀ o ∈ mem.toList, ∀ o' ∈ table, Asked since o' → o'.logicalKey = o.logicalKey →
    recency o' ≤ recency o
  single : ∀ o ∈ mem.toList, ∀ o' ∈ mem.toList, o'.logicalKey = o.logicalKey → o' = o
  covers : ∀ o ∈ table, Asked since o → ∃ w ∈ mem.toList, w.logicalKey = o.logicalKey

theorem copyOf_gateStore {S : SqlAlchemyBitemporalStore} {now : Datetime} {lookbackDays : ℤ}
    {mem : InMemoryBitemporalStore} (h : GateStore S now lookbackDays mem) :
    CopyOf S.table.toList (gateSince now lookbackDays) mem := by
  obtain ⟨read, ⟨rows, hperm, hread⟩, hmem⟩ := h
  have hrows : ∀ o, o ∈ rows ↔ o ∈ S.table.toList ∧ Asked (gateSince now lookbackDays) o := by
    intro o
    rw [hperm.mem_iff, SqlAlchemyBitemporalStore.select, List.mem_filter]
    simp [Asked, SqlQuery.Matches, Query.Matches]
  have hsub : ∀ o ∈ read, o ∈ rows := fun o ho ↦ finishRead_subset (hread ▸ ho)
  have hkeys : (read.map Observation.logicalKey).Nodup := hread ▸ finishRead_keys_nodup rows
  have htoList : mem.toList = read := by
    have hids : (read.map Observation.observationId).Nodup := by
      apply List.Nodup.map_on _ hkeys.of_map
      intro o ho o' ho' hid
      exact Keyed.eq_of_mem ((hrows o).mp (hsub o ho)).1 ((hrows o').mp (hsub o' ho')).1 hid
    rw [hmem]
    exact Keyed.toList_insertAll (d := .empty) (by simpa using hids)
  constructor
  · intro o ho
    exact (hrows o).mp (hsub o (htoList ▸ ho))
  · intro o ho o' ho' hasked hkey
    rw [htoList, hread] at ho
    exact recency_le_of_mem_finishRead ho ((hrows o').mpr ⟨ho', hasked⟩) hkey
  · intro o ho o' ho' hkey
    rw [htoList] at ho ho'
    exact List.inj_on_of_nodup_map hkeys ho' ho hkey
  · intro o ho hasked
    rw [htoList, hread]
    exact exists_mem_finishRead ((hrows o).mpr ⟨ho, hasked⟩)

/-- Detection at this instant counts the row. -/
def CountsAt (t : Datetime) (o : Observation) : Prop :=
  o.knowledgeTime ≤ t ∧ (o.dataset = form4Dataset ∧ purchaseIn t o ∨
    o.dataset = congressDataset ∧ highSignal o)

/-- The gate asks for the row, and its fact has no other version. -/
def Kept (table : List Observation) (since : Datetime) (o : Observation) : Prop :=
  Asked since o ∧ ∀ o' ∈ table, o'.logicalKey = o.logicalKey → o' = o

theorem dataset_eq_of_logicalKey {o o' : Observation} (h : o.logicalKey = o'.logicalKey) :
    o.dataset = o'.dataset := congrArg (·.2.1) h

theorem eventTime_eq_of_logicalKey {o o' : Observation} (h : o.logicalKey = o'.logicalKey) :
    o.eventTime = o'.eventTime := congrArg (·.2.2.2.1) h

namespace CopyOf

variable {full mem : InMemoryBitemporalStore} {since : Datetime} (h : CopyOf full.toList since mem)

include h

theorem counted_perm {dataset : String} {counts : Observation → Bool}
    (hkept : ∀ o ∈ full.toList, o.knowledgeTime ≤ t → o.dataset = dataset → counts o →
      Kept full.toList since o) :
    (counted full t dataset counts).Perm (counted mem t dataset counts) := by
  apply Memory.counted_perm
  · intro o ho hk hd hc
    exact (hkept o ho hk hd hc).2
  · intro o ho
    exact (h.stored o ho).1
  · intro o ho hk hd hc
    obtain ⟨hasked, hsole⟩ := hkept o ho hk hd hc
    obtain ⟨w, hw, hkey⟩ := h.covers o ho hasked
    exact hsole w (h.stored w hw).1 hkey ▸ hw

theorem map_key_detectEvents
    (hkept : ∀ o ∈ full.toList, CountsAt t o → Kept full.toList since o) :
    (detectEvents full t 3 30).map Event.key = (detectEvents mem t 3 30).map Event.key := by
  apply map_key_detectEvents_congr
  · exact h.counted_perm fun o ho hk hd hc ↦ hkept o ho ⟨hk, .inl ⟨hd, hc⟩⟩
  · exact h.counted_perm fun o ho hk hd hc ↦ hkept o ho ⟨hk, .inr ⟨hd, hc⟩⟩

/-- The bars of the copy are those of the whole store from the start of the window on. -/
theorem asOf_price (hu : Untied true ((visible full distantFuture).filter
      (·.dataset = priceDataset))) :
    mem.asOf distantFuture { dataset := some priceDataset } =
      (full.asOf distantFuture { dataset := some priceDataset }).filter
        (since ≤ ·.eventTime) := by
  have hread : ∀ s : InMemoryBitemporalStore,
      s.asOf distantFuture { dataset := some priceDataset } =
        finishRead true ((visible s distantFuture).filter (·.dataset = priceDataset)) :=
    fun _ ↦ rfl
  have hlatest : ∀ w ∈ mem.toList, w.dataset = priceDataset →
      Current true ((visible full distantFuture).filter (·.dataset = priceDataset)) w := by
    intro w hw hd
    obtain ⟨hstored, hk, hs⟩ := h.stored w hw
    refine ⟨List.mem_filter.mpr ⟨mem_visible.mpr ⟨hstored, hk⟩, decide_eq_true hd⟩, ?_⟩
    intro _ o' ho' hkey
    obtain ⟨hstored', hk'⟩ := mem_visible.mp (List.mem_of_mem_filter ho')
    exact h.latest w hw o' hstored' ⟨hk', (eventTime_eq_of_logicalKey hkey).symm ▸ hs⟩ hkey
  have hmem : ∀ o, o ∈ mem.asOf distantFuture { dataset := some priceDataset } ↔
      o ∈ (full.asOf distantFuture { dataset := some priceDataset }).filter
        (since ≤ ·.eventTime) := by
    intro o
    rw [List.mem_filter, decide_eq_true_eq, hread full, mem_finishRead_iff hu]
    constructor
    · intro ho
      obtain ⟨hm, -, hd⟩ := mem_asOf_dataset ho
      exact ⟨hlatest o hm hd, (h.stored o hm).2.2⟩
    · intro ⟨ho, hs⟩
      obtain ⟨hv, hd⟩ := List.mem_filter.mp ho.1
      obtain ⟨hstored, hk⟩ := mem_visible.mp hv
      have hd := of_decide_eq_true hd
      obtain ⟨w, hw, hkey⟩ := h.covers o hstored ⟨hk, hs⟩
      have hwd : w.dataset = priceDataset := (dataset_eq_of_logicalKey hkey).trans hd
      have hwcur := hlatest w hw hwd
      have hr : recency o = recency w := le_antisymm
        (h.latest w hw o hstored ⟨hk, hs⟩ hkey.symm) (ho.2 rfl w hwcur.1 hkey)
      obtain rfl : o = w := hu o w ho hwcur (sortKey_eq_of_logicalKey hkey.symm hr)
      exact mem_asOf_of_unique hw hk hd fun o' ho' _ hkey' ↦ h.single o hw o' ho' hkey'
  have hnodup : ∀ s : InMemoryBitemporalStore,
      (s.asOf distantFuture { dataset := some priceDataset }).Nodup :=
    fun s ↦ hread s ▸ (finishRead_keys_nodup _).of_map
  have hperm := (List.perm_ext_iff_of_nodup (hnodup mem) ((hnodup full).filter _)).mpr hmem
  have hsorted : ∀ s : InMemoryBitemporalStore,
      (s.asOf distantFuture { dataset := some priceDataset }).Pairwise (sortKey · ≤ sortKey ·) :=
    fun _ ↦ sortBy_pairwise sortKey _
  apply hperm.eq_of_pairwise _ (hsorted mem) ((hsorted full).filter _)
  intro a b ha hb hab hba
  have hcur : ∀ o ∈ (full.asOf distantFuture { dataset := some priceDataset }).filter
      (since ≤ ·.eventTime), Current true _ o := fun o ho ↦
    (mem_finishRead_iff hu).mp (List.mem_of_mem_filter ho)
  exact hu a b (hcur a ((hmem a).mp ha)) (hcur b hb) (le_antisymm hab hba)

end CopyOf

/-! ### The schedule of the copy -/

/-- Of the bars in the lookback the same ones are on schedule, whether or not the first `cut` bars
are counted. -/
def SamePhase (bars : List Datetime) (cut : ℕ) (stepDays : ℕ+) (minHistory : ℕ)
    (lookbackDays : ℤ) : Prop :=
  ∀ last ∈ bars.getLast?, ∀ i t, bars[i]? = some t → last - Timedelta.ofDays lookbackDays ≤ t →
    ((minHistory ≤ i ∧ (stepDays : ℕ) ∣ i - minHistory) ↔
      (cut + minHistory ≤ i ∧ (stepDays : ℕ) ∣ i - (cut + minHistory)))

variable {bars : List Datetime} {cut minHistory : ℕ} {stepDays : ℕ+} {lookbackDays : ℤ}

theorem studySchedule_sublist (bars : List Datetime) (stepDays : ℕ+) (minHistory : ℕ)
    (lookbackDays : ℤ) :
    (studySchedule bars stepDays minHistory (some lookbackDays)).Sublist bars := by
  unfold studySchedule
  dsimp only
  split
  · exact List.filter_sublist.trans (stride_sublist bars minHistory stepDays)
  · exact stride_sublist bars minHistory stepDays

theorem mem_studySchedule : t ∈ studySchedule bars stepDays minHistory (some lookbackDays) ↔
    ∃ last ∈ bars.getLast?, last - Timedelta.ofDays lookbackDays ≤ t ∧
      ∃ i, bars[i]? = some t ∧ minHistory ≤ i ∧ (stepDays : ℕ) ∣ i - minHistory := by
  unfold studySchedule
  cases hlast : bars.getLast? with
  | none =>
    rw [List.getLast?_eq_none_iff.mp hlast]
    simp [stride]
  | some last => simp [List.mem_filter, mem_stride, and_comm]

theorem mem_studySchedule_drop :
    t ∈ studySchedule (bars.drop cut) stepDays minHistory (some lookbackDays) ↔
      ∃ last ∈ bars.getLast?, last - Timedelta.ofDays lookbackDays ≤ t ∧
        ∃ i, bars[i]? = some t ∧ cut + minHistory ≤ i ∧
          (stepDays : ℕ) ∣ i - (cut + minHistory) := by
  rw [mem_studySchedule, List.getLast?_drop]
  constructor
  · intro ⟨last, hlast, hle, j, hj, hmin, hdvd⟩
    rw [List.getElem?_drop] at hj
    split at hlast
    · cases hlast
    · refine ⟨last, hlast, hle, cut + j, hj, by omega, ?_⟩
      rwa [Nat.add_sub_add_left]
  · intro ⟨last, hlast, hle, i, hi, hmin, hdvd⟩
    have hlen := (List.getElem?_eq_some_iff.mp hi).1
    rw [if_neg (by omega : ¬bars.length ≤ cut)]
    refine ⟨last, hlast, hle, i - cut, ?_, by omega, ?_⟩
    · rw [List.getElem?_drop, Nat.add_sub_cancel' (by omega), hi]
    · rwa [Nat.sub_sub]

/-- To leave out the first bars leaves the schedule as it is if and only if the phase is the
same. -/
theorem studySchedule_drop_iff (hs : bars.Pairwise (· < ·)) :
    studySchedule (bars.drop cut) stepDays minHistory (some lookbackDays) =
        studySchedule bars stepDays minHistory (some lookbackDays) ↔
      SamePhase bars cut stepDays minHistory lookbackDays := by
  have hplace : ∀ {i j : ℕ} {t : Datetime}, bars[i]? = some t → bars[j]? = some t → i = j := by
    intro i j t hi hj
    have hnodup : bars.Nodup := hs.imp ne_of_lt
    have hlen := (List.getElem?_eq_some_iff.mp hi).1
    exact (List.getElem?_inj hlen hnodup).mp (hi.trans hj.symm)
  constructor
  · intro heq last hlast i t hi hle
    have hboth : t ∈ studySchedule (bars.drop cut) stepDays minHistory (some lookbackDays) ↔
        t ∈ studySchedule bars stepDays minHistory (some lookbackDays) := by rw [heq]
    rw [mem_studySchedule_drop, mem_studySchedule] at hboth
    constructor
    · intro ⟨hmin, hdvd⟩
      obtain ⟨-, -, -, j, hj, hmin', hdvd'⟩ := hboth.mpr ⟨last, hlast, hle, i, hi, hmin, hdvd⟩
      rw [hplace hi hj]
      exact ⟨hmin', hdvd'⟩
    · intro ⟨hmin, hdvd⟩
      obtain ⟨-, -, -, j, hj, hmin', hdvd'⟩ := hboth.mp ⟨last, hlast, hle, i, hi, hmin, hdvd⟩
      rw [hplace hi hj]
      exact ⟨hmin', hdvd'⟩
  · intro h
    apply ((hs.sublist (List.drop_sublist cut bars)).sublist
      (studySchedule_sublist _ _ _ _)).eq_of_mem_iff (hs.sublist (studySchedule_sublist _ _ _ _))
    intro t
    rw [mem_studySchedule_drop, mem_studySchedule]
    constructor
    · intro ⟨last, hlast, hle, i, hi, hplaced⟩
      exact ⟨last, hlast, hle, i, hi, (h last hlast i t hi hle).mpr hplaced⟩
    · intro ⟨last, hlast, hle, i, hi, hplaced⟩
      exact ⟨last, hlast, hle, i, hi, (h last hlast i t hi hle).mp hplaced⟩

/-! ### The sweep -/

section Sweep

variable {store store' : InMemoryBitemporalStore} {panel : PriceFrame}

theorem scan_congr
    (h : (detectEvents store t 3 30).map Event.key = (detectEvents store' t 3 30).map Event.key)
    (a : Anchors) : a.scan store t = a.scan store' t := by
  have hkeys : ∀ store : InMemoryBitemporalStore,
      a.scan store t = ((detectEvents store t 3 30).map Event.key).foldl Anchors.note a := by
    intro store
    rw [List.foldl_map]
    rfl
  rw [hkeys, hkeys, h]

/-- What the sweep finds on a schedule. -/
def sweep (store : InMemoryBitemporalStore) (schedule : List Datetime) : AnchorsByType :=
  (schedule.foldl (Anchors.scan store) {}).byType

theorem sweep_congr {schedule : List Datetime}
    (h : ∀ t ∈ schedule, (detectEvents store t 3 30).map Event.key =
      (detectEvents store' t 3 30).map Event.key) : sweep store schedule = sweep store' schedule := by
  have hfold : ∀ a : Anchors, schedule.foldl (Anchors.scan store) a =
      schedule.foldl (Anchors.scan store') a := by
    induction schedule with
    | nil => exact fun _ ↦ rfl
    | cons t schedule ih =>
      rw [List.forall_mem_cons] at h
      intro a
      rw [List.foldl_cons, List.foldl_cons, scan_congr h.1, ih h.2]
  exact congrArg Anchors.byType (hfold {})

/-- The panel of rows whose closes are numbers, or missing. -/
theorem exists_records {observations : List Observation}
    (hp : observationsToPriceFrame observations "close" = .ok panel) :
    (∀ o ∈ observations, Readable "close" o) ∧
      panel = Frame.pivot (observations.filterMap (record? "close")) := by
  unfold observationsToPriceFrame at hp
  cases hr : priceRecords "close" observations with
  | error e =>
    rw [hr] at hp
    cases hp
  | ok records =>
    have hread := readable_of_priceRecords hr
    rw [priceRecords_eq_ok hread] at hp
    cases hp
    exact ⟨hread, rfl⟩

theorem collectAnchors_of_panel (hp : observationsToPriceFrame
    (store.asOf distantFuture { dataset := some priceDataset }) "close" = .ok panel)
    (stepDays : ℕ+) (minHistory : ℕ) (lookbackDays : ℤ) :
    collectAnchors store stepDays minHistory (some lookbackDays) =
      .ok (sweep store (studySchedule panel.index stepDays minHistory (some lookbackDays)),
        returnsPanel panel) := by
  unfold collectAnchors
  rw [hp]
  cases he : panel.isEmpty with
  | false => simp [bind, Except.bind, pure, Except.pure, sweep, he]
  | true =>
    have hindex : panel.index = [] := by
      rw [(exists_records hp).2] at he ⊢
      rw [Frame.isEmpty_pivot.mp he]
      rfl
    have hnone : studySchedule panel.index stepDays minHistory (some lookbackDays) = [] := by
      rw [hindex]
      exact List.sublist_nil.mp (studySchedule_sublist [] _ _ _)
    simp [bind, Except.bind, pure, Except.pure, sweep, he, hnone, returnsPanel]

/-- The panel of the rows from an instant on has the bars from there on. -/
theorem panel_from {observations : List Observation}
    (hp : observationsToPriceFrame observations "close" = .ok panel) (since : Datetime) :
    ∃ cut, observationsToPriceFrame (observations.filter (since ≤ ·.eventTime)) "close" =
        .ok cut ∧ cut.index = panel.index.filter (since ≤ ·) ∧
      ((∀ t ∈ panel.index, since ≤ t) → cut = panel) := by
  obtain ⟨hread, rfl⟩ := exists_records hp
  have hrecords : (observations.filter (since ≤ ·.eventTime)).filterMap (record? "close") =
      (observations.filterMap (record? "close")).filter (since ≤ ·.time) := by
    rw [List.filter_filterMap, List.filterMap_filter]
    apply List.filterMap_congr
    intro o _
    cases hr : record? "close" o with
    | none => simp
    | some r => simp [Option.filter, (eq_of_record? hr).1]
  refine ⟨.pivot ((observations.filter (since ≤ ·.eventTime)).filterMap (record? "close")), ?_, ?_,
    fun hall ↦ ?_⟩
  · rw [observationsToPriceFrame, priceRecords_eq_ok fun o ho ↦ hread o (List.mem_of_mem_filter ho)]
    rfl
  · rw [hrecords, Frame.pivot, Frame.pivot, filter_sortedDistinct, List.filter_map]
    rfl
  · rw [hrecords, List.filter_eq_self.mpr]
    intro r hr
    have hbar : r.time ∈ (Frame.pivot (observations.filterMap (record? "close"))).index :=
      mem_sortedDistinct.mpr (List.mem_map_of_mem hr)
    exact decide_eq_true (hall r.time hbar)

theorem filter_from_eq_drop {bars : List Datetime} (hs : bars.Pairwise (· < ·))
    (since : Datetime) :
    bars.filter (since ≤ ·) = bars.drop (bars.filter (· < since)).length := by
  have hdrop := filter_lt_eq_drop hs (since - 1)
  have hle : ∀ t : Datetime, decide (since - 1 < t) = decide (since ≤ t) := fun t ↦
    decide_eq_decide.mpr Int.sub_one_lt_iff
  have hlt : ∀ t : Datetime, decide (t ≤ since - 1) = decide (t < since) := fun t ↦
    decide_eq_decide.mpr Int.le_sub_one_iff
  simpa only [hle, hlt] using hdrop

end Sweep

/-- How many bars lie before the window of the gate. -/
def cutBars (bars : List Datetime) (since : Datetime) : ℕ := (bars.filter (· < since)).length

/-- The copy that the gate makes gives the anchors of the whole store if all that detection counts
is in the window, and the bars before it do not change the phase of the schedule. If there are no
such bars it gives the same decision too. -/
theorem gate_copy_agrees (batches : List (List Observation)) (now : Datetime) (lookbackDays : ℤ)
    {mem : InMemoryBitemporalStore} (hmem : GateStore (.ofUpserts batches) now lookbackDays mem)
    (stepDays : ℕ+) (minHistory : ℕ) {panel : PriceFrame}
    (hp : observationsToPriceFrame ((InMemoryBitemporalStore.ofUpserts batches).asOf distantFuture
      { dataset := some priceDataset }) "close" = .ok panel)
    (hu : Untied true ((visible (.ofUpserts batches) distantFuture).filter
      (·.dataset = priceDataset)))
    (hkept : ∀ t ∈ studySchedule panel.index stepDays minHistory (some lookbackDays),
      ∀ o ∈ (InMemoryBitemporalStore.ofUpserts batches).toList, CountsAt t o →
        Kept (InMemoryBitemporalStore.ofUpserts batches).toList (gateSince now lookbackDays) o) :
    (SamePhase panel.index (cutBars panel.index (gateSince now lookbackDays)) stepDays minHistory
        lookbackDays →
      (collectAnchors mem stepDays minHistory (some lookbackDays)).map Prod.fst =
        (collectAnchors (.ofUpserts batches) stepDays minHistory (some lookbackDays)).map
          Prod.fst) ∧
    ((∀ t ∈ panel.index, gateSince now lookbackDays ≤ t) →
      collectAnchors mem stepDays minHistory (some lookbackDays) =
          collectAnchors (.ofUpserts batches) stepDays minHistory (some lookbackDays) ∧
        ∀ (S : Statistics) (postDays : ℕ) (alpha : ℚ) (nPermutations : ℕ), minHistory = 60 →
          significantEventTypes S mem stepDays postDays alpha nPermutations (some lookbackDays) =
            significantEventTypes S (.ofUpserts batches) stepDays postDays alpha nPermutations
              (some lookbackDays)) := by
  have hcopy := copyOf_gateStore hmem
  rw [table_ofUpserts] at hcopy
  obtain ⟨cut, hcut, hindex, hwhole⟩ := panel_from hp (gateSince now lookbackDays)
  rw [← hcopy.asOf_price hu] at hcut
  have hcollect := collectAnchors_of_panel hcut stepDays minHistory lookbackDays
  have hfull := collectAnchors_of_panel hp stepDays minHistory lookbackDays
  have hsweep : sweep mem (studySchedule panel.index stepDays minHistory (some lookbackDays)) =
      sweep (.ofUpserts batches)
        (studySchedule panel.index stepDays minHistory (some lookbackDays)) :=
    sweep_congr fun t ht ↦ (hcopy.map_key_detectEvents (hkept t ht)).symm
  constructor
  · intro hphase
    have hschedule : studySchedule cut.index stepDays minHistory (some lookbackDays) =
        studySchedule panel.index stepDays minHistory (some lookbackDays) := by
      rw [hindex, filter_from_eq_drop panel.sorted]
      exact (studySchedule_drop_iff panel.sorted).mpr hphase
    rw [hcollect, hfull, hschedule, hsweep]
    rfl
  · intro hall
    obtain rfl := hwhole hall
    have heq : collectAnchors mem stepDays minHistory (some lookbackDays) =
        collectAnchors (.ofUpserts batches) stepDays minHistory (some lookbackDays) := by
      rw [hcollect, hfull, hsweep]
    refine ⟨heq, fun S postDays alpha nPermutations hmin ↦ ?_⟩
    subst hmin
    simp only [significantEventTypes, runEventStudyWithPlacebo, heq]

/-! ### Sixty-one daily bars -/

def dayBar (day : ℤ) : Observation where
  source := "p"
  dataset := priceDataset
  entityType := "equity"
  entityId := "A"
  eventTime := Timedelta.ofDays day
  knowledgeTime := Timedelta.ofDays day
  value := .ofList [("close", .num 1)]
  observationId := (day + 60).toNat

/-- The bars up to today, which is day 0. -/
def dailyBars : List Observation := (List.range 61).map fun i ↦ dayBar (i - 60)

/-- A trade of that day, disclosed today. -/
def tradeOf (day : ℤ) : Observation where
  source := "c"
  dataset := congressDataset
  entityType := "equity"
  entityId := "A"
  eventTime := Timedelta.ofDays day
  knowledgeTime := 0
  metadata := .ofList [("high_signal_role", .bool true)]
  observationId := 100

/-- A copy that the gate may make of the bars and the trade. -/
def gateCopy (day : ℤ) : InMemoryBitemporalStore :=
  addMany .empty (finishRead true ((SqlAlchemyBitemporalStore.ofUpserts
    [dailyBars, [tradeOf day]]).select distantFuture { since := some (gateSince 0 1) }))

theorem gateStore_gateCopy (day : ℤ) :
    GateStore (.ofUpserts [dailyBars, [tradeOf day]]) 0 1 (gateCopy day) :=
  ⟨_, ⟨_, .refl _, rfl⟩, rfl⟩

def recentTrade : InMemoryBitemporalStore := .ofUpserts [dailyBars, [tradeOf (-10)]]

/-- All bars are in the window. -/
theorem panel_recentTrade : ∃ panel, observationsToPriceFrame
    (recentTrade.asOf distantFuture { dataset := some priceDataset }) "close" = .ok panel ∧
      ∀ t ∈ panel.index, gateSince 0 1 ≤ t := by
  have hpanel : (observationsToPriceFrame
      (recentTrade.asOf distantFuture { dataset := some priceDataset }) "close").toOption.any
        (fun p ↦ p.index.all (gateSince 0 1 ≤ ·)) := by decide +kernel
  cases hp : observationsToPriceFrame
      (recentTrade.asOf distantFuture { dataset := some priceDataset }) "close" with
  | error e =>
    rw [hp] at hpanel
    cases hpanel
  | ok panel =>
    rw [hp] at hpanel
    exact ⟨panel, rfl, fun t ht ↦ of_decide_eq_true (List.all_eq_true.mp hpanel t ht)⟩

theorem gate_copy_agrees_recent_trade :
    collectAnchors (gateCopy (-10)) 5 60 (some 1) = collectAnchors recentTrade 5 60 (some 1) ∧
      (collectAnchors (gateCopy (-10)) 5 60 (some 1)).toOption.map (·.1.keys) =
        some [.leadershipCongressTrade] := by
  obtain ⟨panel, hp, hall⟩ := panel_recentTrade
  have hkeys : (((visible recentTrade distantFuture).filter
      (·.dataset = priceDataset)).map sortKey).Nodup := by decide +kernel
  have hkept : ∀ o ∈ recentTrade.toList, o.dataset ≠ priceDataset →
      Kept recentTrade.toList (gateSince 0 1) o := by
    unfold Kept Asked
    decide +kernel
  have hfiling : ∀ t o, CountsAt t o → o.dataset ≠ priceDataset := by
    intro t o ⟨_, hc⟩
    rcases hc with ⟨hd, -⟩ | ⟨hd, -⟩ <;> rw [hd] <;> decide
  obtain ⟨-, hagree⟩ := gate_copy_agrees [dailyBars, [tradeOf (-10)]] 0 1
    (gateStore_gateCopy (-10)) 5 60 hp
    (fun a b ha hb hab ↦ List.inj_on_of_nodup_map hkeys ha.1 hb.1 hab)
    (fun t _ o ho hc ↦ hkept o ho (hfiling t o hc))
  exact ⟨(hagree hall).1, by decide +kernel⟩

/-- A trade of long ago that is disclosed today is not in the copy. -/
theorem late_trade_lost :
    ¬∀ (batches : List (List Observation)) (now : Datetime) (lookbackDays : ℤ)
      (mem : InMemoryBitemporalStore), GateStore (.ofUpserts batches) now lookbackDays mem →
      (collectAnchors mem 5 60 (some lookbackDays)).map Prod.fst =
        (collectAnchors (.ofUpserts batches) 5 60 (some lookbackDays)).map Prod.fst := by
  intro h
  have hlost := congrArg (fun r ↦ r.toOption.map Keyed.keys)
    (h [dailyBars, [tradeOf (-200)]] 0 1 (gateCopy (-200)) (gateStore_gateCopy (-200)))
  revert hlost
  decide +kernel

end MarketTrader.Memory
