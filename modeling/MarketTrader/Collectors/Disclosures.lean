import MarketTrader.Collectors.Feeds
import MarketTrader.Memory.Taxonomy

namespace MarketTrader.Collectors

open Library MarketTrader.Core Storage InMemoryBitemporalStore Memory

/-! ### Insiders -/

structure Form4Record where
  issuerTicker : String
  insiderName : String
  transactionCode : String
  transactionDate : CalendarDate
  filingDate : CalendarDate
  insiderTitle : Option String := none
  shares : Option ℚ := none
  pricePerShare : Option ℚ := none
deriving DecidableEq

def isPurchase (r : Form4Record) : Bool := upper r.transactionCode = "P"

def Form4Record.observation (r : Form4Record) : Observation :=
  { source := "edgar"
    dataset := form4Dataset
    entityType := "equity"
    entityId := upper r.issuerTicker
    ref := some (r.insiderName ++ "|" ++ r.transactionCode)
    eventTime := dayClose r.transactionDate
    knowledgeTime := dayClose r.filingDate
    value := .ofList [("transaction_code", .str r.transactionCode),
      ("is_purchase", .bool (isPurchase r)), ("shares", numOr r.shares),
      ("price_per_share", numOr r.pricePerShare), ("insider_name", .str r.insiderName),
      ("insider_title", textOr r.insiderTitle)]
    metadata := .ofList
      [("filing_lag_days", .num ((r.filingDate.1.toOrdinal - r.transactionDate.1.toOrdinal : ℤ))),
        ("parser_version", .num 1)] }

def normalizeForm4 (records : List Form4Record) : List Observation :=
  records.map Form4Record.observation

/-! ### Congress -/

inductive Chamber
  | house
  | senate
deriving DecidableEq

def Chamber.text : Chamber → String
  | house => "house"
  | senate => "senate"

inductive TransactionType
  | buy
  | sell
  | exchange
deriving DecidableEq

def TransactionType.text : TransactionType → String
  | buy => "buy"
  | sell => "sell"
  | exchange => "exchange"

structure CongressTradeRecord where
  representative : String
  chamber : Chamber
  ticker : String
  transactionType : TransactionType
  transactionDate : CalendarDate
  disclosureDate : CalendarDate
  amountLow : Option ℚ := none
  amountHigh : Option ℚ := none
  party : Option String := none
  role : Option String := none
  owner : Option String := none
deriving DecidableEq

/-- Leaders and members of a committee are plausibly informed. -/
def isHighSignalRole : Option String → Bool
  | none => false
  | some role =>
    let r := role.toList.map Char.toLower
    "leadership".toList.isPrefixOf r || "committee".toList.isPrefixOf r

def CongressTradeRecord.observation (r : CongressTradeRecord) : Observation :=
  { source := "congress"
    dataset := congressDataset
    entityType := "equity"
    entityId := upper r.ticker
    ref := some (r.representative ++ "|" ++ r.transactionType.text)
    eventTime := dayClose r.transactionDate
    knowledgeTime := dayClose r.disclosureDate
    value := .ofList [("transaction_type", .str r.transactionType.text),
      ("amount_low", numOr r.amountLow), ("amount_high", numOr r.amountHigh),
      ("representative", .str r.representative), ("chamber", .str r.chamber.text),
      ("party", textOr r.party)]
    metadata := .ofList [("role", textOr r.role), ("owner", textOr r.owner),
      ("high_signal_role", .bool (isHighSignalRole r.role)),
      ("disclosure_lag_days",
        .num ((r.disclosureDate.1.toOrdinal - r.transactionDate.1.toOrdinal : ℤ))),
      ("parser_version", .num 1)] }

def normalizeCongress (records : List CongressTradeRecord) : List Observation :=
  records.map CongressTradeRecord.observation

/-! ### Rows that stay apart -/

def ingested (D : Digests) (rows : List Observation) : InMemoryBitemporalStore :=
  (({} : IngestionGateway).ingest D .empty rows).store

/-- No two of the rows share an identity or a fact, and all are known before the end of time. -/
structure Apart (rows : List Observation) : Prop where
  identities : (rows.map identityKey).Nodup
  facts : (rows.map Observation.logicalKey).Nodup
  known : ∀ o ∈ rows, o.knowledgeTime ≤ distantFuture

variable {D : Digests} {rows : List Observation} {k : Datetime}

theorem ingested_eq (D : Digests) (rows : List Observation) :
    ingested D rows = .ofList (rows.map (withDeterministicId D)) :=
  (ingest_of_admits fun _ hs ↦ by cases hs).1

theorem length_asOf_all (s : InMemoryBitemporalStore) (k : Datetime) :
    (s.asOf k {}).length = ((visible s k).map Observation.logicalKey).toFinset.card := by
  rw [asOf, if_pos rfl, sortObservations, (sortBy_perm _ _).length_eq, collapseLatestRevisions,
    length_champions]
  rfl

theorem toList_ingested (hD : Function.Injective D.uuid5) (h : (rows.map identityKey).Nodup) :
    (ingested D rows).toList = rows.map (withDeterministicId D) := by
  have hids : ((rows.map (withDeterministicId D)).map Observation.observationId).Nodup := by
    rw [List.map_map]
    have hcomp : Observation.observationId ∘ withDeterministicId D = D.uuid5 ∘ identityKey := rfl
    rw [hcomp, ← List.map_map]
    exact h.map hD
  rw [ingested_eq, Keyed.ofList, Keyed.toList_insertAll]
  · rfl
  · exact hids

theorem length_ingested (D : Digests) (rows : List Observation) :
    (ingested D rows).toList.length = ((rows.map identityKey).map D.uuid5).toFinset.card := by
  rw [ingested_eq, Keyed.ofList, Keyed.length_insertAll]
  simp only [Keyed.toList_empty, List.length_nil, Nat.zero_add, Keyed.keys, List.map_nil,
    List.toFinset_nil, Finset.sdiff_empty, List.map_map]
  rfl

theorem map_logicalKey_withDeterministicId (D : Digests) (rows : List Observation) :
    (rows.map (withDeterministicId D)).map Observation.logicalKey =
      rows.map Observation.logicalKey := by
  rw [List.map_map]
  rfl

theorem visible_ingested (hD : Function.Injective D.uuid5) (h : (rows.map identityKey).Nodup)
    (k : Datetime) : visible (ingested D rows) k =
      (rows.filter (·.knowledgeTime ≤ k)).map (withDeterministicId D) := by
  rw [visible, toList_ingested hD h, List.filter_map]
  rfl

theorem nodup_of_card {κ : Type} [DecidableEq κ] {l : List κ} (h : l.toFinset.card = l.length) :
    l.Nodup := Multiset.toFinset_card_eq_card_iff_nodup.mp h

theorem count_ingested_iff (hD : Function.Injective D.uuid5) (rows : List Observation) :
    ((ingested D rows).asOf distantFuture {}).length = rows.length ↔ Apart rows := by
  rw [length_asOf_all]
  constructor
  · intro hcount
    have hids := List.toFinset_card_le ((rows.map identityKey).map D.uuid5)
    have hvis := List.length_filter_le (·.knowledgeTime ≤ distantFuture) (ingested D rows).toList
    have hkeys := List.toFinset_card_le
      ((visible (ingested D rows) distantFuture).map Observation.logicalKey)
    rw [← length_ingested D rows, List.length_map, List.length_map] at hids
    rw [List.length_map] at hkeys
    have hlen : (ingested D rows).toList.length = rows.length := by
      unfold visible at hkeys hcount
      omega
    have hidentities : (rows.map identityKey).Nodup := by
      apply List.Nodup.of_map D.uuid5
      apply nodup_of_card
      rw [← length_ingested D rows, List.length_map, List.length_map, hlen]
    have hlist := toList_ingested hD hidentities
    have hall : visible (ingested D rows) distantFuture = (ingested D rows).toList := by
      apply List.filter_sublist.eq_of_length
      unfold visible at hkeys hcount
      omega
    refine ⟨hidentities, ?_, fun o ho ↦ ?_⟩
    · rw [hall, hlist, map_logicalKey_withDeterministicId] at hcount
      apply nodup_of_card
      rw [hcount, List.length_map]
    · have hm : withDeterministicId D o ∈ visible (ingested D rows) distantFuture := by
        rw [hall, hlist]
        exact List.mem_map_of_mem ho
      exact (mem_visible.mp hm).2
  · intro h
    have hall : rows.filter (·.knowledgeTime ≤ distantFuture) = rows :=
      List.filter_eq_self.mpr fun o ho ↦ decide_eq_true (h.known o ho)
    rw [visible_ingested hD h.identities, hall, map_logicalKey_withDeterministicId,
      List.toFinset_card_of_nodup h.facts, List.length_map]

theorem collapse_of_nodup (h : (rows.map Observation.logicalKey).Nodup) :
    collapseLatestRevisions rows = rows := by
  induction rows using List.reverseRecOn with
  | nil => rfl
  | append_singleton rows o ih =>
    rw [List.map_append, List.nodup_append] at h
    have hne : ∀ b ∈ rows, b.logicalKey ≠ o.logicalKey := fun b hb ↦
      h.2.2 _ (List.mem_map_of_mem hb) _ (List.mem_map_of_mem List.mem_cons_self)
    rw [collapseLatestRevisions, toList_champions_append hne]
    exact congrArg (· ++ [o]) (ih h.1)

/-- Rows with different identities, about different facts, are all read from the instant at which
each is known. -/
theorem asOf_ingested_of_nodup (hD : Function.Injective D.uuid5)
    (hi : (rows.map identityKey).Nodup) (hf : (rows.map Observation.logicalKey).Nodup) {q : Query}
    (hq : q.latestRevisionOnly) (hs : ∀ l : List Observation, (∀ o ∈ l, ∃ r ∈ rows,
      withDeterministicId D r = o) → q.select l = l) (k : Datetime) :
    ((ingested D rows).asOf k q).Perm
      ((rows.filter (·.knowledgeTime ≤ k)).map (withDeterministicId D)) := by
  have hselect : q.select (visible (ingested D rows) k) =
      (rows.filter (·.knowledgeTime ≤ k)).map (withDeterministicId D) := by
    rw [visible_ingested hD hi]
    apply hs
    intro o ho
    obtain ⟨r, hr, he⟩ := List.mem_map.mp ho
    exact ⟨r, List.mem_of_mem_filter hr, he⟩
  have hnodup : (((rows.filter (·.knowledgeTime ≤ k)).map
      (withDeterministicId D)).map Observation.logicalKey).Nodup := by
    rw [map_logicalKey_withDeterministicId]
    exact hf.sublist (List.filter_sublist.map _)
  rw [asOf, if_pos hq, hselect, collapse_of_nodup hnodup]
  exact sortBy_perm _ _

theorem asOf_ingested_perm (hD : Function.Injective D.uuid5) (h : Apart rows) {d : String}
    (hd : ∀ o ∈ rows, o.dataset = d) (k : Datetime) :
    ((ingested D rows).asOf k { dataset := some d }).Perm
      ((rows.filter (·.knowledgeTime ≤ k)).map (withDeterministicId D)) := by
  refine asOf_ingested_of_nodup hD h.identities h.facts rfl (fun l hl ↦ ?_) k
  apply List.filter_eq_self.mpr
  intro o ho
  obtain ⟨r, hr, rfl⟩ := hl o ho
  exact decide_eq_true (hd r hr)

/-! ### Records that stay apart -/

/-- What a filing is about, as the store tells facts apart. -/
def Form4Record.fact (r : Form4Record) : String × String × CalendarDate :=
  (upper r.issuerTicker, r.insiderName ++ "|" ++ r.transactionCode, r.transactionDate)

def CongressTradeRecord.fact (r : CongressTradeRecord) : String × String × CalendarDate :=
  (upper r.ticker, r.representative ++ "|" ++ r.transactionType.text, r.transactionDate)

/-- The records are about different facts, have different identities and are known before the end
of time. -/
structure Distinct {ρ : Type} (fact : ρ → String × String × CalendarDate) (row : ρ → Observation)
    (records : List ρ) : Prop where
  facts : (records.map fact).Nodup
  identities : (records.map (fun r ↦ identityKey (row r))).Nodup
  known : ∀ r ∈ records, (row r).knowledgeTime ≤ distantFuture

theorem apart_iff {ρ : Type} {fact : ρ → String × String × CalendarDate} {row : ρ → Observation}
    {source dataset : String} (h : ∀ r, (row r).logicalKey =
      (source, dataset, (fact r).1, dayClose (fact r).2.2, some (fact r).2.1)) (records : List ρ) :
    Apart (records.map row) ↔ Distinct fact row records := by
  have hinj : Function.Injective (fun f : String × String × CalendarDate ↦
      ((source, dataset, f.1, dayClose f.2.2, some f.2.1) : LogicalKey)) := by
    intro f g hfg
    simp only [Prod.mk.injEq, Option.some.injEq, true_and] at hfg
    exact Prod.ext hfg.1 (Prod.ext hfg.2.2 (dayClose_inj hfg.2.1))
  have hfacts : (records.map row).map Observation.logicalKey = (records.map fact).map
      (fun f ↦ ((source, dataset, f.1, dayClose f.2.2, some f.2.1) : LogicalKey)) := by
    rw [List.map_map, List.map_map]
    exact List.map_congr_left fun r _ ↦ h r
  have hids : (records.map row).map identityKey = records.map (fun r ↦ identityKey (row r)) :=
    List.map_map
  constructor
  · intro ha
    refine ⟨?_, hids ▸ ha.identities, fun r hr ↦ ha.known _ (List.mem_map_of_mem hr)⟩
    rw [← List.nodup_map_iff hinj, ← hfacts]
    exact ha.facts
  · intro hd
    refine ⟨hids ▸ hd.identities, ?_, List.forall_mem_map.mpr hd.known⟩
    rw [hfacts, List.nodup_map_iff hinj]
    exact hd.facts

/-- The purchase of the name is disclosed within the window. -/
def disclosedIn (asOf : Datetime) (windowDays : ℤ) (symbol : String) (r : Form4Record) : Bool :=
  isPurchase r && upper r.issuerTicker = symbol && dayClose r.filingDate ≤ asOf &&
    decide (asOf - Timedelta.ofDays windowDays < dayClose r.filingDate)

theorem length_windowPurchases (hD : Function.Injective D.uuid5) {records : List Form4Record}
    (h : Apart (normalizeForm4 records)) (asOf : Datetime) (windowDays : ℤ) (symbol : String) :
    (windowPurchases (ingested D (normalizeForm4 records)) asOf windowDays symbol).length =
      records.countP (disclosedIn asOf windowDays symbol) := by
  have hd : ∀ o ∈ normalizeForm4 records, o.dataset = form4Dataset :=
    List.forall_mem_map.mpr fun _ _ ↦ rfl
  rw [windowPurchases, List.filter_filter, ← List.countP_eq_length_filter,
    (asOf_ingested_perm hD h hd asOf).countP_eq, List.countP_map, List.countP_filter,
    normalizeForm4, List.countP_map]
  apply List.countP_congr
  intro r _
  change (decide (upper r.issuerTicker = symbol) && (isPurchase r &&
    decide (asOf - Timedelta.ofDays windowDays < dayClose r.filingDate)) &&
      decide (dayClose r.filingDate ≤ asOf)) = true ↔ _
  simp only [disclosedIn, Bool.and_eq_true]
  tauto

/-- Every disclosure is there, and every purchase counted, exactly when no two records share the
name, the person with the kind of trade, and the day of it. -/
theorem disclosures_kept_iff (D : Digests) (hD : Function.Injective D.uuid5)
    (filings : List Form4Record) (trades : List CongressTradeRecord) :
    ((((ingested D (normalizeForm4 filings)).asOf distantFuture {}).length = filings.length ∧
      ∀ asOf clusterThreshold windowDays symbol (n : ℕ),
        (∃ e ∈ detectEvents (ingested D (normalizeForm4 filings)) asOf clusterThreshold windowDays,
          e.eventType = .insiderClusterBuy ∧ e.entityId = symbol ∧
            Dict.get? e.payload "n_buys" = some (.num n)) ↔
        n = filings.countP (disclosedIn asOf windowDays symbol) ∧ clusterThreshold ≤ n ∧ 0 < n) ↔
      Distinct Form4Record.fact Form4Record.observation filings) ∧
    (((ingested D (normalizeCongress trades)).asOf distantFuture {}).length = trades.length ↔
      Distinct CongressTradeRecord.fact CongressTradeRecord.observation trades) := by
  have hfilings : Apart (normalizeForm4 filings) ↔
      Distinct Form4Record.fact Form4Record.observation filings :=
    apart_iff (fun _ ↦ rfl) filings
  have htrades : Apart (normalizeCongress trades) ↔
      Distinct CongressTradeRecord.fact CongressTradeRecord.observation trades :=
    apart_iff (fun _ ↦ rfl) trades
  have hcount := count_ingested_iff hD (normalizeForm4 filings)
  have hcount' := count_ingested_iff hD (normalizeCongress trades)
  rw [normalizeForm4, List.length_map] at hcount
  rw [normalizeCongress, List.length_map] at hcount'
  rw [← hfilings, ← htrades]
  refine ⟨⟨fun h ↦ hcount.mp h.1, fun h ↦ ⟨hcount.mpr h, ?_⟩⟩, hcount'⟩
  intro asOf clusterThreshold windowDays symbol n
  rw [exists_cluster_iff, length_windowPurchases hD h]

/-- Two insiders of one name file on the same day. -/
theorem disclosures_kept_two_insiders :
    let day : CalendarDate := ⟨⟨2024, 1, 2⟩, by decide⟩
    let filing (insider : String) : Form4Record := ⟨"a", insider, "P", day, day, none, some 100, none⟩
    ((ingested .plain (normalizeForm4 [filing "X", filing "Y"])).asOf distantFuture {}).length =
      2 := by
  intro day filing
  have h := disclosures_kept_iff .plain Digests.plain_uuid5_injective [filing "X", filing "Y"] []
  exact (h.1.mpr ⟨by decide +kernel, by decide +kernel, by decide +kernel⟩).1

/-- Two lots of one insider on one day become one row, and so do two purchases of a member for
different owners. -/
theorem second_lot_lost :
    (¬∀ (D : Digests) (filings : List Form4Record), filings.Nodup →
      ((ingested D (normalizeForm4 filings)).asOf distantFuture {}).length = filings.length) ∧
    ¬∀ (D : Digests) (trades : List CongressTradeRecord), trades.Nodup →
      ((ingested D (normalizeCongress trades)).asOf distantFuture {}).length = trades.length := by
  let day : CalendarDate := ⟨⟨2024, 1, 2⟩, by decide⟩
  constructor
  · intro h
    let lot (shares : ℚ) : Form4Record :=
      ⟨"A", "X", "P", day, day, none, some shares, none⟩
    have hcount := h .plain [lot 100, lot 200] (by decide)
    revert hcount
    decide +kernel
  · intro h
    let trade (owner : String) : CongressTradeRecord :=
      ⟨"X", .house, "A", .buy, day, day, none, none, none, none, some owner⟩
    have hcount := h .plain [trade "self", trade "spouse"] (by decide)
    revert hcount
    decide +kernel

end MarketTrader.Collectors
