import MarketTrader.Collectors.Edgar

namespace MarketTrader.Collectors

open Library MarketTrader.Core Storage InMemoryBitemporalStore

def fundamentalDataset : String := "fundamental.quarterly"

/-- One reported figure. A field that is not there is null. -/
structure EpsEntry where
  start : Value := .null
  periodEnd : Value := .null
  filed : Value := .null
  val : Option ℚ := none
  fp : Value := .null

/-- A concept of a taxonomy, by what it is measured in. -/
structure Concept where
  units : Dict String (List EpsEntry) := .empty

/-- The US-GAAP facts of a company. A concept without any content is as good as missing, and is not
there. -/
structure CompanyFacts where
  usGaap : Dict String Concept := .empty

@[ext] structure FundamentalRecord where
  ticker : String
  /-- The end of the fiscal quarter. -/
  periodEnd : CalendarDate
  /-- When it was first disclosed. -/
  filedDate : CalendarDate
  eps : ℚ
  fiscalPeriod : Option String := none
deriving DecidableEq

/-! ### The client -/

/-- The date of a JSON value, if its text starts with one. -/
def dateOf (v : Value) : Option CalendarDate := if v.truthy then parseDate v.text else none

def epsConcept (facts : CompanyFacts) : Concept :=
  ((Dict.get? facts.usGaap "EarningsPerShareDiluted").or
    (Dict.get? facts.usGaap "EarningsPerShareBasic")).getD {}

def epsEntries (facts : CompanyFacts) : List EpsEntry :=
  Dict.getD (epsConcept facts).units "USD/shares" []

/-- What is kept of a figure about a quarter. -/
structure Quarter where
  periodEnd : CalendarDate
  filed : CalendarDate
  eps : ℚ
  fp : Value

def Quarter.key (q : Quarter) : String := q.periodEnd.1.isoformat

/-- A figure that has its dates and a value, and is about three months. -/
def quarterOf (e : EpsEntry) : Option Quarter :=
  match dateOf e.start, dateOf e.periodEnd, dateOf e.filed, e.val with
  | some sd, some ed, some fd, some val =>
    if 80 ≤ ed.1.toOrdinal - sd.1.toOrdinal ∧ ed.1.toOrdinal - sd.1.toOrdinal ≤ 100 then
      some ⟨ed, fd, val, e.fp⟩
    else none
  | _, _, _, _ => none

/-- A quarter keeps what it has, unless the new figure was filed before it. -/
def keepOriginal (byQuarter : Keyed Quarter.key) (e : EpsEntry) : Keyed Quarter.key :=
  match quarterOf e with
  | none => byQuarter
  | some q => contest (fun prior q ↦ q.filed.1.toOrdinal < prior.filed.1.toOrdinal) byQuarter q

def fiscalPeriod (fp : Value) : Option String := if fp.truthy then some fp.text else none

def Quarter.record (ticker : String) (q : Quarter) : FundamentalRecord :=
  { ticker := ticker
    periodEnd := q.periodEnd
    filedDate := q.filed
    eps := q.eps
    fiscalPeriod := Collectors.fiscalPeriod q.fp }

def parseCompanyfacts (facts : CompanyFacts) (fallbackTicker : Option String) :
    List FundamentalRecord :=
  let ticker := upper (fallbackTicker.getD "")
  if ticker = "" then []
  else ((epsEntries facts).foldl keepOriginal .empty).toList.map (Quarter.record ticker)

/-! ### The collector -/

def FundamentalRecord.observation (r : FundamentalRecord) : Observation :=
  { source := "sec_xbrl"
    dataset := fundamentalDataset
    entityType := "equity"
    entityId := upper r.ticker
    ref := some r.periodEnd.1.isoformat
    eventTime := dayClose r.periodEnd
    knowledgeTime := dayClose r.filedDate
    value := .ofList [("eps", .num r.eps), ("fiscal_period", textOr r.fiscalPeriod)]
    metadata := .ofList [("parser_version", .num 1)] }

def normalizeFundamentals (records : List FundamentalRecord) : List Observation :=
  records.map FundamentalRecord.observation

/-! ### What a company reports -/

variable {D : Digests} {entries entries' : List EpsEntry} {ticker : String} {e : EpsEntry}
  {periodEnd filed : CalendarDate} {eps : ℚ} {q : Quarter} {r : FundamentalRecord}

/-- The entry reports the earnings of the quarter that ended then. -/
structure Reports (e : EpsEntry) (periodEnd filed : CalendarDate) (eps : ℚ) : Prop where
  span : ∃ start, dateOf e.start = some start ∧
    80 ≤ periodEnd.1.toOrdinal - start.1.toOrdinal ∧
    periodEnd.1.toOrdinal - start.1.toOrdinal ≤ 100
  periodEnd : dateOf e.periodEnd = some periodEnd
  filed : dateOf e.filed = some filed
  val : e.val = some eps

theorem reports_of_quarterOf (h : quarterOf e = some q) :
    Reports e q.periodEnd q.filed q.eps ∧ q.fp = e.fp := by
  unfold quarterOf at h
  split at h
  · next sd ed fd val hs he hf hv =>
    rw [Option.ite_none_right_eq_some] at h
    obtain ⟨hspan, hq⟩ := h
    cases hq
    exact ⟨⟨⟨sd, hs, hspan⟩, he, hf, hv⟩, rfl⟩
  · cases h

theorem Reports.quarterOf (h : Reports e periodEnd filed eps) :
    quarterOf e = some ⟨periodEnd, filed, eps, e.fp⟩ := by
  obtain ⟨start, hs, hspan⟩ := h.span
  unfold Collectors.quarterOf
  rw [hs, h.periodEnd, h.filed, h.val]
  exact if_pos hspan

theorem isoformat_inj {d d' : CalendarDate} (h : d.1.isoformat = d'.1.isoformat) : d = d' := by
  have hdash : ∀ d : CalendarDate, '-' ∉ yearDigits d.1.year := by
    intro d hm
    have hdigit := List.all_eq_true.mp (yearDigits_isDigit d.2.1.1) '-' hm
    exact absurd hdigit (by decide)
  have hl := String.ofList_injective h
  obtain ⟨hy, hl⟩ := eq_of_separated_left (hdash d) (hdash d') hl
  have hlen : (twoDigits d.1.month).length = (twoDigits d'.1.month).length := rfl
  obtain ⟨hm, hl⟩ := List.append_inj hl hlen
  have hd := (List.cons.inj hl).2
  obtain ⟨hmb, hdb⟩ := d.2.bounds
  obtain ⟨hmb', hdb'⟩ := d'.2.bounds
  have hmonth := twoDigits_inj (by omega) (by omega) hm
  have hday := twoDigits_inj (by omega) (by omega) hd
  exact Subtype.ext (Date.mk.injEq .. ▸ ⟨yearDigits_injective hy, hmonth, hday⟩)

/-! ### The original announcement of each quarter -/

def filedBefore (prior q : Quarter) : Bool := q.filed.1.toOrdinal < prior.filed.1.toOrdinal

def originals (entries : List EpsEntry) : Keyed Quarter.key :=
  champions Quarter.key filedBefore (entries.filterMap quarterOf)

theorem foldl_keepOriginal (entries : List EpsEntry) :
    entries.foldl keepOriginal .empty = originals entries := by
  rw [originals, champions, List.foldl_filterMap]
  congr 1
  funext d e
  unfold keepOriginal
  cases quarterOf e <;> rfl

theorem champion_filedBefore (l : List Quarter) :
    champion filedBefore l = firstMax (fun q : Quarter ↦ -q.filed.1.toOrdinal) l := by
  rw [firstMax]
  congr 1
  funext prior q
  exact decide_eq_decide.mpr neg_lt_neg_iff.symm

theorem mem_quarters : q ∈ entries.filterMap quarterOf ↔
    ∃ e ∈ entries, Reports e q.periodEnd q.filed q.eps ∧ q.fp = e.fp := by
  rw [List.mem_filterMap]
  constructor
  · rintro ⟨e, he, hq⟩
    exact ⟨e, he, reports_of_quarterOf hq⟩
  · rintro ⟨e, he, hr, hfp⟩
    refine ⟨e, he, ?_⟩
    rw [hr.quarterOf, ← hfp]

theorem key_eq_iff {q q' : Quarter} : q.key = q'.key ↔ q.periodEnd = q'.periodEnd := by
  constructor
  · exact isoformat_inj
  · intro h
    rw [Quarter.key, h, Quarter.key]

theorem quarter_of_mem_originals (h : q ∈ (originals entries).toList) :
    q ∈ entries.filterMap quarterOf := mem_of_mem_champions h

theorem earliest_of_mem_originals (h : q ∈ (originals entries).toList) {q' : Quarter}
    (hq' : q' ∈ entries.filterMap quarterOf) (he : q'.periodEnd = q.periodEnd) :
    q.filed.1.toOrdinal ≤ q'.filed.1.toOrdinal := by
  have hc := mem_champions.mp h
  rw [champion_filedBefore] at hc
  have hmem : q' ∈ (entries.filterMap quarterOf).filter (·.key = q.key) :=
    List.mem_filter.mpr ⟨hq', decide_eq_true (key_eq_iff.mpr he)⟩
  have hle := le_of_firstMax hc hmem
  exact neg_le_neg_iff.mp hle

theorem exists_original (h : q ∈ entries.filterMap quarterOf) :
    ∃ q' ∈ (originals entries).toList, q'.periodEnd = q.periodEnd := by
  have hk : q.key ∈ (originals entries).keys := mem_keys_champions.mpr ⟨q, h, rfl⟩
  obtain ⟨q', hq', hkey⟩ := Keyed.mem_keys.mp hk
  exact ⟨q', hq', key_eq_iff.mp hkey⟩

theorem upper_ne_empty (h : ticker ≠ "") : upper ticker ≠ "" := by
  intro he
  apply h
  have hl := congrArg String.toList he
  rw [upper, String.toList_ofList] at hl
  exact String.toList_injective (List.map_eq_nil_iff.mp hl)

theorem parseCompanyfacts_eq (h : ticker ≠ "") (facts : CompanyFacts) :
    parseCompanyfacts facts (some ticker) =
      (originals (epsEntries facts)).toList.map (Quarter.record (upper ticker)) := by
  unfold parseCompanyfacts
  rw [foldl_keepOriginal]
  exact if_neg (upper_ne_empty h)

theorem periodEnds_originals (entries : List EpsEntry) (ticker : String) :
    (((originals entries).toList.map (Quarter.record ticker)).map
      FundamentalRecord.periodEnd).Nodup := by
  have hkeys : (((originals entries).toList.map (Quarter.record ticker)).map
      FundamentalRecord.periodEnd).map (fun d ↦ d.1.isoformat) = (originals entries).keys := by
    rw [List.map_map, List.map_map]
    rfl
  apply List.Nodup.of_map (fun d : CalendarDate ↦ d.1.isoformat)
  rw [hkeys]
  exact (originals entries).nodup

/-- One record for each quarter that the entries report, from an entry that was filed first. -/
structure OriginalFilings (entries : List EpsEntry) (ticker : String)
    (records : List FundamentalRecord) : Prop where
  nodup : (records.map FundamentalRecord.periodEnd).Nodup
  quarters : ∀ d, d ∈ records.map FundamentalRecord.periodEnd ↔
    ∃ e ∈ entries, ∃ filed eps, Reports e d filed eps
  ticker : ∀ r ∈ records, r.ticker = upper ticker
  source : ∀ r ∈ records, ∃ e ∈ entries, Reports e r.periodEnd r.filedDate r.eps ∧
    r.fiscalPeriod = fiscalPeriod e.fp
  earliest : ∀ r ∈ records, ∀ e ∈ entries, ∀ filed eps, Reports e r.periodEnd filed eps →
    r.filedDate.1.toOrdinal ≤ filed.1.toOrdinal

theorem originalFilings_parseCompanyfacts (h : ticker ≠ "") (facts : CompanyFacts) :
    OriginalFilings (epsEntries facts) ticker (parseCompanyfacts facts (some ticker)) := by
  rw [parseCompanyfacts_eq h]
  refine ⟨periodEnds_originals _ _, fun d ↦ ⟨fun hd ↦ ?_, ?_⟩, fun r hr ↦ ?_, fun r hr ↦ ?_,
    fun r hr e he filed eps hrep ↦ ?_⟩
  · rw [List.map_map] at hd
    obtain ⟨q, hq, rfl⟩ := List.mem_map.mp hd
    obtain ⟨e, he, hrep, -⟩ := mem_quarters.mp (quarter_of_mem_originals hq)
    exact ⟨e, he, q.filed, q.eps, hrep⟩
  · rintro ⟨e, he, filed, eps, hrep⟩
    have hquarter : (⟨d, filed, eps, e.fp⟩ : Quarter) ∈ (epsEntries facts).filterMap quarterOf :=
      mem_quarters.mpr ⟨e, he, hrep, rfl⟩
    obtain ⟨q, hq, hend⟩ := exists_original hquarter
    rw [List.map_map]
    exact List.mem_map.mpr ⟨q, hq, hend⟩
  · obtain ⟨q, hq, rfl⟩ := List.mem_map.mp hr
    rfl
  · obtain ⟨q, hq, rfl⟩ := List.mem_map.mp hr
    obtain ⟨e, he, hrep, hfp⟩ := mem_quarters.mp (quarter_of_mem_originals hq)
    exact ⟨e, he, hrep, congrArg fiscalPeriod hfp⟩
  · obtain ⟨q, hq, rfl⟩ := List.mem_map.mp hr
    have hquarter : (⟨q.periodEnd, filed, eps, e.fp⟩ : Quarter) ∈
        (epsEntries facts).filterMap quarterOf := mem_quarters.mpr ⟨e, he, hrep, rfl⟩
    have hle := earliest_of_mem_originals hq hquarter rfl
    exact hle

/-! ### The order of the entries -/

/-- Entries of one quarter, filed on one day, do not differ in what is kept of them. -/
def Unambiguous (entries : List EpsEntry) : Prop :=
  ∀ e ∈ entries, ∀ e' ∈ entries, ∀ d filed eps eps', Reports e d filed eps →
    Reports e' d filed eps' → eps = eps' ∧ fiscalPeriod e.fp = fiscalPeriod e'.fp

namespace OriginalFilings

variable {records records' : List FundamentalRecord}

theorem mem_iff (h : OriginalFilings entries ticker records) (hu : Unambiguous entries) :
    r ∈ records ↔ r.ticker = upper ticker ∧ ∃ e ∈ entries,
      Reports e r.periodEnd r.filedDate r.eps ∧ r.fiscalPeriod = fiscalPeriod e.fp ∧
        ∀ e' ∈ entries, ∀ filed eps, Reports e' r.periodEnd filed eps →
          r.filedDate.1.toOrdinal ≤ filed.1.toOrdinal := by
  constructor
  · intro hr
    obtain ⟨e, he, hrep, hfp⟩ := h.source r hr
    exact ⟨h.ticker r hr, e, he, hrep, hfp, h.earliest r hr⟩
  · rintro ⟨hticker, e, he, hrep, hfp, hleast⟩
    obtain ⟨r', hr', hend⟩ := List.mem_map.mp
      ((h.quarters r.periodEnd).mpr ⟨e, he, r.filedDate, r.eps, hrep⟩)
    obtain ⟨e', he', hrep', hfp'⟩ := h.source r' hr'
    rw [hend] at hrep'
    have hle := hleast e' he' _ _ hrep'
    have hle' := h.earliest r' hr' e he r.filedDate r.eps (hend ▸ hrep)
    have hfiled : r'.filedDate = r.filedDate :=
      Subtype.ext (r'.filedDate.2.eq r.filedDate.2 (le_antisymm hle' hle))
    rw [hfiled] at hrep'
    obtain ⟨heps, hperiod⟩ := hu e' he' e he _ _ _ _ hrep' hrep
    have hsame : r' = r := FundamentalRecord.ext ((h.ticker r' hr').trans hticker.symm) hend hfiled
      heps (hfp'.trans (hperiod.trans hfp.symm))
    exact hsame ▸ hr'

/-- What is kept depends on what is reported, but for the order. -/
theorem perm (h : OriginalFilings entries ticker records)
    (h' : OriginalFilings entries' ticker records') (hu : Unambiguous entries)
    (hp : entries'.Perm entries) : records'.Perm records := by
  have hu' : Unambiguous entries' := fun e he e' he' ↦
    hu e (hp.mem_iff.mp he) e' (hp.mem_iff.mp he')
  rw [List.perm_ext_iff_of_nodup (h'.nodup.of_map _) (h.nodup.of_map _)]
  intro r
  rw [h'.mem_iff hu', h.mem_iff hu]
  simp only [hp.mem_iff]

/-! ### What a reader sees -/

theorem identities_nodup (h : OriginalFilings entries ticker records) :
    ((normalizeFundamentals records).map identityKey).Nodup := by
  have hpair := List.pairwise_map.mp h.nodup
  rw [normalizeFundamentals, List.map_map]
  refine List.pairwise_map.mpr (hpair.imp fun {r r'} hne heq ↦ hne ?_)
  have hs : '|' ∉ "sec_xbrl".toList := by decide
  have hd : '|' ∉ fundamentalDataset.toList := by decide
  have hcoords := @coordinates_eq_of_identityKey_eq r.observation r'.observation hs hs hd hd
    (Datetime.bar_not_mem_isoformat _) (Datetime.bar_not_mem_isoformat _) heq
  exact dayClose_inj hcoords.2.1

theorem facts_nodup (h : OriginalFilings entries ticker records) :
    ((normalizeFundamentals records).map Observation.logicalKey).Nodup := by
  have hpair := List.pairwise_map.mp h.nodup
  rw [normalizeFundamentals, List.map_map]
  refine List.pairwise_map.mpr (hpair.imp fun {r r'} hne heq ↦ hne ?_)
  have hkey : r.observation.logicalKey = r'.observation.logicalKey := heq
  exact dayClose_inj (congrArg (fun key : LogicalKey ↦ key.2.2.2.1) hkey)

theorem asOf_perm (hD : Function.Injective D.uuid5) (h : OriginalFilings entries ticker records)
    (k : Datetime) : ((ingested D (normalizeFundamentals records)).asOf k {}).Perm
      ((records.filter (dayClose ·.filedDate ≤ k)).map
        (fun r ↦ withDeterministicId D r.observation)) := by
  have hp := asOf_ingested_of_nodup hD h.identities_nodup h.facts_nodup (q := {}) rfl
    (fun _ _ ↦ rfl) k
  rw [normalizeFundamentals, List.filter_map, List.map_map] at hp
  exact hp

end OriginalFilings

/-- The rows have one about the quarter. -/
def Shows (rows : List Observation) (periodEnd : CalendarDate) : Prop :=
  ∃ o ∈ rows, o.eventTime = dayClose periodEnd

/-- Of each quarter that is reported one record is kept, the original announcement; the order of the
entries only matters where two of a quarter, filed on one day, differ in value or fiscal period; and
a reader sees a quarter from the close of the day on which it was first filed. -/
theorem companyfacts_original (D : Digests) (hD : Function.Injective D.uuid5)
    (facts : CompanyFacts) (ticker : String) (ht : ticker ≠ "") :
    let records := parseCompanyfacts facts (some ticker)
    OriginalFilings (epsEntries facts) ticker records ∧
    (∀ facts', (epsEntries facts').Perm (epsEntries facts) → Unambiguous (epsEntries facts) →
      (parseCompanyfacts facts' (some ticker)).Perm records) ∧
    ∀ k, ((ingested D (normalizeFundamentals records)).asOf k {}).Perm
        ((records.filter (dayClose ·.filedDate ≤ k)).map
          (fun r ↦ withDeterministicId D r.observation)) ∧
      ∀ r ∈ records, (Shows ((ingested D (normalizeFundamentals records)).asOf k {}) r.periodEnd ↔
        dayClose r.filedDate ≤ k) := by
  intro records
  have h : OriginalFilings (epsEntries facts) ticker records :=
    originalFilings_parseCompanyfacts ht facts
  refine ⟨h, fun facts' hp hu ↦ h.perm (originalFilings_parseCompanyfacts ht facts') hu hp,
    fun k ↦ ⟨h.asOf_perm hD k, fun r hr ↦ ?_⟩⟩
  have hrows : ∀ o, o ∈ (ingested D (normalizeFundamentals records)).asOf k {} ↔
      ∃ r' ∈ records, dayClose r'.filedDate ≤ k ∧ withDeterministicId D r'.observation = o := by
    intro o
    rw [(h.asOf_perm hD k).mem_iff]
    simp [and_assoc]
  constructor
  · rintro ⟨o, ho, hend⟩
    obtain ⟨r', hr', hk, rfl⟩ := (hrows o).mp ho
    have hsame : r' = r := List.inj_on_of_nodup_map h.nodup hr' hr (dayClose_inj hend)
    exact hsame ▸ hk
  · intro hk
    exact ⟨_, (hrows _).mpr ⟨r, hr, hk, rfl⟩, rfl⟩

/-! ### A quarter that is reported twice -/

def reported (start periodEnd filed : String) (val : ℚ) (fp : String) : EpsEntry :=
  ⟨.str start, .str periodEnd, .str filed, some val, .str fp⟩

def dilutedEps (entries : List EpsEntry) : CompanyFacts where
  usGaap := .ofList [("EarningsPerShareDiluted", { units := .ofList [("USD/shares", entries)] })]

/-- A first quarter and its comparative of a year later, a half year and a year. -/
def fiscal2023 : CompanyFacts := dilutedEps
  [reported "2023-01-01" "2023-03-31" "2024-04-30" (3 / 2) "Q1",
    reported "2023-01-01" "2023-03-31" "2023-04-28" (3 / 2) "Q1",
    reported "2023-01-01" "2023-06-30" "2023-07-28" (27 / 10) "Q2",
    reported "2023-01-01" "2023-12-31" "2024-02-01" 6 "FY"]

def firstQuarter2023 : FundamentalRecord where
  ticker := "AAPL"
  periodEnd := ⟨⟨2023, 3, 31⟩, by decide⟩
  filedDate := ⟨⟨2023, 4, 28⟩, by decide⟩
  eps := 3 / 2
  fiscalPeriod := some "Q1"

theorem companyfacts_original_first_quarter :
    let rows := normalizeFundamentals (parseCompanyfacts fiscal2023 (some "aapl"))
    Shows ((ingested .plain rows).asOf (dayClose ⟨2023, 4, 28⟩) {}) firstQuarter2023.periodEnd ∧
      ¬Shows ((ingested .plain rows).asOf (dayClose ⟨2023, 4, 27⟩) {})
        firstQuarter2023.periodEnd := by
  intro rows
  have hr : firstQuarter2023 ∈ parseCompanyfacts fiscal2023 (some "aapl") := by decide +kernel
  obtain ⟨-, -, hshows⟩ := companyfacts_original .plain Digests.plain_uuid5_injective fiscal2023
    "aapl" (by decide)
  refine ⟨((hshows _).2 _ hr).mpr le_rfl, fun h ↦ ?_⟩
  exact absurd (((hshows _).2 _ hr).mp h) (by decide)

/-- Two entries of one quarter, filed on one day with one value, but for different periods. -/
theorem companyfacts_order_matters :
    ¬∀ (facts facts' : CompanyFacts) (ticker : String), ticker ≠ "" →
      (epsEntries facts').Perm (epsEntries facts) →
      (∀ e ∈ epsEntries facts, ∀ e' ∈ epsEntries facts, ∀ d filed eps eps',
        Reports e d filed eps → Reports e' d filed eps' → eps = eps') →
      (parseCompanyfacts facts' (some ticker)).Perm (parseCompanyfacts facts (some ticker)) := by
  intro h
  let first := reported "2023-01-01" "2023-03-31" "2023-04-28" 1 "Q1"
  let second := reported "2023-01-01" "2023-03-31" "2023-04-28" 1 "FY"
  have hval : ∀ e ∈ [first, second], e.val = some 1 := by decide
  have hp := h (dilutedEps [first, second]) (dilutedEps [second, first]) "AAPL" (by decide)
    (List.Perm.swap first second []) fun e he e' he' d filed eps eps' hr hr' ↦ by
      have heps := hr.val.symm.trans (hval e he)
      have heps' := hr'.val.symm.trans (hval e' he')
      exact Option.some.inj (heps.trans heps'.symm)
  revert hp
  decide +kernel

end MarketTrader.Collectors
