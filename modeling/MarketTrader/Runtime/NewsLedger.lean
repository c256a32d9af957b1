import MarketTrader.Runtime.NewsSleeve
import MarketTrader.Runtime.SleevePass
import Mathlib.Data.List.ReduceOption

namespace MarketTrader.Runtime.NewsSleeve

open Library MarketTrader.Core Storage InMemoryBitemporalStore Config Portfolio Execution Feedback

variable {D : Digests} {settings : Settings} {prices : Dict String ℚ} {asOf : Datetime}

theorem bar_not_mem_sleeveDataset : '|' ∉ sleeveDataset.toList := by decide

def IsHash (hash : String) : Prop := hash.toList ≠ [] ∧ ∀ c ∈ hash.toList, c.isAlphanum

def IsRow (D : Digests) (o : Observation) : Prop :=
  (∃ symbol t price exitBy hash, IsHash hash ∧ o = openRow D symbol t price exitBy hash) ∨
    ∃ symbol t hash reason, IsHash hash ∧ (reason = "stop" ∨ reason = "horizon") ∧
      o = closeRow D symbol t hash reason

theorem isHash_storyHashOf (D : Digests) (items : List (Datetime × Dict String Value)) :
    IsHash (storyHashOf D items) := by
  unfold storyHashOf IsHash
  rw [String.toList_ofList]
  refine ⟨fun h ↦ ?_, fun c hc ↦ D.sha1_hex _ c (List.mem_of_mem_take hc)⟩
  rw [List.take_eq_nil_iff] at h
  exact D.sha1_ne_nil _ (h.resolve_left (by decide))

theorem IsHash.not_mem {hash : String} (h : IsHash hash) {c : Char} (hc : c.isAlphanum = false) :
    c ∉ hash.toList := by
  intro hm
  rw [h.2 c hm] at hc
  cases hc

theorem IsHash.bar_not_mem {hash : String} (h : IsHash hash) : '|' ∉ hash.toList :=
  h.not_mem (by decide)

theorem IsHash.bar_not_mem_closeRef {hash reason : String} (h : IsHash hash)
    (hr : reason = "stop" ∨ reason = "horizon") : '|' ∉ (hash ++ ":close:" ++ reason).toList := by
  rcases hr with rfl | rfl <;> simp [h.bar_not_mem]

/-- A close's discriminator has a separator, an open's has none. -/
theorem IsHash.ne_closeRef {hash : String} (h : IsHash hash) (hash' reason : String) :
    hash ≠ hash' ++ ":close:" ++ reason := by
  intro he
  refine h.not_mem (c := ':') (by decide) ?_
  rw [he]
  simp

theorem IsHash.closeRef_inj {hash hash' reason reason' : String} (h : IsHash hash)
    (h' : IsHash hash') (he : hash ++ ":close:" ++ reason = hash' ++ ":close:" ++ reason') :
    hash = hash' ∧ reason = reason' := by
  have hl := congrArg String.toList he
  simp only [String.toList_append, List.append_assoc] at hl
  have hs : ":close:".toList = ':' :: "close:".toList := by decide
  rw [hs, List.cons_append, List.cons_append] at hl
  obtain ⟨h₁, h₂⟩ := eq_of_separated_left (h.not_mem (by decide)) (h'.not_mem (by decide)) hl
  exact ⟨String.toList_injective h₁, String.toList_injective (List.append_cancel_left h₂)⟩

theorem isSleeveRow_of_isRow {o : Observation} (h : IsRow D o) : IsSleeveRow D sleeveDataset o := by
  rcases h with ⟨symbol, t, price, exitBy, hash, hh, rfl⟩ | ⟨symbol, t, hash, reason, hh, hr, rfl⟩
  · exact ⟨symbol, _, t, _, hh.bar_not_mem, rfl⟩
  · exact ⟨symbol, _, t, _, hh.bar_not_mem_closeRef hr, rfl⟩

theorem closeReason_or (settings : Settings) (prices : Dict String ℚ)
    (a : String × SleevePosition) :
    closeReason settings prices a = "stop" ∨ closeReason settings prices a = "horizon" := by
  unfold closeReason
  split <;> simp

theorem readPosition_openRow (symbol : String) (t : Datetime) (price : ℚ) (exitBy : Datetime)
    (hash : String) : readPosition (openRow D symbol t price exitBy hash) =
      .ok ⟨symbol, price, exitBy, hash⟩ := rfl

theorem isOpen_openRow (symbol : String) (t : Datetime) (price : ℚ) (exitBy : Datetime)
    (hash : String) : isOpen (openRow D symbol t price exitBy hash) := rfl

theorem not_isOpen_closeRow (symbol : String) (t : Datetime) (hash reason : String) :
    ¬isOpen (closeRow D symbol t hash reason) := by
  have h : isOpen (closeRow D symbol t hash reason) = false := rfl
  simp [h]

theorem readPosition_total {o : Observation} (h : IsRow D o) (ho : isOpen o) :
    ∃ pos, readPosition o = .ok pos := by
  rcases h with ⟨symbol, t, price, exitBy, hash, -, rfl⟩ | ⟨symbol, t, hash, reason, -, -, rfl⟩
  · exact ⟨_, readPosition_openRow symbol t price exitBy hash⟩
  · exact absurd ho (not_isOpen_closeRow symbol t hash reason)

variable {s : InMemoryBitemporalStore} {k : Datetime} {active : Dict String SleevePosition}

theorem activeSleevePositions_total (h : Ledger D sleeveDataset (IsRow D) s) (k : Datetime) :
    ∃ active, activeSleevePositions s k = .ok active :=
  activePositions_total_of_ledger h (fun _ ↦ readPosition_total) k

theorem mem_keys_active (ha : activeSleevePositions s k = .ok active)
    (hl : Ledger D sleeveDataset (IsRow D) s) {symbol : String} :
    symbol ∈ active.keys ↔ ∃ o, standing newer s sleeveDataset symbol k = some o ∧ isOpen o :=
  mem_keys_activePositions hl (fun _ ↦ readPosition_total) ha

theorem isHash_of_active (ha : activeSleevePositions s k = .ok active)
    (hl : Ledger D sleeveDataset (IsRow D) s) {a : String × SleevePosition}
    (hm : a ∈ active.toList) : IsHash a.2.storyHash := by
  obtain ⟨o, ho, hopen, hr⟩ := (get?_activePositions ha).mp (Dict.get?_eq_some.mpr hm)
  obtain ⟨hmo, -, hd, -⟩ := mem_journal.mp (mem_of_standing ho)
  rcases hl.rows o hmo hd with ⟨symbol, t, price, exitBy, hash, hh, rfl⟩ |
    ⟨symbol, t, hash, reason, -, -, rfl⟩
  · rw [readPosition_openRow, Except.ok.injEq] at hr
    rw [← hr]
    exact hh
  · exact absurd hopen (not_isOpen_closeRow symbol t hash reason)

theorem mem_actedStoryHashes (hl : Ledger D sleeveDataset (IsRow D) s) {symbol hash : String}
    (hh : IsHash hash) {t : Datetime} {value : Dict String Value}
    (hm : sleeveRow D sleeveDataset symbol hash t value ∈ s.toList) (hk : t ≤ k) :
    hash ∈ actedStoryHashes s k := by
  have hrow := hl.rows _ hm rfl
  have hread : sleeveRow D sleeveDataset symbol hash t value ∈ records s k := by
    refine mem_asOf_of_unique hm hk rfl fun o' ho' hd hkey ↦ ?_
    obtain ⟨symbol', ref', t', value', -, rfl⟩ := isSleeveRow_of_isRow (hl.rows o' ho' hd)
    obtain rfl : symbol' = symbol := congrArg (·.2.2.1) hkey
    obtain rfl : t' = t := congrArg (·.2.2.2.1) hkey
    have href : some ref' = some hash := congrArg (·.2.2.2.2) hkey
    cases href
    exact Keyed.eq_of_mem ho' hm rfl
  refine List.mem_filterMap.mpr ⟨_, hread, ?_⟩
  rcases hrow with ⟨symbol', t', price, exitBy, hash', -, he⟩ |
    ⟨symbol', t', hash', reason, -, -, he⟩
  · obtain rfl : hash = hash' := Option.some_inj.mp (congrArg Observation.ref he)
    have hne : hash ≠ "" := fun h ↦ hh.1 (by rw [h]; rfl)
    rw [he]
    change (if (Value.str hash).truthy then some (Value.str hash).text else none) = some hash
    simp [Value.truthy, Value.text, hne]
  · exact absurd (Option.some_inj.mp (congrArg Observation.ref he)) (hh.ne_closeRef hash' reason)

/-! ### The decision -/

def Priced (prices : Dict String ℚ) (symbol : String) : Prop :=
  ∃ price, Dict.get? prices symbol = some price ∧ 0 < price

instance (prices : Dict String ℚ) (symbol : String) : Decidable (Priced prices symbol) :=
  decidable_of_iff (((Dict.get? prices symbol).filter (0 < ·)).isSome) (by
    cases h : Dict.get? prices symbol <;> simp [Priced, h, Option.filter])

def chosen (settings : Settings) (asOf : Datetime) (b : Briefing) :
    List NewsEvent → List String → List NewsEvent
  | [], _ => []
  | ev :: rest, live =>
    if settings.newsSleeveMaxNames ≤ live.length then []
    else if Priced b.prices ev.symbol ∧ actsOn settings asOf b live ev then
      ev :: chosen settings asOf b rest (live ++ [ev.symbol])
    else chosen settings asOf b rest live

def closings (D : Digests) (settings : Settings) (prices : Dict String ℚ) (asOf : Datetime)
    (active : Dict String SleevePosition) : List (String × Observation) :=
  (active.toList.filter (isDue settings prices asOf)).map
    (fun a ↦ (a.1, closeRow D a.1 asOf a.2.storyHash (closeReason settings prices a)))

theorem closings_names (active : Dict String SleevePosition) :
    (closings D settings prices asOf active).map Prod.fst =
      (active.toList.filter (isDue settings prices asOf)).map Prod.fst := by
  simp [closings, Function.comp_def]

def openings (D : Digests) (settings : Settings) (prices : Dict String ℚ) (asOf : Datetime)
    (evs : List NewsEvent) : List (String × Observation × Observation) :=
  evs.map (fun ev ↦ (ev.symbol,
    openRow D ev.symbol asOf ((Dict.get? prices ev.symbol).getD 0)
      (asOf + Timedelta.ofDays settings.newsSleeveHoldDays) ev.storyHash,
    (prediction asOf settings.newsSleeveHoldDays ev).toObservation D))

variable {b : Briefing} {live : List String}

theorem openLoop_eq (evs : List NewsEvent) (p : SleevePass) :
    openLoop D settings asOf b evs p live =
      (openings D settings b.prices asOf (chosen settings asOf b evs live)).foldl
        (openWith (perName settings)) p := by
  induction evs generalizing p live with
  | nil => rfl
  | cons ev rest ih =>
    rw [openLoop, chosen]
    split
    · rfl
    · by_cases hp : Priced b.prices ev.symbol
      · obtain ⟨price, hg, hpos⟩ := id hp
        have hf : (Dict.get? b.prices ev.symbol).filter (0 < ·) = some price := by
          simp [hg, Option.filter, hpos]
        rw [hf]
        dsimp only
        by_cases ha : actsOn settings asOf b live ev
        · rw [if_pos ha, if_pos ⟨hp, ha⟩, ih]
          simp only [openings, List.map_cons, List.foldl_cons, hg]
          rfl
        · rw [if_neg ha, if_neg fun h ↦ ha h.2, ih]
      · have hf : (Dict.get? b.prices ev.symbol).filter (0 < ·) = none := by
          rw [Option.filter_eq_none_iff]
          intro price hg hpos
          exact hp ⟨price, hg, of_decide_eq_true hpos⟩
        rw [hf, if_neg fun h ↦ hp h.1]
        exact ih p

theorem mem_chosen {evs : List NewsEvent} {ev : NewsEvent}
    (h : ev ∈ chosen settings asOf b evs live) :
    ev ∈ evs ∧ Priced b.prices ev.symbol ∧ ev.storyHash ∉ b.acted ∧ ev.symbol ∉ live := by
  induction evs generalizing live with
  | nil => cases h
  | cons ev' rest ih =>
    rw [chosen] at h
    split at h
    · cases h
    · split at h
      · next ha =>
        have hacts := of_decide_eq_true ha.2
        rcases List.mem_cons.mp h with rfl | h
        · exact ⟨List.mem_cons_self, ha.1, hacts.2.2.1, hacts.2.2.2.1⟩
        · obtain ⟨hm, hp, hs, hn⟩ := ih h
          exact ⟨List.mem_cons_of_mem _ hm, hp, hs, fun hl ↦ hn (List.mem_append_left _ hl)⟩
      · obtain ⟨hm, h⟩ := ih h
        exact ⟨List.mem_cons_of_mem _ hm, h⟩

theorem nodup_chosen (evs : List NewsEvent) :
    ((chosen settings asOf b evs live).map NewsEvent.symbol).Nodup := by
  induction evs generalizing live with
  | nil => exact List.nodup_nil
  | cons ev rest ih =>
    rw [chosen]
    split
    · exact List.nodup_nil
    · split
      · rw [List.map_cons, List.nodup_cons]
        refine ⟨fun hm ↦ ?_, ih⟩
        obtain ⟨ev', hev, he⟩ := List.mem_map.mp hm
        exact (mem_chosen hev).2.2.2 (he ▸ List.mem_append_right _ List.mem_cons_self)
      · exact ih

theorem mem_of_mapM {α β ε : Type} {f : α → Except ε β} {l : List α} {l' : List β}
    (h : l.mapM f = .ok l') {b : β} (hb : b ∈ l') : ∃ a ∈ l, f a = .ok b := by
  induction l generalizing l' with
  | nil =>
    cases h
    cases hb
  | cons a l ih =>
    rw [List.mapM_cons] at h
    cases hf : f a with
    | error err =>
      rw [hf] at h
      cases h
    | ok c =>
      cases hl : l.mapM f with
      | error err =>
        rw [hf, hl] at h
        cases h
      | ok l'' =>
        rw [hf, hl] at h
        cases h
        rcases List.mem_cons.mp hb with rfl | hb
        · exact ⟨a, List.mem_cons_self, hf⟩
        · obtain ⟨a', ha', he⟩ := ih hl hb
          exact ⟨a', List.mem_cons_of_mem _ ha', he⟩

theorem isHash_of_newsEventOf {countSurge toneMin : ℚ} {baselineDays recentDays : ℤ}
    {symbol : String} {items : List (Datetime × Dict String Value)} {ev : NewsEvent}
    (h : newsEventOf D asOf countSurge toneMin baselineDays recentDays symbol items =
      .ok (some ev)) : IsHash ev.storyHash := by
  unfold newsEventOf at h
  dsimp only at h
  split at h
  · cases h
  · split at h
    · cases h
    · split at h
      · cases h
      · cases h
        exact isHash_storyHashOf D _

theorem isHash_of_mem_detectNewsEvents {symbols : List String} {countSurge toneMin : ℚ}
    {baselineDays : ℤ} {evs : List NewsEvent}
    (h : detectNewsEvents D s asOf symbols countSurge toneMin baselineDays = .ok evs)
    {ev : NewsEvent} (hev : ev ∈ evs) : IsHash ev.storyHash := by
  unfold detectNewsEvents at h
  set found := (articlesWithin s asOf symbols baselineDays).toList.mapM (fun p ↦
    newsEventOf D asOf countSurge toneMin baselineDays 1 p.1 p.2) with hfound
  cases hm : found with
  | error err =>
    rw [hm] at h
    cases h
  | ok l =>
    rw [hm] at h
    cases h
    obtain ⟨a, -, ha⟩ := mem_of_mapM (hfound.symm.trans hm) (List.reduceOption_mem_iff.mp hev)
    exact isHash_of_newsEventOf ha

theorem detectNewsEvents_insertAll (hD : Function.Injective D.uuid5) (h : Identified D s)
    {l : List Observation} (hl : ∀ r ∈ l, HasIdentity D r ∧ r.dataset = sleeveDataset)
    (symbols : List String) (countSurge toneMin : ℚ) (baselineDays : ℤ) :
    detectNewsEvents D (s.insertAll l) asOf symbols countSurge toneMin baselineDays =
      detectNewsEvents D s asOf symbols countSurge toneMin baselineDays := by
  have hread : InMemoryBitemporalStore.asOf (s.insertAll l) asOf { dataset := some newsDataset } =
      InMemoryBitemporalStore.asOf s asOf { dataset := some newsDataset } :=
    asOf_insertAll_dataset hD h fun r hr ↦ ⟨(hl r hr).1, (hl r hr).2 ▸ by decide⟩
  simp only [detectNewsEvents, articlesWithin, hread]

/-! ### The two halves of a pass -/

def closedPass (D : Digests) (settings : Settings) (prices : Dict String ℚ) (asOf : Datetime)
    (s : InMemoryBitemporalStore) (active : Dict String SleevePosition) : SleevePass :=
  active.toList.foldl (closeStep D settings prices asOf) { store := s }

def remaining (settings : Settings) (prices : Dict String ℚ) (asOf : Datetime)
    (active : Dict String SleevePosition) : List String :=
  (active.toList.filter (fun a ↦ !isDue settings prices asOf a)).map Prod.fst

def briefing (prices : Dict String ℚ) (s : InMemoryBitemporalStore) (asOf : Datetime) :
    Briefing where
  prices := prices
  acted := actedStoryHashes s asOf
  lastAction := lastActionTime s asOf

theorem closedPass_spec (D : Digests) (settings : Settings) (prices : Dict String ℚ)
    (asOf : Datetime) (s : InMemoryBitemporalStore) (active : Dict String SleevePosition) :
    let p := closedPass D settings prices asOf s active
    let dues := closings D settings prices asOf active
    p.opened = [] ∧ p.closed = dues.map Prod.fst ∧
      p.target = Dict.setAll .empty (dues.map Prod.fst) 0 ∧
      p.store = s.insertAll (dues.map Prod.snd) := by
  obtain ⟨ho, hc, ht, hs⟩ := foldl_closeWith (isDue settings prices asOf)
    (fun store a ↦
      recordClose D store a.1 asOf a.2.storyHash (closeReason settings prices a))
    (fun a ↦ closeRow D a.1 asOf a.2.storyHash (closeReason settings prices a)) (fun _ _ ↦ rfl)
    active.toList { store := s }
  have hrows : (closings D settings prices asOf active).map Prod.snd =
      (active.toList.filter (isDue settings prices asOf)).map
        (fun a ↦ closeRow D a.1 asOf a.2.storyHash (closeReason settings prices a)) := by
    simp [closings, Function.comp_def]
  dsimp only
  rw [closings_names, hrows]
  exact ⟨ho, hc, ht, hs⟩

variable (D settings) in
theorem closePhase_eq {watchlist : List String}
    (ha : activeSleevePositions s asOf = .ok active)
    (hp : latestPrices s asOf watchlist = .ok prices) :
    closePhase D settings s watchlist asOf = .ok (closedPass D settings prices asOf s active,
      briefing prices s asOf, remaining settings prices asOf active) := by
  have hc := (closedPass_spec D settings prices asOf s active).2.1
  unfold closePhase
  rw [hp, ha]
  change Except.ok (closedPass D settings prices asOf s active, briefing prices s asOf,
    active.keys.filter (· ∉ (closedPass D settings prices asOf s active).closed)) = _
  rw [hc, closings_names, keys_filter_not_due]
  rfl

theorem hasIdentity_closings {r : Observation}
    (hr : r ∈ (closings D settings prices asOf active).map Prod.snd) :
    HasIdentity D r ∧ r.dataset = sleeveDataset := by
  simp only [closings, List.map_map, List.mem_map, Function.comp_apply] at hr
  obtain ⟨a, -, rfl⟩ := hr
  exact ⟨hasIdentity_sleeveRow bar_not_mem_sleeveDataset, rfl⟩

variable (settings) in
/-- The decision read off the state before the pass, for any events that it may act on. -/
theorem openLoop_spec (hl : Ledger D sleeveDataset (IsRow D) s)
    (ha : activeSleevePositions s asOf = .ok active) {b : Briefing} (hb : b.prices = prices)
    {evs : List NewsEvent} (hevs : ∀ ev ∈ evs, IsHash ev.storyHash) (live : List String) :
    PassSpec D sleeveDataset (IsRow D) asOf (perName settings) s
      (closings D settings prices asOf active)
      (openings D settings prices asOf (chosen settings asOf b evs live))
      (openLoop D settings asOf b evs (closedPass D settings prices asOf s active) live) := by
  obtain ⟨hco, hcc, hct, hcs⟩ := closedPass_spec D settings prices asOf s active
  obtain ⟨hoc, hoo, hot, hos⟩ := foldl_openWith (perName settings)
    (openings D settings prices asOf (chosen settings asOf b evs live))
    (closedPass D settings prices asOf s active)
  rw [openLoop_eq, hb]
  rw [hco, List.nil_append] at hoo
  refine ⟨?_, hoo, ?_, ?_, ?_, ?_, ?_, ?_, ?_⟩
  · rw [hoc, hcc]
  · rw [hot, hoo, hct, hoc, hcc]
    rfl
  · rw [hos, hcs]
  · simp only [closings, List.map_map, Function.comp_def]
    exact (active.nodup).sublist (List.filter_sublist.map _)
  · simp only [openings, List.map_map, Function.comp_def]
    exact nodup_chosen evs
  · intro a hm
    simp only [closings, List.mem_map, List.mem_filter] at hm
    obtain ⟨c, ⟨hc, -⟩, rfl⟩ := hm
    have hr := closeReason_or settings prices c
    have hh := isHash_of_active ha hl hc
    exact ⟨.inr ⟨c.1, asOf, _, _, hh, hr, rfl⟩, _, _, hh.bar_not_mem_closeRef hr, rfl⟩
  · intro a hm
    simp only [openings, List.mem_map] at hm
    obtain ⟨ev, hev, rfl⟩ := hm
    have hh := hevs ev (mem_chosen hev).1
    exact ⟨.inl ⟨ev.symbol, asOf, _, _, _, hh, rfl⟩, _, _, hh.bar_not_mem, rfl⟩
  · intro a hm
    simp only [openings, List.mem_map] at hm
    obtain ⟨ev, -, rfl⟩ := hm
    have hf : '|' ∉ "forecast".toList := by decide
    have hpd : '|' ∉ predictionDataset.toList := by decide
    exact ⟨⟨rfl, hf, hpd⟩, (by decide : predictionDataset ≠ sleeveDataset)⟩

/-! ### The ledger after a pass -/

/-- The row that counts for the name, if any, is from before this time. -/
def Earlier (s : InMemoryBitemporalStore) (asOf : Datetime) (symbol : String) : Prop :=
  ∀ o, standing newer s sleeveDataset symbol asOf = some o → o.eventTime < asOf

theorem earlier_iff {symbol : String} {o : Observation}
    (ho : standing newer s sleeveDataset symbol asOf = some o) :
    Earlier s asOf symbol ↔ o.eventTime < asOf := by
  simp [Earlier, ho]

theorem eq_closeRow (hl : Ledger D sleeveDataset (IsRow D) s) {symbol hash reason : String}
    (hh : IsHash hash) {value : Dict String Value}
    (h : ({ closeRow D symbol asOf hash reason with value := value } : Observation) ∈ s.toList) :
    closeRow D symbol asOf hash reason ∈ s.toList := by
  rcases hl.rows _ h rfl with ⟨symbol', t, price, exitBy, hash', hh', he⟩ |
    ⟨symbol', t, hash', reason', hh', -, he⟩
  · exact absurd (Option.some_inj.mp (congrArg Observation.ref he)).symm
      (hh'.ne_closeRef hash reason)
  · obtain rfl : symbol = symbol' := congrArg Observation.entityId he
    obtain rfl : asOf = t := congrArg Observation.eventTime he
    obtain ⟨rfl, rfl⟩ := hh.closeRef_inj hh' (Option.some_inj.mp (congrArg Observation.ref he))
    exact he ▸ h

section Pass

variable {b : Briefing} {evs : List NewsEvent} {p : SleevePass} {symbol : String}

theorem mem_closed_iff {opens} (symbol : String)
    (hp : PassSpec D sleeveDataset (IsRow D) asOf (perName settings) s
      (closings D settings prices asOf active) opens p) :
    symbol ∈ p.closed ↔ ∃ a ∈ active.toList, isDue settings prices asOf a ∧ a.1 = symbol := by
  rw [hp.closed, closings_names]
  simp [List.mem_filter, and_assoc]

theorem mem_opened_iff {dues} (symbol : String)
    (hp : PassSpec D sleeveDataset (IsRow D) asOf (perName settings) s dues
      (openings D settings prices asOf evs) p) :
    symbol ∈ p.opened ↔ ∃ ev ∈ evs, ev.symbol = symbol := by
  rw [hp.opened]
  simp [openings]

variable (hD : Function.Injective D.uuid5) (hl : Ledger D sleeveDataset (IsRow D) s)
  (ha : activeSleevePositions s asOf = .ok active) {opens}
  (hp : PassSpec D sleeveDataset (IsRow D) asOf (perName settings) s
    (closings D settings prices asOf active) opens p)

include hD hl ha hp

/-- A close counts if no row of the name is as late as the pass; else the open stands. -/
theorem standing_after_close {a : String × SleevePosition} (hm : a ∈ active.toList)
    (hd : isDue settings prices asOf a) :
    ∃ o, standing newer (s.insertAll ((closings D settings prices asOf active).map Prod.snd))
      sleeveDataset a.1 asOf = some o ∧ ¬o.eventTime < asOf ∧
        (isOpen o ↔ ¬Earlier s asOf a.1) := by
  have hrows := fun o ↦ isSleeveRow_of_isRow (D := D) (o := o)
  set row := closeRow D a.1 asOf a.2.storyHash (closeReason settings prices a) with hrow
  have hdue : (a.1, row) ∈ closings D settings prices asOf active :=
    List.mem_map_of_mem (List.mem_filter.mpr ⟨hm, hd⟩)
  obtain ⟨hnew, hold⟩ := hp.standing_of_closed (k := asOf) bar_not_mem_sleeveDataset hD hrows hl
    newer hdue
  obtain ⟨o, ho, hopen⟩ := (mem_keys_active ha hl).mp (Keyed.mem_keys.mpr ⟨a, hm, rfl⟩)
  have hlate : ∀ value, ({ row with value := value } : Observation) ∈ s.toList →
      asOf ≤ o.eventTime := fun value hv ↦
    eventTime_le_of_standing ho (mem_journal.mpr ⟨hv, le_refl asOf, rfl, rfl⟩)
  rw [earlier_iff ho]
  by_cases hlt : o.eventTime < asOf
  · rw [hnew fun value hv ↦ not_lt.mpr (hlate value hv) hlt, ho]
    have hb : newer o row := decide_eq_true hlt
    rw [challenge, if_pos hb]
    exact ⟨row, rfl, lt_irrefl asOf, iff_of_false (not_isOpen_closeRow _ _ _ _) (not_not.mpr hlt)⟩
  · refine ⟨o, ?_, hlt, iff_of_true hopen hlt⟩
    by_cases hin : row ∈ s.toList
    · exact (hold hin).trans ho
    · rw [hnew fun value hv ↦ hin (eq_closeRow hl (isHash_of_active ha hl hm) hv), ho]
      have hb : ¬newer o row := fun h ↦ hlt (of_decide_eq_true h)
      rw [challenge, if_neg hb]

variable (symbol) in
theorem open_after_closing_iff :
    (∃ o, standing newer (s.insertAll ((closings D settings prices asOf active).map Prod.snd))
      sleeveDataset symbol asOf = some o ∧ isOpen o) ↔
    symbol ∈ active.keys ∧ (symbol ∈ p.closed → ¬Earlier s asOf symbol) := by
  by_cases hc : symbol ∈ p.closed
  · obtain ⟨a, hm, hd, rfl⟩ := (mem_closed_iff symbol hp).mp hc
    obtain ⟨o, ho, -, hiff⟩ := standing_after_close hD hl ha hp hm hd
    have hkey : a.1 ∈ active.keys := Keyed.mem_keys.mpr ⟨a, hm, rfl⟩
    simp only [ho, Option.some_inj, exists_eq_left', hiff, hkey, hc, true_and, true_imp_iff]
  · rw [hp.standing_of_not_closed (k := asOf) bar_not_mem_sleeveDataset hD
      (fun _ ↦ isSleeveRow_of_isRow) hl newer hc, ← mem_keys_active ha hl]
    simp [hc]

omit hD ha hp in
theorem not_mem_closing {ev : NewsEvent} (hev : IsHash ev.storyHash)
    (hacted : ev.storyHash ∉ actedStoryHashes s asOf) (value : Dict String Value) :
    sleeveRow D sleeveDataset ev.symbol ev.storyHash asOf value ∉
      (s.insertAll ((closings D settings prices asOf active).map Prod.snd)).toList := by
  intro hm
  rcases Keyed.mem_of_mem_insertAll hm with hm | hm
  · exact hacted (mem_actedStoryHashes hl hev hm (le_refl asOf))
  · simp only [closings, List.map_map, List.mem_map, Function.comp_apply] at hm
    obtain ⟨a, -, he⟩ := hm
    exact hev.ne_closeRef _ _ (Option.some_inj.mp (congrArg Observation.ref he)).symm

end Pass

theorem mem_active_after_iff (hD : Function.Injective D.uuid5)
    (hl : Ledger D sleeveDataset (IsRow D) s) (ha : activeSleevePositions s asOf = .ok active)
    {b : Briefing} (hb : b.acted = actedStoryHashes s asOf) {evs : List NewsEvent}
    (hevs : ∀ ev ∈ evs, IsHash ev.storyHash) {p : SleevePass}
    (hp : PassSpec D sleeveDataset (IsRow D) asOf (perName settings) s
      (closings D settings prices asOf active) (openings D settings prices asOf
        (chosen settings asOf b evs (remaining settings prices asOf active))) p)
    {active' : Dict String SleevePosition} (ha' : activeSleevePositions p.store asOf = .ok active')
    (symbol : String) :
    symbol ∈ active'.keys ↔
      (symbol ∈ p.opened ∧ symbol ∉ active.keys ∧ Earlier s asOf symbol) ∨
        symbol ∈ active.keys ∧ (symbol ∈ p.closed → ¬Earlier s asOf symbol) := by
  have hrows := fun o ↦ isSleeveRow_of_isRow (D := D) (o := o)
  have hclosing := open_after_closing_iff symbol hD hl ha hp
  rw [mem_keys_active ha' (hp.ledger_after bar_not_mem_sleeveDataset hl)]
  by_cases ho : symbol ∈ p.opened
  · obtain ⟨ev, hev, rfl⟩ := (mem_opened_iff symbol hp).mp ho
    obtain ⟨hin, hpr, hacted, hlive⟩ := mem_chosen hev
    have hopen : (ev.symbol, openRow D ev.symbol asOf ((Dict.get? prices ev.symbol).getD 0)
        (asOf + Timedelta.ofDays settings.newsSleeveHoldDays) ev.storyHash,
        (prediction asOf settings.newsSleeveHoldDays ev).toObservation D) ∈
          openings D settings prices asOf
            (chosen settings asOf b evs (remaining settings prices asOf active)) :=
      List.mem_map_of_mem hev
    rw [hp.standing_of_opened bar_not_mem_sleeveDataset hD hrows hl newer hopen
      (not_mem_closing hl (hevs ev hin) (hb ▸ hacted))]
    by_cases hk : ev.symbol ∈ active.keys
    · -- the name was closed in this pass, and the open does not get past a row of the same time
      obtain ⟨a, hm, he⟩ := Keyed.mem_keys.mp hk
      have hd : isDue settings prices asOf a := by
        by_contra hd
        exact hlive (List.mem_map.mpr ⟨a, List.mem_filter.mpr ⟨hm, by simpa using hd⟩, he⟩)
      obtain ⟨o, hst, hlt, -⟩ := standing_after_close hD hl ha hp hm hd
      rw [he] at hst
      have hnb : ¬newer o (openRow D ev.symbol asOf ((Dict.get? prices ev.symbol).getD 0)
          (asOf + Timedelta.ofDays settings.newsSleeveHoldDays) ev.storyHash) :=
        fun h ↦ hlt (of_decide_eq_true h)
      rw [hst, challenge, if_neg hnb, ← hst, hclosing]
      simp [hk]
    · have hc : ev.symbol ∉ p.closed := by
        intro hc
        obtain ⟨a, hm, -, he⟩ := (mem_closed_iff ev.symbol hp).mp hc
        exact hk (Keyed.mem_keys.mpr ⟨a, hm, he⟩)
      rw [hp.standing_of_not_closed (k := asOf) bar_not_mem_sleeveDataset hD hrows hl newer hc]
      simp only [ho, hk, not_false_eq_true, true_and, false_and, or_false]
      cases hst : standing newer s sleeveDataset ev.symbol asOf with
      | none => exact iff_of_true ⟨_, rfl, isOpen_openRow ..⟩ fun o ho ↦ by rw [hst] at ho; cases ho
      | some o =>
        rw [earlier_iff hst]
        by_cases hlt : o.eventTime < asOf
        · have hbt : newer o (openRow D ev.symbol asOf ((Dict.get? prices ev.symbol).getD 0)
              (asOf + Timedelta.ofDays settings.newsSleeveHoldDays) ev.storyHash) :=
            decide_eq_true hlt
          rw [challenge, if_pos hbt]
          exact iff_of_true ⟨_, rfl, isOpen_openRow ..⟩ hlt
        · have hbt : ¬newer o (openRow D ev.symbol asOf ((Dict.get? prices ev.symbol).getD 0)
              (asOf + Timedelta.ofDays settings.newsSleeveHoldDays) ev.storyHash) :=
            fun h ↦ hlt (of_decide_eq_true h)
          rw [challenge, if_neg hbt]
          refine iff_of_false ?_ hlt
          rintro ⟨o', ho', hopen'⟩
          exact hk ((mem_keys_active ha hl).mpr ⟨o', hst.trans ho', hopen'⟩)
  · rw [hp.standing_of_not_opened (k := asOf) bar_not_mem_sleeveDataset hD hrows hl newer ho,
      hclosing]
    simp [ho]

end MarketTrader.Runtime.NewsSleeve
