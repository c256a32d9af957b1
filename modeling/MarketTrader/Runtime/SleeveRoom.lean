import MarketTrader.Runtime.InsiderAgreement
import MarketTrader.Runtime.NewsAgreement
import MarketTrader.Runtime.Spares

namespace MarketTrader.Runtime

open Library MarketTrader.Core Storage InMemoryBitemporalStore Config Portfolio Execution

variable {β π : Type} {D : Digests} {dataset : String} {s s' : InMemoryBitemporalStore}
  {asOf : Datetime} {n : ℕ} {better : Observation → Observation → Bool}
  {read : Observation → Except TradingError π}

/-- Whoever knows the whole ledger sees no more than this many names in it. -/
def AtMost (better : Observation → Observation → Bool)
    (read : Observation → Except TradingError π) (dataset : String) (n : ℕ)
    (s : InMemoryBitemporalStore) : Prop :=
  ∀ now, KnownBy dataset s now → ∃ active,
    activePositions better read dataset s now = .ok active ∧ active.keys.length ≤ n

theorem Spares.mem_of_mem' (hD : Function.Injective D.uuid5) (hi : Identified D s)
    (h : Spares D dataset s s') {o : Observation} (ho : o ∈ s.toList) (hd : o.dataset = dataset) :
    o ∈ s'.toList := by
  apply h.mem ho
  intro r hr hid
  exact hr.2 ((dataset_eq_of_id_eq hD hr.1 (hi o ho) hid).trans hd)

theorem Spares.knownBy (h : Spares D dataset s s') {now : Datetime} (hk : KnownBy dataset s now) :
    KnownBy dataset s' now := by
  intro o ho hd
  exact hk o (h.mem_of_mem ho hd) hd

theorem Spares.atMost (hD : Function.Injective D.uuid5) (hi : Identified D s)
    (h : Spares D dataset s s') (hs : AtMost better read dataset n s) :
    AtMost better read dataset n s' := by
  intro now hk
  obtain ⟨active, ha, hn⟩ := hs now fun o ho hd ↦ hk o (h.mem_of_mem' hD hi ho hd) hd
  exact ⟨active, (h.activePositions_eq hD hi better read now).trans ha, hn⟩

theorem activePositions_of_no_rows (h : ∀ o ∈ s.toList, o.dataset ≠ dataset) (now : Datetime) :
    activePositions better read dataset s now = .ok .empty := by
  have hread : s.asOf now { dataset := some dataset } = [] := by
    rw [List.eq_nil_iff_forall_not_mem]
    intro o ho
    obtain ⟨hm, -, hd⟩ := mem_asOf_dataset ho
    exact h o hm hd
  unfold activePositions
  rw [hread]
  rfl

theorem eq_empty_of_no_rows {now : Datetime} {active : Dict String π}
    (h : ∀ o ∈ s.toList, o.dataset ≠ dataset)
    (ha : activePositions better read dataset s now = .ok active) : active = .empty :=
  Except.ok.inj (ha.symm.trans (activePositions_of_no_rows h now))

theorem atMost_of_no_rows (h : ∀ o ∈ s.toList, o.dataset ≠ dataset) :
    AtMost better read dataset n s := by
  intro now _
  exact ⟨.empty, activePositions_of_no_rows h now, Nat.zero_le n⟩

theorem length_le_of_mem_or {names opened kept : List String} (hn : names.Nodup)
    (h : ∀ name ∈ names, name ∈ opened ∨ name ∈ kept) :
    names.length ≤ opened.length + kept.length := by
  rw [← List.length_append]
  apply (List.subperm_of_subset hn _).length_le
  intro name hname
  exact List.mem_append.mpr (h name hname)

section Pass

variable {IsRow : Observation → Prop} {weight : ℚ} {dues : List (String × Observation)}
  {opens : List (String × Observation × Observation)} {p : SleevePass}

theorem PassSpec.knownBy (hp : PassSpec D dataset IsRow asOf weight s dues opens p)
    (h : KnownBy dataset s asOf) : KnownBy dataset p.store asOf := by
  intro o ho hd
  rw [hp.store] at ho
  rcases Keyed.mem_of_mem_insertAll ho with ho | ho
  · rcases Keyed.mem_of_mem_insertAll ho with ho | ho
    · exact h o ho hd
    · obtain ⟨a, ha, rfl⟩ := List.mem_map.mp ho
      obtain ⟨-, ref, value, -, he⟩ := hp.closeRows a ha
      rw [he]
      exact le_refl asOf
  · obtain ⟨a, ha, hm⟩ := List.mem_flatMap.mp ho
    rcases List.mem_pair.mp hm with rfl | rfl
    · obtain ⟨-, ref, value, -, he⟩ := hp.openRows a ha
      rw [he]
      exact le_refl asOf
    · exact absurd hd (hp.logged a ha).2

theorem PassSpec.atMost (hp : PassSpec D dataset IsRow asOf weight s dues opens p)
    (h : KnownBy dataset s asOf) {active : Dict String π}
    (ha : activePositions better read dataset p.store asOf = .ok active)
    (hn : active.keys.length ≤ n) : AtMost better read dataset n p.store := by
  intro now hk
  exact ⟨active, (activePositions_of_knownBy hk (hp.knownBy h) better read).trans ha, hn⟩

theorem PassSpec.spares (hp : PassSpec D dataset IsRow asOf weight s dues opens p)
    (hd : '|' ∉ dataset.toList) {other : String} (hother : dataset ≠ other)
    (hlog : ∀ a ∈ opens, a.2.2.dataset ≠ other) : Spares D other s p.store := by
  rw [hp.store, ← Keyed.insertAll_append]
  refine ⟨_, fun r hr ↦ ?_, rfl⟩
  rcases List.mem_append.mp hr with hr | hr
  · obtain ⟨a, ha, rfl⟩ := List.mem_map.mp hr
    obtain ⟨-, ref, value, -, he⟩ := hp.closeRows a ha
    rw [he]
    exact ⟨hasIdentity_sleeveRow hd, hother⟩
  · obtain ⟨a, ha, hm⟩ := List.mem_flatMap.mp hr
    rcases List.mem_pair.mp hm with rfl | rfl
    · obtain ⟨-, ref, value, -, he⟩ := hp.openRows a ha
      rw [he]
      exact ⟨hasIdentity_sleeveRow hd, hother⟩
    · exact ⟨(hp.logged a ha).1, hlog a ha⟩

end Pass

theorem length_filter_keys_le (active : Dict String π) (p : String × π → Bool) :
    ((active.toList.filter p).map Prod.fst).length ≤ active.keys.length := by
  rw [Keyed.keys, List.length_map, List.length_map]
  exact List.length_filter_le _ _

/-! ### The news sleeve -/

namespace NewsSleeve

variable {B : Broker β} {settings : Settings} {w : World β} {fetched : List Observation}
  {watchlist : List String} {limits : Option RiskLimits} {active : Dict String SleevePosition}
  {prices : Dict String ℚ}

/-- What the pass closes is closed: no due name has a row as late as the pass. -/
def Closes (settings : Settings) (s : InMemoryBitemporalStore) (watchlist : List String)
    (asOf : Datetime) : Prop :=
  ∀ active prices, activeSleevePositions s asOf = .ok active →
    latestPrices s asOf watchlist = .ok prices →
      ∀ a ∈ active.toList, isDue settings prices asOf a → Earlier s asOf a.1

theorem length_chosen (settings : Settings) (asOf : Datetime) (b : Briefing)
    (evs : List NewsEvent) (live : List String) :
    (chosen settings asOf b evs live).length + live.length ≤
      max settings.newsSleeveMaxNames.toNat live.length := by
  induction evs generalizing live with
  | nil => simp [chosen]
  | cons ev rest ih =>
    rw [chosen]
    split
    · simp
    · split
      · have h := ih (live ++ [ev.symbol])
        rw [List.length_append, List.length_singleton] at h
        rw [List.length_cons]
        omega
      · exact ih live

/-- The names on record after a pass are opened, or were there and are not due. -/
theorem length_active_after (hD : Function.Injective D.uuid5)
    (hl : Ledger D sleeveDataset (IsRow D) s) (ha : activeSleevePositions s asOf = .ok active)
    (hc : ∀ a ∈ active.toList, isDue settings prices asOf a → Earlier s asOf a.1)
    (hn : active.keys.length ≤ settings.newsSleeveMaxNames.toNat) {evs : List NewsEvent}
    (hevs : ∀ ev ∈ evs, IsHash ev.storyHash) {p : SleevePass}
    (hp : PassSpec D sleeveDataset (IsRow D) asOf (perName settings) s
      (closings D settings prices asOf active)
      (openings D settings prices asOf (chosen settings asOf (briefing prices s asOf) evs
        (remaining settings prices asOf active))) p) :
    ∃ active', activeSleevePositions p.store asOf = .ok active' ∧
      active'.keys.length ≤ settings.newsSleeveMaxNames.toNat := by
  obtain ⟨active', ha'⟩ := activeSleevePositions_total
    (hp.ledger_after bar_not_mem_sleeveDataset hl) asOf
  refine ⟨active', ha', ?_⟩
  have hfrom : ∀ name ∈ active'.keys,
      name ∈ p.opened ∨ name ∈ remaining settings prices asOf active := by
    intro name hname
    rcases (mem_active_after_iff hD hl ha rfl hevs hp ha' name).mp hname with ⟨ho, -⟩ | ⟨hk, hnot⟩
    · exact .inl ho
    · right
      obtain ⟨a, hm, rfl⟩ := Keyed.mem_keys.mp hk
      by_cases hd : isDue settings prices asOf a
      · exact absurd (hc a hm hd) (hnot ((mem_closed_iff a.1 hp).mpr ⟨a, hm, hd, rfl⟩))
      · exact List.mem_map.mpr ⟨a, List.mem_filter.mpr ⟨hm, by simpa using hd⟩, rfl⟩
  have hopened : p.opened.length = (chosen settings asOf (briefing prices s asOf) evs
      (remaining settings prices asOf active)).length := by
    rw [hp.opened, List.length_map, openings, List.length_map]
  have hall : active'.keys.length ≤ p.opened.length +
      (remaining settings prices asOf active).length := length_le_of_mem_or active'.nodup hfrom
  have hroom := length_chosen settings asOf (briefing prices s asOf) evs
    (remaining settings prices asOf active)
  have hrem : (remaining settings prices asOf active).length ≤ active.keys.length :=
    length_filter_keys_le active _
  omega

/-- The events that a pass goes through. -/
def detected (D : Digests) (settings : Settings) (s : InMemoryBitemporalStore)
    (watchlist : List String) (asOf : Datetime) : List NewsEvent :=
  match detectNewsEvents D s asOf watchlist settings.newsSleeveCountSurge
      settings.newsSleeveToneMin settings.newsSleeveBaselineDays with
  | .error _ => []
  | .ok events => sortBy (fun ev : NewsEvent ↦ OrderDual.toDual ev.confidence) events

theorem isHash_of_mem_detected {ev : NewsEvent}
    (h : ev ∈ detected D settings s watchlist asOf) : IsHash ev.storyHash := by
  unfold detected at h
  split at h
  · cases h
  · next he => exact isHash_of_mem_detectNewsEvents he (mem_sortBy.mp h)

theorem detected_closedPass (hD : Function.Injective D.uuid5) (hi : Identified D s) :
    detected D settings (closedPass D settings prices asOf s active).store watchlist asOf =
      detected D settings s watchlist asOf := by
  unfold detected
  rw [(closedPass_spec D settings prices asOf s active).2.2.2,
    detectNewsEvents_insertAll hD hi fun r hr ↦ hasIdentity_closings hr]

/-- What a pass leaves in the store: it fails before it decides, or its decision is on record. -/
theorem run_store_cases (D : Digests) (B : Broker β) (settings : Settings) (w : World β)
    (hf : Wire fetched) (watchlist : List String) (limits : Option RiskLimits) (asOf : Datetime)
    (hl : Ledger D sleeveDataset (IsRow D) w.store) :
    let s := received D w.store fetched
    let out := (runNewsSleeveCycle D B settings w fetched watchlist limits asOf).2
    ((∃ err, latestPrices s asOf watchlist = .error err) ∧ out.store = s) ∨
      ∃ active prices p, activeSleevePositions s asOf = .ok active ∧
        latestPrices s asOf watchlist = .ok prices ∧
        PassSpec D sleeveDataset (IsRow D) asOf (perName settings) s
          (closings D settings prices asOf active)
          (openings D settings prices asOf (chosen settings asOf (briefing prices s asOf)
            (detected D settings (closedPass D settings prices asOf s active).store watchlist asOf)
            (remaining settings prices asOf active))) p ∧ out.store = p.store := by
  intro s out
  have hl' : Ledger D sleeveDataset (IsRow D) s := ledger_received hf hl
  obtain ⟨active, ha⟩ := activeSleevePositions_total hl' asOf
  cases hp : latestPrices s asOf watchlist with
  | error err =>
    have hclose : closePhase D settings s watchlist asOf = .error err := by
      unfold closePhase
      rw [hp]
      rfl
    exact .inl ⟨⟨err, rfl⟩, congrArg World.store (run_of_close_error hclose)⟩
  | ok prices =>
    right
    have hclose := closePhase_eq D settings ha hp
    have hspec := openLoop_spec settings (b := briefing prices s asOf) hl' ha rfl
      (fun ev (hev : ev ∈ detected D settings (closedPass D settings prices asOf s active).store
        watchlist asOf) ↦ isHash_of_mem_detected hev) (remaining settings prices asOf active)
    refine ⟨active, prices, _, ha, rfl, hspec, ?_⟩
    cases hopen : openPhase D settings watchlist asOf (closedPass D settings prices asOf s active)
        (briefing prices s asOf) (remaining settings prices asOf active) with
    | error err =>
      have hstore := congrArg World.store
        (run_of_open_error limits (B := B) (w := w) hclose hopen)
      unfold openPhase at hopen
      unfold detected
      cases he : detectNewsEvents D (closedPass D settings prices asOf s active).store asOf
          watchlist settings.newsSleeveCountSurge settings.newsSleeveToneMin
          settings.newsSleeveBaselineDays with
      | error err => exact hstore
      | ok events =>
        rw [he] at hopen
        cases hopen
    | ok p =>
      have hstore := congrArg World.store (run_of_opened limits (B := B) (w := w) hclose hopen)
      rw [executePass_world rfl] at hstore
      unfold openPhase at hopen
      unfold detected
      cases he : detectNewsEvents D (closedPass D settings prices asOf s active).store asOf
          watchlist settings.newsSleeveCountSurge settings.newsSleeveToneMin
          settings.newsSleeveBaselineDays with
      | error err =>
        rw [he] at hopen
        cases hopen
      | ok events =>
        rw [he] at hopen
        cases hopen
        exact hstore

theorem spares_received (hf : Wire fetched) (hne : newsDataset ≠ dataset)
    (s : InMemoryBitemporalStore) : Spares D dataset s (received D s fetched) := by
  obtain ⟨l, he, hr⟩ := received_eq (D := D) (s := s) hf
  refine ⟨l, fun r hm ↦ ⟨(hr r hm).1, ?_⟩, he⟩
  rw [(hr r hm).2]
  exact hne

section Run

variable (hf : Wire fetched) (hl : Ledger D sleeveDataset (IsRow D) w.store)

include hf hl

theorem ledger_run : Ledger D sleeveDataset (IsRow D)
    (runNewsSleeveCycle D B settings w fetched watchlist limits asOf).2.store := by
  have hl' := ledger_received hf hl
  rcases run_store_cases D B settings w hf watchlist limits asOf hl with
    ⟨-, he⟩ | ⟨active, prices, p, -, -, hp, he⟩
  · rw [he]
    exact hl'
  · rw [he]
    exact hp.ledger_after bar_not_mem_sleeveDataset hl'

variable (B settings watchlist limits asOf) in
theorem spares_run {other : String}
    (hother : other ∉ [newsDataset, sleeveDataset, Feedback.predictionDataset]) :
    Spares D other w.store
      (runNewsSleeveCycle D B settings w fetched watchlist limits asOf).2.store := by
  simp only [List.mem_cons, List.not_mem_nil, or_false, not_or] at hother
  obtain ⟨hnews, hsleeve, hlog⟩ := hother
  have hin : Spares D other w.store (received D w.store fetched) :=
    spares_received hf (Ne.symm hnews) w.store
  rcases run_store_cases D B settings w hf watchlist limits asOf hl with
    ⟨-, he⟩ | ⟨active, prices, p, -, -, hp, he⟩
  · rw [he]
    exact hin
  · rw [he]
    apply hin.trans
    apply hp.spares bar_not_mem_sleeveDataset (Ne.symm hsleeve)
    intro a ha
    obtain ⟨ev, -, rfl⟩ := List.mem_map.mp ha
    exact Ne.symm hlog

theorem atMost_run (hD : Function.Injective D.uuid5) (hk : KnownBy sleeveDataset w.store asOf)
    (hc : Closes settings (received D w.store fetched) watchlist asOf)
    (h : AtMost newer readPosition sleeveDataset settings.newsSleeveMaxNames.toNat w.store) :
    AtMost newer readPosition sleeveDataset settings.newsSleeveMaxNames.toNat
      (runNewsSleeveCycle D B settings w fetched watchlist limits asOf).2.store := by
  have hl' := ledger_received hf hl
  have hin : Spares D sleeveDataset w.store (received D w.store fetched) :=
    spares_received hf (by decide) w.store
  have hk' : KnownBy sleeveDataset (received D w.store fetched) asOf := hin.knownBy hk
  have h' := hin.atMost hD hl.identified h
  rcases run_store_cases D B settings w hf watchlist limits asOf hl with
    ⟨-, he⟩ | ⟨active, prices, p, ha, hpr, hp, he⟩
  · rw [he]
    exact h'
  · obtain ⟨active₀, ha₀, hn⟩ := h' asOf hk'
    obtain rfl : active₀ = active := Except.ok.inj (ha₀.symm.trans ha)
    obtain ⟨active', ha', hn'⟩ := length_active_after hD hl' ha (hc _ _ ha hpr) hn
      (fun ev hev ↦ isHash_of_mem_detected hev) hp
    rw [he]
    exact hp.atMost hk' ha' hn'

end Run

end NewsSleeve

/-! ### The insider sleeve -/

namespace InsiderSleeve

variable {B : Broker β} {settings : Settings} {w : World β} {universeNames : List String}
  {gate : Gate} {active : Dict String InsiderSleevePosition} {prices : Dict String ℚ}

/-- What the pass closes is closed: no due name has the row of its close already. -/
def Closes (D : Digests) (settings : Settings) (s : InMemoryBitemporalStore)
    (universeNames : List String) (asOf : Datetime) : Prop :=
  ∀ active prices, activeInsiderPositions s asOf = .ok active →
    latestPrices s asOf (universeNames ++ active.keys) = .ok prices →
      ∀ a ∈ active.toList, isDue settings prices asOf a →
        closeRow D a.1 asOf (closeReason settings prices a) ∉ s.toList

theorem length_selected (settings : Settings) (prices : Dict String ℚ)
    (s : InMemoryBitemporalStore) (gate : Gate) (asOf : Datetime)
    (active : Dict String InsiderSleevePosition) :
    (selected settings prices s gate asOf active).length +
      (remaining settings prices asOf active).length ≤
        max settings.insiderSleeveMaxNames.toNat
          (remaining settings prices asOf active).length := by
  unfold selected entries
  split
  · simp
  · next h =>
    have hlen := length_insiderClusterEntries s asOf gate settings.insiderSleeveHoldDays
      (slots settings (remaining settings prices asOf active)) 5
      (remaining settings prices asOf active)
    unfold slots at h hlen ⊢
    omega

theorem length_active_after (hD : Function.Injective D.uuid5)
    (hl : Ledger D sleeveDataset (IsRow D) s) (ha : activeInsiderPositions s asOf = .ok active)
    (hc : ∀ a ∈ active.toList, isDue settings prices asOf a →
      closeRow D a.1 asOf (closeReason settings prices a) ∉ s.toList)
    (hn : active.keys.length ≤ settings.insiderSleeveMaxNames.toNat) {p : SleevePass}
    (hp : PassSpec D sleeveDataset (IsRow D) asOf (perName settings) s
      (closings D settings prices asOf active)
      (openings D settings prices asOf (selected settings prices s gate asOf active)) p) :
    ∃ active', activeInsiderPositions p.store asOf = .ok active' ∧
      active'.keys.length ≤ settings.insiderSleeveMaxNames.toNat := by
  obtain ⟨active', ha'⟩ := activeInsiderPositions_total
    (hp.ledger_after bar_not_mem_sleeveDataset hl) asOf
  refine ⟨active', ha', ?_⟩
  have hfrom : ∀ name ∈ active'.keys,
      name ∈ p.opened ∨ name ∈ remaining settings prices asOf active := by
    intro name hname
    rcases (mem_active_after_iff hD hl ha hp name ha').mp hname with ⟨ho, -⟩ | ⟨hk, hrow⟩
    · exact .inl ho
    · right
      obtain ⟨a, hm, rfl⟩ := Keyed.mem_keys.mp hk
      by_cases hd : isDue settings prices asOf a
      · exact absurd (hrow a hm rfl hd) (hc a hm hd)
      · exact List.mem_map.mpr ⟨a, List.mem_filter.mpr ⟨hm, by simpa using hd⟩, rfl⟩
  have hopened : p.opened.length ≤ (selected settings prices s gate asOf active).length := by
    rw [hp.opened, List.length_map, openings, List.length_map]
    exact List.length_filter_le _ _
  have hall : active'.keys.length ≤ p.opened.length +
      (remaining settings prices asOf active).length := length_le_of_mem_or active'.nodup hfrom
  have hroom := length_selected settings prices s gate asOf active
  have hrem : (remaining settings prices asOf active).length ≤ active.keys.length :=
    length_filter_keys_le active _
  omega

theorem run_store_cases (hD : Function.Injective D.uuid5) (B : Broker β) (settings : Settings)
    (w : World β) (universeNames : List String) (gate : Gate) (asOf : Datetime)
    (hl : Ledger D sleeveDataset (IsRow D) w.store) :
    let out := (runInsiderSleeveCycle D B settings w universeNames gate asOf).2
    out.store = w.store ∨ ∃ active prices p, activeInsiderPositions w.store asOf = .ok active ∧
      latestPrices w.store asOf (universeNames ++ active.keys) = .ok prices ∧
      PassSpec D sleeveDataset (IsRow D) asOf (perName settings) w.store
        (closings D settings prices asOf active)
        (openings D settings prices asOf (selected settings prices w.store gate asOf active)) p ∧
      out.store = p.store := by
  intro out
  obtain ⟨active, ha⟩ := activeInsiderPositions_total hl asOf
  have hout : out = (runInsiderSleeveCycle D B settings w universeNames gate asOf).2 := rfl
  unfold runInsiderSleeveCycle at hout
  cases hdec : decidePass D settings w.store universeNames gate asOf with
  | error err =>
    left
    rw [hdec] at hout
    rw [hout]
  | ok decision =>
    right
    obtain ⟨p, prices⟩ := decision
    rw [hdec] at hout
    have hstore : out.store = p.store := by rw [hout, executePass_world rfl]
    refine ⟨active, prices, p, ha, ?_, decidePass_spec hD hl hdec ha, hstore⟩
    unfold decidePass at hdec
    rw [ha] at hdec
    cases hp : latestPrices w.store asOf (universeNames ++ active.keys) with
    | error err =>
      simp only [hp, bind, Except.bind] at hdec
      cases hdec
    | ok prices' =>
      simp only [hp, bind, Except.bind, pure, Except.pure, Except.ok.injEq, Prod.mk.injEq] at hdec
      rw [hdec.2]

section Run

variable (hD : Function.Injective D.uuid5) (hl : Ledger D sleeveDataset (IsRow D) w.store)

include hD hl

theorem ledger_run : Ledger D sleeveDataset (IsRow D)
    (runInsiderSleeveCycle D B settings w universeNames gate asOf).2.store := by
  rcases run_store_cases hD B settings w universeNames gate asOf hl with
    he | ⟨active, prices, p, -, -, hp, he⟩
  · rw [he]
    exact hl
  · rw [he]
    exact hp.ledger_after bar_not_mem_sleeveDataset hl

variable (B settings universeNames gate asOf) in
theorem spares_run {other : String} (hother : other ∉ [sleeveDataset, Feedback.predictionDataset]) :
    Spares D other w.store
      (runInsiderSleeveCycle D B settings w universeNames gate asOf).2.store := by
  simp only [List.mem_cons, List.not_mem_nil, or_false, not_or] at hother
  obtain ⟨hsleeve, hlog⟩ := hother
  rcases run_store_cases hD B settings w universeNames gate asOf hl with
    he | ⟨active, prices, p, -, -, hp, he⟩
  · rw [he]
    exact .refl w.store
  · rw [he]
    apply hp.spares bar_not_mem_sleeveDataset (Ne.symm hsleeve)
    intro a ha
    obtain ⟨e, -, rfl⟩ := List.mem_map.mp ha
    exact Ne.symm hlog

theorem atMost_run (hk : KnownBy sleeveDataset w.store asOf)
    (hc : Closes D settings w.store universeNames asOf)
    (h : AtMost newer readPosition sleeveDataset settings.insiderSleeveMaxNames.toNat w.store) :
    AtMost newer readPosition sleeveDataset settings.insiderSleeveMaxNames.toNat
      (runInsiderSleeveCycle D B settings w universeNames gate asOf).2.store := by
  rcases run_store_cases hD B settings w universeNames gate asOf hl with
    he | ⟨active, prices, p, ha, hpr, hp, he⟩
  · rw [he]
    exact h
  · obtain ⟨active₀, ha₀, hn⟩ := h asOf hk
    obtain rfl : active₀ = active := Except.ok.inj (ha₀.symm.trans ha)
    obtain ⟨active', ha', hn'⟩ := length_active_after hD hl ha (hc _ _ ha hpr) hn hp
    rw [he]
    exact hp.atMost hk ha' hn'

end Run

end InsiderSleeve

end MarketTrader.Runtime
