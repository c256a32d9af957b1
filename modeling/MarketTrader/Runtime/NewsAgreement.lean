import MarketTrader.Runtime.NewsLedger
import MarketTrader.Runtime.SleeveAgreement

namespace MarketTrader.Runtime.NewsSleeve

open Library MarketTrader.Core Storage InMemoryBitemporalStore Config Portfolio Execution

variable {β : Type}

def Wire (fetched : List Observation) : Prop :=
  ∀ o ∈ fetched, o.dataset = newsDataset ∧ '|' ∉ o.source.toList

def received (D : Digests) (store : InMemoryBitemporalStore) (fetched : List Observation) :
    InMemoryBitemporalStore :=
  if fetched = [] then store else ingest D store fetched

def passOrders (B : Broker β) (settings : Settings) (limits : Option RiskLimits) (b : β)
    (store : InMemoryBitemporalStore) (prices : Dict String ℚ) (asOf : Datetime)
    (active : Dict String SleevePosition) (opened : List NewsEvent) : List Order :=
  let closed := (active.toList.filter (isDue settings prices asOf)).map Prod.fst
  sentOrders B (engine settings limits store asOf) b
    (passTarget (perName settings) closed (opened.map NewsEvent.symbol)) prices asOf

/-- The broker follows the decisions of the pass: a due name is sold out, and an opened name gets
its fill. Where the ledger has a row of the name as late as the pass, the decision changes nothing
on record and is not to be followed. -/
def Followed (D : Digests) (B : Broker β) (settings : Settings) (limits : Option RiskLimits) (b : β)
    (store : InMemoryBitemporalStore) (watchlist : List String) (prices : Dict String ℚ)
    (asOf : Datetime) (active : Dict String SleevePosition) : Prop :=
  match detectNewsEvents D store asOf watchlist settings.newsSleeveCountSurge
    settings.newsSleeveToneMin settings.newsSleeveBaselineDays with
  | .error _ => ∀ a ∈ active.toList, isDue settings prices asOf a → ¬Earlier store asOf a.1
  | .ok events =>
    let opened := chosen settings asOf (briefing prices store asOf)
      (sortBy (fun ev : NewsEvent ↦ OrderDual.toDual ev.confidence) events)
      (remaining settings prices asOf active)
    let orders := passOrders B settings limits b store prices asOf active opened
    (∀ a ∈ active.toList, isDue settings prices asOf a →
      (B.SoldOut b orders a.1 ↔ Earlier store asOf a.1)) ∧
    ∀ ev ∈ opened, ev.symbol ∉ active.keys →
      (B.Served b orders ev.symbol ↔ Earlier store asOf ev.symbol)

variable {D : Digests} {B : Broker β} {settings : Settings} {asOf : Datetime} {w : World β}
  {fetched : List Observation} {watchlist : List String} {limits : Option RiskLimits}
  {active : Dict String SleevePosition} {s : InMemoryBitemporalStore}

theorem received_eq (hf : Wire fetched) : ∃ l, received D s fetched = s.insertAll l ∧
    ∀ r ∈ l, HasIdentity D r ∧ r.dataset = newsDataset := by
  unfold received
  split
  · exact ⟨[], rfl, by simp⟩
  · refine ⟨_, rfl, fun r hr ↦ ?_⟩
    obtain ⟨o, ho, rfl⟩ := List.mem_map.mp ((Keyed.mem_of_mem_insertAll hr).resolve_left (by simp))
    obtain ⟨hd, hs⟩ := hf o ho
    have hbar : '|' ∉ o.dataset.toList := by
      rw [hd]
      decide
    exact ⟨⟨rfl, hs, hbar⟩, hd⟩

theorem ledger_received (hf : Wire fetched) (hl : Ledger D sleeveDataset (IsRow D) s) :
    Ledger D sleeveDataset (IsRow D) (received D s fetched) := by
  obtain ⟨l, he, hr⟩ := received_eq (D := D) (s := s) hf
  rw [he]
  refine hl.insertAll fun r hm ↦ ⟨(hr r hm).1, fun hd ↦ ?_⟩
  rw [(hr r hm).2] at hd
  exact absurd hd (by decide)

theorem activeSleevePositions_received (hD : Function.Injective D.uuid5) (hf : Wire fetched)
    (hl : Ledger D sleeveDataset (IsRow D) s) :
    activeSleevePositions (received D s fetched) asOf = activeSleevePositions s asOf := by
  obtain ⟨l, he, hr⟩ := received_eq (D := D) (s := s) hf
  unfold activeSleevePositions activePositions
  rw [he, asOf_insertAll_dataset hD hl.identified fun r hm ↦ ⟨(hr r hm).1, ?_⟩]
  rw [(hr r hm).2]
  decide

variable (limits) in
theorem agrees_iff_of_spec (hD : Function.Injective D.uuid5) (hB : FillsOrRejects B)
    (hl : Ledger D sleeveDataset (IsRow D) s) (ha : activeSleevePositions s asOf = .ok active)
    (hag : Agrees B w.broker active.keys) {prices : Dict String ℚ} {evs : List NewsEvent}
    (hevs : ∀ ev ∈ evs, IsHash ev.storyHash) {opened : List NewsEvent}
    (ho : opened = chosen settings asOf (briefing prices s asOf) evs
      (remaining settings prices asOf active)) {p : SleevePass}
    (hp : PassSpec D sleeveDataset (IsRow D) asOf (perName settings) s
      (closings D settings prices asOf active) (openings D settings prices asOf opened) p) :
    let orders := passOrders B settings limits w.broker s prices asOf active opened
    (∃ active', activeSleevePositions p.store asOf = .ok active' ∧
      Agrees B (executePass D B (engine settings limits p.store asOf) w p prices asOf).2.broker
        active'.keys) ↔
    (∀ a ∈ active.toList, isDue settings prices asOf a →
      (B.SoldOut w.broker orders a.1 ↔ Earlier s asOf a.1)) ∧
    ∀ ev ∈ opened, ev.symbol ∉ active.keys →
      (B.Served w.broker orders ev.symbol ↔ Earlier s asOf ev.symbol) := by
  intro orders
  obtain ⟨active', ha'⟩ := activeSleevePositions_total
    (hp.ledger_after bar_not_mem_sleeveDataset hl) asOf
  have hafter := mem_active_after_iff hD hl ha (b := briefing prices s asOf) rfl hevs (ho ▸ hp) ha'
  have hclosed := fun symbol ↦ mem_closed_iff symbol hp
  have hopened := fun symbol ↦ mem_opened_iff symbol hp
  have hkeys : ∀ s ∈ p.closed, s ∈ active.keys := by
    intro s hs
    obtain ⟨a, hm, -, rfl⟩ := (hclosed s).mp hs
    exact Keyed.mem_keys.mpr ⟨a, hm, rfl⟩
  have hreopened : ∀ s ∈ p.opened, s ∈ active.keys → s ∈ p.closed := by
    intro s hs hk
    obtain ⟨ev, hev, rfl⟩ := (hopened s).mp hs
    obtain ⟨a, hm, hn⟩ := Keyed.mem_keys.mp hk
    refine (hclosed _).mpr ⟨a, hm, ?_, hn⟩
    by_contra hd
    rw [ho] at hev
    refine (mem_chosen hev).2.2.2 (List.mem_map.mpr ⟨a, ?_, hn⟩)
    exact List.mem_filter.mpr ⟨hm, by simpa using hd⟩
  have hframe : ∀ s, s ∉ p.closed → s ∉ p.opened → (s ∈ active'.keys ↔ s ∈ active.keys) := by
    intro s hc ho
    rw [hafter s]
    simp [hc, ho]
  have horders : sentOrders B (engine settings limits p.store asOf) w.broker p.target prices asOf =
      orders := by
    rw [hp.target, hp.closed, hp.opened, closings_names, openings, List.map_map]
    rfl
  have hiff := agrees_after_iff (e := engine settings limits p.store asOf) prices asOf hB hag
    hp.target hkeys hreopened hframe
  rw [executePass_world rfl, horders]
  rw [horders] at hiff
  simp only [ha', Except.ok.injEq, exists_eq_left']
  refine hiff.trans (and_congr ?_ ?_)
  · have hgone : ∀ name ∈ p.closed, (name ∉ active'.keys ↔ Earlier s asOf name) := by
      intro name hs
      rw [hafter name]
      simp [hs, hkeys name hs]
    constructor
    · intro hc a hm hd
      have hs := (hclosed a.1).mpr ⟨a, hm, hd, rfl⟩
      rw [hc a.1 hs, hgone a.1 hs]
    · intro hc s hs
      obtain ⟨a, hm, hd, rfl⟩ := (hclosed s).mp hs
      rw [hc a hm hd, hgone a.1 hs]
  · have hthere : ∀ name ∈ p.opened, name ∉ active.keys →
        (name ∈ active'.keys ↔ Earlier s asOf name) := by
      intro name hs hk
      rw [hafter name]
      simp [hs, hk]
    constructor
    · intro ho ev hev hk
      have hs := (hopened ev.symbol).mpr ⟨ev, hev, rfl⟩
      rw [ho ev.symbol hs hk, hthere ev.symbol hs hk]
    · intro ho s hs hk
      obtain ⟨ev, hev, rfl⟩ := (hopened s).mp hs
      rw [ho ev hev hk, hthere ev.symbol hs hk]

theorem run_of_close_error {err : TradingError}
    (h : closePhase D settings (received D w.store fetched) watchlist asOf = .error err) :
    (runNewsSleeveCycle D B settings w fetched watchlist limits asOf).2 =
      { w with store := received D w.store fetched } := by
  unfold runNewsSleeveCycle
  unfold received at h ⊢
  dsimp only
  rw [h]

variable (limits) in
theorem run_of_open_error {err : TradingError} {p : SleevePass} {b : Briefing} {live : List String}
    (h : closePhase D settings (received D w.store fetched) watchlist asOf = .ok (p, b, live))
    (ho : openPhase D settings watchlist asOf p b live = .error err) :
    (runNewsSleeveCycle D B settings w fetched watchlist limits asOf).2 =
      { w with store := p.store } := by
  unfold runNewsSleeveCycle
  unfold received at h
  dsimp only
  rw [h]
  dsimp only
  rw [ho]

variable (limits) in
theorem run_of_opened {p p' : SleevePass} {b : Briefing} {live : List String}
    (h : closePhase D settings (received D w.store fetched) watchlist asOf = .ok (p, b, live))
    (ho : openPhase D settings watchlist asOf p b live = .ok p') :
    (runNewsSleeveCycle D B settings w fetched watchlist limits asOf).2 =
      (executePass D B (engine settings limits p'.store asOf)
        { w with store := received D w.store fetched } p' b.prices asOf).2 := by
  unfold runNewsSleeveCycle
  unfold received at h ⊢
  dsimp only
  rw [h]
  dsimp only
  rw [ho]

theorem agrees_iff_of_closed (hD : Function.Injective D.uuid5)
    (hl : Ledger D sleeveDataset (IsRow D) s) (ha : activeSleevePositions s asOf = .ok active)
    (hag : Agrees B w.broker active.keys) (prices : Dict String ℚ) :
    (∃ active', activeSleevePositions (closedPass D settings prices asOf s active).store asOf =
      .ok active' ∧ Agrees B w.broker active'.keys) ↔
    ∀ a ∈ active.toList, isDue settings prices asOf a → ¬Earlier s asOf a.1 := by
  have hnone : ∀ ev ∈ ([] : List NewsEvent), IsHash ev.storyHash := by simp
  have hp := openLoop_spec settings (b := briefing prices s asOf) hl ha rfl hnone
    (remaining settings prices asOf active)
  obtain ⟨active', ha'⟩ := activeSleevePositions_total
    (hp.ledger_after bar_not_mem_sleeveDataset hl) asOf
  have hafter := mem_active_after_iff hD hl ha (b := briefing prices s asOf) rfl hnone hp ha'
  have hclosed := fun symbol ↦ mem_closed_iff symbol hp
  have hopened : ∀ symbol, symbol ∉ (closedPass D settings prices asOf s active).opened := by
    intro symbol
    rw [(closedPass_spec D settings prices asOf s active).1]
    exact List.not_mem_nil
  change activeSleevePositions (closedPass D settings prices asOf s active).store asOf = _ at ha'
  simp only [ha', Except.ok.injEq, exists_eq_left']
  constructor
  · intro h a hm hd hearlier
    have hk : a.1 ∈ active.keys := Keyed.mem_keys.mpr ⟨a, hm, rfl⟩
    rcases (hafter a.1).mp ((h a.1).mpr ((hag a.1).mp hk)) with ho | ⟨-, hc⟩
    · exact hopened a.1 ho.1
    · exact hc ((hclosed a.1).mpr ⟨a, hm, hd, rfl⟩) hearlier
  · intro h symbol
    rw [hafter symbol, ← hag symbol]
    refine ⟨fun hs ↦ hs.elim (fun ho ↦ absurd ho.1 (hopened symbol)) And.left, fun hk ↦ ?_⟩
    refine .inr ⟨hk, fun hc ↦ ?_⟩
    obtain ⟨a, hm, hd, rfl⟩ := (hclosed symbol).mp hc
    exact h a hm hd

/-- The ledger and the broker agree after a pass exactly when the broker followed its decisions. -/
theorem agrees_iff (hD : Function.Injective D.uuid5) (hB : FillsOrRejects B)
    (hf : Wire fetched) (hl : Ledger D sleeveDataset (IsRow D) w.store)
    (ha : activeSleevePositions w.store asOf = .ok active)
    (hag : Agrees B w.broker active.keys) :
    let out := (runNewsSleeveCycle D B settings w fetched watchlist limits asOf).2
    let store := received D w.store fetched
    (∃ active', activeSleevePositions out.store asOf = .ok active' ∧
      Agrees B out.broker active'.keys) ↔
    ∀ prices, latestPrices store asOf watchlist = .ok prices →
      Followed D B settings limits w.broker store watchlist prices asOf active := by
  intro out store
  have hl' : Ledger D sleeveDataset (IsRow D) store := ledger_received hf hl
  have ha' : activeSleevePositions store asOf = .ok active :=
    (activeSleevePositions_received hD hf hl).trans ha
  cases hp : latestPrices store asOf watchlist with
  | error err =>
    have hclose : closePhase D settings store watchlist asOf = .error err := by
      unfold closePhase
      rw [hp]
      rfl
    have hrun : out = { w with store := store } := run_of_close_error hclose
    rw [hrun]
    exact iff_of_true ⟨active, ha', hag⟩ fun _ h ↦ by cases h
  | ok prices =>
    have hclose := closePhase_eq D settings ha' hp
    have hevents : detectNewsEvents D (closedPass D settings prices asOf store active).store asOf
        watchlist settings.newsSleeveCountSurge settings.newsSleeveToneMin
        settings.newsSleeveBaselineDays = detectNewsEvents D store asOf watchlist
          settings.newsSleeveCountSurge settings.newsSleeveToneMin
          settings.newsSleeveBaselineDays := by
      rw [(closedPass_spec D settings prices asOf store active).2.2.2]
      exact detectNewsEvents_insertAll hD hl'.identified (fun _ ↦ hasIdentity_closings) ..
    simp only [Except.ok.injEq, forall_eq']
    unfold Followed
    cases he : detectNewsEvents D store asOf watchlist settings.newsSleeveCountSurge
        settings.newsSleeveToneMin settings.newsSleeveBaselineDays with
    | error err =>
      have hopen : openPhase D settings watchlist asOf (closedPass D settings prices asOf store
          active) (briefing prices store asOf) (remaining settings prices asOf active) =
            .error err := by
        unfold openPhase
        rw [hevents, he]
        rfl
      have hrun : out =
          { w with store := (closedPass D settings prices asOf store active).store } :=
        run_of_open_error limits hclose hopen
      rw [hrun]
      exact agrees_iff_of_closed hD hl' ha' hag prices
    | ok events =>
      have hevs : ∀ ev ∈ sortBy (fun ev : NewsEvent ↦ OrderDual.toDual ev.confidence) events,
          IsHash ev.storyHash := fun ev hev ↦
        isHash_of_mem_detectNewsEvents he (mem_sortBy.mp hev)
      have hb : (briefing prices store asOf).prices = prices := rfl
      have hp' := openLoop_spec settings hl' ha' hb hevs
        (remaining settings prices asOf active)
      have hopen : openPhase D settings watchlist asOf (closedPass D settings prices asOf store
          active) (briefing prices store asOf) (remaining settings prices asOf active) =
            .ok (openLoop D settings asOf (briefing prices store asOf)
              (sortBy (fun ev : NewsEvent ↦ OrderDual.toDual ev.confidence) events)
              (closedPass D settings prices asOf store active)
              (remaining settings prices asOf active)) := by
        unfold openPhase
        rw [hevents, he]
        rfl
      have hrun := run_of_opened limits (B := B) (w := w) hclose hopen
      have hiff := agrees_iff_of_spec limits (w := { w with store := store })
        hD hB hl' ha' hag hevs rfl hp'
      have hstore := congrArg World.store hrun
      rw [executePass_world rfl] at hstore
      change out.store = _ at hstore
      rw [hstore]
      have hbroker := congrArg World.broker hrun
      change out.broker = _ at hbroker
      rw [hbroker]
      exact hiff

end MarketTrader.Runtime.NewsSleeve
