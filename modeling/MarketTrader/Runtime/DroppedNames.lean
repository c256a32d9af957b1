import MarketTrader.Runtime.GoalBook

namespace MarketTrader.Runtime

open Library MarketTrader.Core Storage InMemoryBitemporalStore Config Portfolio Features Execution

variable {β : Type} {N : Numerics} {D : Digests} {B : Broker β} {settings : Settings}
  {inputs : LiveInputs} {w : World β} {store : InMemoryBitemporalStore} {asOf : Datetime}
  {watchlist : List String} {prices : Dict String ℚ} {symbol : String}

/-- The close of one row, if the row is about a name of the list. -/
def closeOf (watchlist : List String) (o : Observation) : Except TradingError (Option ℚ) :=
  if o.entityId ∈ watchlist then
    match o.get? "close" with
    | none => .error (.keyError "close")
    | some close =>
      match close.float? with
      | some q => .ok (some q)
      | none => .error (.valueError "close")
  else .ok none

theorem closePrices_eq (store : InMemoryBitemporalStore) (asOf : Datetime)
    (watchlist : List String) : closePrices store asOf watchlist =
      Dict.collect Observation.entityId (closeOf watchlist) .empty
        (store.asOf asOf { dataset := some priceDataset }) := rfl

/-- What the store has for the closes of one name is a positive price. -/
def KnownPrice (store : InMemoryBitemporalStore) (asOf : Datetime) (symbol : String) : Prop :=
  ∃ prices q, closePrices store asOf [symbol] = .ok prices ∧
    Dict.get? prices symbol = some q ∧ 0 < q

/-- Of the names with a known price the price map has those that are watched. -/
theorem mem_keys_closePrices (h : closePrices store asOf watchlist = .ok prices)
    (hk : KnownPrice store asOf symbol) : symbol ∈ prices.keys ↔ symbol ∈ watchlist := by
  rw [closePrices_eq] at h
  rw [Dict.mem_keys_collect h]
  constructor
  · rintro (hs | ⟨o, -, rfl, v, hv⟩)
    · cases hs
    · by_contra hno
      rw [closeOf, if_neg hno] at hv
      cases hv
  · intro hs
    obtain ⟨own, q, hown, hq, -⟩ := hk
    rw [closePrices_eq] at hown
    obtain ⟨o, ho, rfl, hv⟩ := (Dict.of_get?_collect hown hq).resolve_left (by simp)
    have hsame : closeOf watchlist o = closeOf [o.entityId] o := by
      unfold closeOf
      rw [if_pos hs, if_pos (List.mem_singleton_self _)]
    exact .inr ⟨o, ho, rfl, q, hsame.trans hv⟩

/-- What a live cycle decides on for its book. -/
structure LivePlan (β : Type) where
  prices : Dict String ℚ
  options : CycleOptions
  plan : CyclePlan β

def livePlan (N : Numerics) (D : Digests) (B : Broker β) (settings : Settings)
    (inputs : LiveInputs) (w : World β) (asOf : Datetime) : Option (LivePlan β) :=
  match liveGate settings with
  | some _ => none
  | none =>
    let w₁ := { w with store := ingest D w.store inputs.bars }
    match closePrices w₁.store asOf inputs.watchlist with
    | .error _ => none
    | .ok prices =>
      let w₂ := { w₁ with store := ingestFlows D settings inputs w₁.store }
      match bookInputs settings inputs w₂.store asOf with
      | .error _ => none
      | .ok (scoreFn, reserved) =>
        let options := liveOptions settings inputs scoreFn reserved
        (cyclePlan N D B settings options w₂ asOf inputs.watchlist prices).map
          (fun p ↦ ⟨prices, options, p⟩)

theorem reservedNames_of_bookInputs {store : InMemoryBitemporalStore} {scoreFn : ScoreFn}
    {reserved : List String}
    (h : bookInputs settings inputs store asOf = .ok (scoreFn, reserved)) :
    reservedNames settings store asOf = .ok reserved := by
  unfold bookInputs at h
  split at h
  · cases h
  · split at h
    · cases h
    · next hr =>
      cases h
      exact hr

theorem livePlan_spec {p : LivePlan β} (h : livePlan N D B settings inputs w asOf = some p) :
    closePrices (ingest D w.store inputs.bars) asOf inputs.watchlist = .ok p.prices ∧
      p.plan.positions =
        (B.getPositions p.plan.world.broker).filter (·.symbol ∉ p.options.reserved) ∧
      reservedNames settings (ingestFlows D settings inputs (ingest D w.store inputs.bars)) asOf =
        .ok p.options.reserved ∧
      ∃ sleeve, liveCalls N D B settings inputs w asOf =
        (p.plan.call settings p.options p.prices asOf).toList ++ sleeve := by
  unfold livePlan at h
  unfold liveCalls
  cases hgate : liveGate settings with
  | some e =>
    rw [hgate] at h
    cases h
  | none =>
    rw [hgate] at h
    dsimp only at h ⊢
    cases hprices : closePrices (ingest D w.store inputs.bars) asOf inputs.watchlist with
    | error e =>
      rw [hprices] at h
      cases h
    | ok prices =>
      rw [hprices] at h
      dsimp only at h ⊢
      cases hbook : bookInputs settings inputs
          (ingestFlows D settings inputs (ingest D w.store inputs.bars)) asOf with
      | error e =>
        rw [hbook] at h
        cases h
      | ok book =>
        rw [hbook] at h
        obtain ⟨scoreFn, reserved⟩ := book
        obtain ⟨plan, hplan, rfl⟩ := Option.map_eq_some_iff.mp h
        have hreserved := reservedNames_of_bookInputs hbook
        refine ⟨rfl, (cyclePlan_spec hplan).1, hreserved, ?_⟩
        dsimp only
        rw [paperCall_eq, hplan]
        exact ⟨_, rfl⟩

/-- Of the positions that are the book's own, that the new book leaves out and whose price is known,
the cycle sells exactly those in names that are still watched. -/
theorem dropped_name_sold_iff (N : Numerics) (D : Digests) (B : Broker β) (settings : Settings)
    (inputs : LiveInputs) (w : World β) (asOf : Datetime) (p : LivePlan β)
    (h : livePlan N D B settings inputs w asOf = some p) :
    (∃ sleeve, liveCalls N D B settings inputs w asOf =
      (p.plan.call settings p.options p.prices asOf).toList ++ sleeve) ∧
    reservedNames settings (ingestFlows D settings inputs (ingest D w.store inputs.bars)) asOf =
      .ok p.options.reserved ∧
    ∀ pos ∈ B.getPositions p.plan.world.broker, pos.symbol ∉ p.options.reserved →
      pos.symbol ∉ p.plan.book.keys →
      KnownPrice (ingest D w.store inputs.bars) asOf pos.symbol →
      (Dict.get? (p.plan.goal p.prices) pos.symbol = some 0 ↔ pos.symbol ∈ inputs.watchlist) := by
  obtain ⟨hprices, hpositions, hreserved, hcalls⟩ := livePlan_spec h
  refine ⟨hcalls, hreserved, fun pos hpos hr hb hk ↦ ?_⟩
  have hown : pos.symbol ∈ p.plan.positions.map Position.symbol := by
    rw [hpositions]
    exact List.mem_map_of_mem (List.mem_filter.mpr ⟨hpos, by simpa using hr⟩)
  have hno : Dict.get? p.plan.book pos.symbol = none := Dict.get?_eq_none.mpr hb
  rw [← mem_keys_closePrices hprices hk, CyclePlan.goal, get?_flattenDropped, hno]
  simp [exits, hown, hb]

/-! ### A held name, watched and no longer watched -/

def keyed : Settings :=
  { maxPositionWeight := 1
    alpacaKeyId := some "key"
    alpacaSecretKey := some "secret" }

/-- "A" is held, and its close of an earlier day is stored. -/
def boughtA : World PaperBroker :=
  { holdsA with
    store := ingest .plain .empty
      [fetchedRow "alpaca" priceDataset "A" none (.ofList [("close", .num 100)])] }

/-- A day on which the book buys "B". -/
def watching (watchlist : List String) : LiveInputs where
  watchlist := watchlist
  bars := [fetchedRow "alpaca" priceDataset "B" none (.ofList [("close", .num 100)])]
  features := [flatFeature]
  buildScorer _ _ := .ok fun _ _ ↦ .ok [("B", some 1)]
  insiderUniverse := []
  gate := InsiderSleeve.openGate

theorem knownPrice_boughtA (watchlist : List String) :
    KnownPrice (ingest .plain boughtA.store (watching watchlist).bars) 0 "A" := by
  have hclose : ((closePrices (ingest .plain boughtA.store (watching []).bars) 0
      ["A"]).toOption.bind (Dict.get? · "A")) = some 100 := by decide +kernel
  have hsame : (watching watchlist).bars = (watching []).bars := rfl
  rw [hsame]
  cases hprices : closePrices (ingest .plain boughtA.store (watching []).bars) 0 ["A"] with
  | error e =>
    rw [hprices] at hclose
    cases hclose
  | ok prices =>
    rw [hprices] at hclose
    exact ⟨prices, 100, hprices, hclose, by norm_num⟩

theorem dropped_name_sold_watched :
    ∃ p ∈ livePlan .plain .plain paperBroker keyed (watching ["A", "B"]) boughtA 0,
      Dict.get? (p.plan.goal p.prices) "A" = some 0 := by
  have hplan : (livePlan .plain .plain paperBroker keyed (watching ["A", "B"]) boughtA 0).any
      (fun p ↦ (⟨"A", 5, 100⟩ : Position) ∈ paperBroker.getPositions p.plan.world.broker ∧
        "A" ∉ p.options.reserved ∧ "A" ∉ p.plan.book.keys) := by decide +kernel
  obtain ⟨p, hp, hheld⟩ := (Option.any_eq_true _ _).mp hplan
  obtain ⟨hpos, hr, hb⟩ := of_decide_eq_true hheld
  obtain ⟨-, -, hsold⟩ := dropped_name_sold_iff .plain .plain paperBroker keyed
    (watching ["A", "B"]) boughtA 0 p hp
  exact ⟨p, hp, (hsold ⟨"A", 5, 100⟩ hpos hr hb (knownPrice_boughtA _)).mpr List.mem_cons_self⟩

/-- Once the name is off the watchlist nothing sells it. -/
theorem dropped_name_stays :
    ¬∀ (β : Type) (N : Numerics) (D : Digests) (B : Broker β) (settings : Settings)
      (inputs : LiveInputs) (w : World β) (asOf : Datetime) (p : LivePlan β),
      livePlan N D B settings inputs w asOf = some p →
      ∀ pos ∈ B.getPositions p.plan.world.broker, pos.symbol ∉ p.options.reserved →
        pos.symbol ∉ p.plan.book.keys →
        KnownPrice (ingest D w.store inputs.bars) asOf pos.symbol →
        Dict.get? (p.plan.goal p.prices) pos.symbol = some 0 := by
  intro h
  have hplan : (livePlan .plain .plain paperBroker keyed (watching ["B"]) boughtA 0).any
      (fun p ↦ (⟨"A", 5, 100⟩ : Position) ∈ paperBroker.getPositions p.plan.world.broker ∧
        "A" ∉ p.options.reserved ∧ "A" ∉ p.plan.book.keys ∧
        Dict.get? (p.plan.goal p.prices) "A" ≠ some 0) := by decide +kernel
  obtain ⟨p, hp, hheld⟩ := (Option.any_eq_true _ _).mp hplan
  obtain ⟨hpos, hr, hb, hstays⟩ := of_decide_eq_true hheld
  exact hstays (h PaperBroker .plain .plain paperBroker keyed (watching ["B"]) boughtA 0 p hp
    ⟨"A", 5, 100⟩ hpos hr hb (knownPrice_boughtA _))

end MarketTrader.Runtime
