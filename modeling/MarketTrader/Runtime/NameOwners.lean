import MarketTrader.Library.Ownership
import MarketTrader.Runtime.AuditedRun
import MarketTrader.Runtime.DeadTickers
import MarketTrader.Runtime.DroppedNames

namespace MarketTrader.Runtime

open Library MarketTrader.Core Storage InMemoryBitemporalStore Config Portfolio Execution Feedback

abbrev sleeveDatasets : List String := [NewsSleeve.sleeveDataset, InsiderSleeve.sleeveDataset]

/-! ### What a ledger says -/

section Record

variable {π : Type} {D : Digests} {dataset : String} {s s' : InMemoryBitemporalStore}
  {asOf : Datetime} {better : Observation → Observation → Bool}
  {read : Observation → Except TradingError π} {name : String}

/-- The name is open in the ledger, as whoever knows all of it reads it. -/
def OnRecord (better : Observation → Observation → Bool)
    (read : Observation → Except TradingError π) (dataset : String) (s : InMemoryBitemporalStore)
    (name : String) : Prop :=
  ∃ now active, KnownBy dataset s now ∧
    activePositions better read dataset s now = .ok active ∧ name ∈ active.keys

theorem OnRecord.mem (h : OnRecord better read dataset s name) {now : Datetime}
    (hk : KnownBy dataset s now) {active : Dict String π}
    (ha : activePositions better read dataset s now = .ok active) : name ∈ active.keys := by
  obtain ⟨now', active', hk', ha', hn⟩ := h
  rw [activePositions_of_knownBy hk' hk, ha] at ha'
  cases ha'
  exact hn

theorem OnRecord.of_spares (hD : Function.Injective D.uuid5) (hi : Identified D s)
    (hs : Spares D dataset s s') (h : OnRecord better read dataset s' name) :
    OnRecord better read dataset s name := by
  obtain ⟨now, active, hk, ha, hn⟩ := h
  exact ⟨now, active, fun o ho hd ↦ hk o (hs.mem_of_mem' hD hi ho hd) hd,
    (hs.activePositions_eq hD hi better read now).symm.trans ha, hn⟩

theorem not_onRecord_of_no_rows (h : ∀ o ∈ s.toList, o.dataset ≠ dataset) :
    ¬OnRecord better read dataset s name := by
  rintro ⟨now, active, -, ha, hn⟩
  rw [eq_empty_of_no_rows h ha] at hn
  cases hn

/-- A name on record after a pass was opened by it, or was on record before. -/
theorem PassSpec.onRecord {IsRow : Observation → Prop} {weight : ℚ}
    {dues : List (String × Observation)} {opens : List (String × Observation × Observation)}
    {p : SleevePass} (hp : PassSpec D dataset IsRow asOf weight s dues opens p)
    (hd : '|' ∉ dataset.toList) (hD : Function.Injective D.uuid5)
    (hsleeve : ∀ o, IsRow o → IsSleeveRow D dataset o) (hl : Ledger D dataset IsRow s)
    (hread : ∀ o, IsRow o → isOpen o → ∃ pos, read o = .ok pos) (hk : KnownBy dataset s asOf)
    {active : Dict String π} (ha : activePositions better read dataset s asOf = .ok active)
    (hdues : ∀ a ∈ dues, a.1 ∈ active.keys) (h : OnRecord better read dataset p.store name) :
    name ∈ p.opened ∨ name ∈ active.keys := by
  by_cases ho : name ∈ p.opened
  · exact .inl ho
  · right
    by_cases hc : name ∈ p.closed
    · rw [hp.closed] at hc
      obtain ⟨a, hm, rfl⟩ := List.mem_map.mp hc
      exact hdues a hm
    · obtain ⟨now, active', hk', ha', hn⟩ := h
      rw [activePositions_of_knownBy hk' (hp.knownBy hk)] at ha'
      have hstands : standing better p.store dataset name asOf =
          standing better s dataset name asOf :=
        (hp.standing_of_not_opened hd hD hsleeve hl better ho).trans
          (hp.standing_of_not_closed hd hD hsleeve hl better hc)
      rw [mem_keys_activePositions (hp.ledger_after hd hl) hread ha', hstands] at hn
      exact (mem_keys_activePositions hl hread ha).mpr hn

end Record

/-! ### Who owns a name -/

inductive Owner
  | book
  | news
  | insider
deriving DecidableEq

variable {β : Type}

/-- The world that all share, and the names that the book has opened and not closed. -/
structure Estate (β : Type) where
  world : World β
  book : List String := []

def Estate.Owns (s : Estate β) : Owner → String → Prop
  | .book, name => name ∈ s.book
  | .news, name => OnRecord NewsSleeve.newer NewsSleeve.readPosition NewsSleeve.sleeveDataset
      s.world.store name
  | .insider, name => OnRecord InsiderSleeve.newer InsiderSleeve.readPosition
      InsiderSleeve.sleeveDataset s.world.store name

/-- Of the orders for the book that are not refused, one toward zero closes its name, and any other
one opens it. -/
def bookAfter (B : Broker β) (c : EngineCall β) (book : List String) : List String :=
  let taken := (rebalanceAnswers B c).map fun a ↦ a.order.symbol
  book.filter (fun name ↦ ¬(name ∈ taken ∧ Dict.getD c.target name 0 = 0)) ++
    taken.filter (fun name ↦ Dict.getD c.target name 0 ≠ 0)

def ordersOf (B : Broker β) (c : EngineCall β) : List Order :=
  sentOrders B c.engine c.world.broker c.target c.prices c.asOf

section Calls

variable {D : Digests} {B : Broker β} {c : EngineCall β}

theorem mem_of_mem_answers {orders : List Order} {b : β} {p : Order × Order}
    (h : p ∈ answers B b orders) : p.1 ∈ orders := by
  induction orders generalizing b with
  | nil => cases h
  | cons o orders ih =>
    rw [answers] at h
    split at h
    · rcases List.mem_cons.mp h with rfl | h
      · exact List.mem_cons_self
      · exact List.mem_cons_of_mem _ (ih h)
    · exact List.mem_cons_of_mem _ (ih h)

theorem mem_names_of_sent {o : Order} (h : o ∈ ordersOf B c) :
    o.symbol ∈ (Request.rebalance c).names B := by
  unfold ordersOf sentOrders at h
  unfold Request.names
  dsimp only
  split at h
  · cases h
  · next hgate =>
    rw [if_neg hgate]
    obtain ⟨p, hp, rfl⟩ := List.mem_map.mp (List.mem_of_mem_take h)
    obtain ⟨t, ht, hplan⟩ := mem_plan.mp (List.mem_of_mem_filter hp)
    have hworth := congrArg (Option.map fun q ↦ q.1.clientOrderId) hplan
    rw [map_id_planOrder] at hworth
    obtain ⟨-, -, -, -, hmove⟩ := planOrder_eq_some.mp hplan
    rw [hmove]
    have hworth := (Option.ite_none_right_eq_some.mp hworth).1
    exact List.mem_map.mpr ⟨t, List.mem_filter.mpr ⟨ht, hworth⟩, rfl⟩

theorem names_subset_keys : (Request.rebalance c).names B ⊆ c.target.keys := by
  intro name hn
  unfold Request.names at hn
  dsimp only at hn
  split at hn
  · cases hn
  · obtain ⟨t, ht, rfl⟩ := List.mem_map.mp hn
    exact Keyed.mem_keys.mpr ⟨t, List.mem_of_mem_filter ht, rfl⟩

theorem mem_bookAfter {book : List String} {name : String} (h : name ∈ bookAfter B c book) :
    name ∈ book ∨ name ∈ (Request.rebalance c).names B := by
  rcases List.mem_append.mp h with h | h
  · exact .inl (List.mem_of_mem_filter h)
  · right
    obtain ⟨a, ha, rfl⟩ := List.mem_map.mp (List.mem_of_mem_filter h)
    obtain ⟨p, hp, rfl⟩ := List.mem_map.mp ha
    exact mem_names_of_sent (mem_of_mem_answers hp)

end Calls

/-! ### The book of the daily cycle -/

section LiveBook

variable (N : Numerics) (D : Digests) (B : Broker β) (settings : Settings) (inputs : LiveInputs)
  (w : World β) (asOf : Datetime)

/-- The daily cycle up to the pass of the insider sleeve. -/
def liveBook : Except CycleError CycleResult × World β :=
  match liveGate settings with
  | some e => (.error e, w)
  | none =>
    let w₁ := { w with store := ingest D w.store inputs.bars }
    match closePrices w₁.store asOf inputs.watchlist with
    | .error e => (.error (.trading e), w₁)
    | .ok prices =>
      let w₂ := { w₁ with store := ingestFlows D settings inputs w₁.store }
      match bookInputs settings inputs w₂.store asOf with
      | .error e => (.error e, w₂)
      | .ok (scoreFn, reserved) =>
        runPaperCycle N D B settings (liveOptions settings inputs scoreFn reserved) w₂ asOf
          inputs.watchlist prices

def liveBookCall : Option (EngineCall β) :=
  match liveGate settings with
  | some _ => none
  | none =>
    let w₁ := { w with store := ingest D w.store inputs.bars }
    match closePrices w₁.store asOf inputs.watchlist with
    | .error _ => none
    | .ok prices =>
      let w₂ := { w₁ with store := ingestFlows D settings inputs w₁.store }
      match bookInputs settings inputs w₂.store asOf with
      | .error _ => none
      | .ok (scoreFn, reserved) =>
        paperCall N D B settings (liveOptions settings inputs scoreFn reserved) w₂ asOf
          inputs.watchlist prices

/-- An enabled insider sleeve runs after a book that has not failed. -/
def sleeveFollows (out : Except CycleError CycleResult × World β) : Bool :=
  out.1.isOk && settings.insiderSleeveEnabled

def sleeveAfter (out : Except CycleError CycleResult × World β) : World β :=
  if sleeveFollows settings out then
    (InsiderSleeve.runInsiderSleeveCycle D B settings out.2 inputs.insiderUniverse inputs.gate
      asOf).2
  else out.2

def sleeveCallAfter (out : Except CycleError CycleResult × World β) : Option (EngineCall β) :=
  if sleeveFollows settings out then
    insiderCall D settings out.2 inputs.insiderUniverse inputs.gate asOf
  else none

theorem runLivePaperCycle_eq : (runLivePaperCycle N D B settings inputs w asOf).2 =
    sleeveAfter D B settings inputs asOf (liveBook N D B settings inputs w asOf) := by
  unfold runLivePaperCycle liveBook
  cases liveGate settings with
  | some e => rfl
  | none =>
    dsimp only
    cases closePrices (ingest D w.store inputs.bars) asOf inputs.watchlist with
    | error e => rfl
    | ok prices =>
      dsimp only
      cases bookInputs settings inputs
          (ingestFlows D settings inputs (ingest D w.store inputs.bars)) asOf with
      | error e => rfl
      | ok book =>
        obtain ⟨scoreFn, reserved⟩ := book
        dsimp only
        rcases runPaperCycle N D B settings (liveOptions settings inputs scoreFn reserved)
          { w with store := ingestFlows D settings inputs (ingest D w.store inputs.bars) } asOf
          inputs.watchlist prices with ⟨result, w'⟩
        cases result <;> rfl

theorem liveCalls_eq : liveCalls N D B settings inputs w asOf =
    (liveBookCall N D B settings inputs w asOf).toList ++
      (sleeveCallAfter D settings inputs asOf
        (liveBook N D B settings inputs w asOf)).toList := by
  unfold liveCalls liveBookCall liveBook
  cases liveGate settings with
  | some e => rfl
  | none =>
    dsimp only
    cases closePrices (ingest D w.store inputs.bars) asOf inputs.watchlist with
    | error e => rfl
    | ok prices =>
      dsimp only
      cases bookInputs settings inputs
          (ingestFlows D settings inputs (ingest D w.store inputs.bars)) asOf with
      | error e => rfl
      | ok book =>
        obtain ⟨scoreFn, reserved⟩ := book
        dsimp only
        split
        · next h =>
          rw [h]
          rfl
        · next h =>
          rw [h]
          unfold sleeveCallAfter sleeveFollows
          cases settings.insiderSleeveEnabled <;> rfl

end LiveBook

section Paper

variable {N : Numerics} {D : Digests} {B : Broker β} {settings : Settings} {w : World β}
  {asOf : Datetime} {c : EngineCall β}

theorem spares_cyclePlan {options : CycleOptions} {symbols : List String}
    {prices : Dict String ℚ} {dataset : String} (hd : predictionDataset ≠ dataset)
    {p : CyclePlan β} (h : cyclePlan N D B settings options w asOf symbols prices = some p) :
    Spares D dataset w.store p.world.store := by
  unfold cyclePlan at h
  dsimp only at h
  split at h
  · cases h
  · split at h
    · cases h
    · cases h
      dsimp only
      split
      · exact spares_logCyclePredictions hd _ _ _ _ _ _
      · exact .refl _

theorem paperCall_spec {options : CycleOptions} {symbols : List String} {prices : Dict String ℚ}
    (h : c ∈ paperCall N D B settings options w asOf symbols prices) :
    (∀ dataset, predictionDataset ≠ dataset → Spares D dataset w.store c.world.store) ∧
      ∀ name ∈ c.target.keys, name ∉ options.reserved := by
  rw [paperCall_eq] at h
  obtain ⟨p, hp, hc⟩ := Option.bind_eq_some_iff.mp h
  obtain ⟨hpositions, matrix, ranked, hbook⟩ := cyclePlan_spec hp
  unfold CyclePlan.call at hc
  split at hc
  · cases hc
  · cases hc
    refine ⟨fun dataset hd ↦ spares_cyclePlan hd hp, fun name hn ↦ ?_⟩
    · rcases (mem_keys_flattenDropped _ _ _ _).mp hn with hn | ⟨hn, -⟩
      · simpa using (List.mem_filter.mp (namesIn_targetBook hbook name hn)).2
      · obtain ⟨pos, hpos, rfl⟩ := List.mem_map.mp hn
        rw [hpositions] at hpos
        simpa using (List.mem_filter.mp hpos).2

end Paper

section Reserved

variable {N : Numerics} {D : Digests} {B : Broker β} {settings : Settings} {inputs : LiveInputs}
  {w : World β} {asOf : Datetime} {dataset : String}

theorem not_mem_bookDatasets (hd : dataset ∈ sleeveDatasets) : dataset ∉ bookDatasets := by
  rcases List.mem_pair.mp hd with rfl | rfl <;> decide

theorem spares_liveBook (hin : inputs.Collected)
    (hd : dataset ∈ sleeveDatasets) :
    Spares D dataset w.store (liveBook N D B settings inputs w asOf).2.store := by
  have hbars : Spares D dataset w.store (ingest D w.store inputs.bars) := hin.1.spares hd w.store
  have hflows : Spares D dataset w.store (ingested D settings inputs w.store) :=
    spares_ingested hin hd w.store
  unfold liveBook
  dsimp only
  split
  · exact .refl _
  · split
    · exact hbars
    · split
      · exact hflows
      · exact hflows.trans
          (spares_runPaperCycle (not_mem_bookDatasets hd) N B settings _ _ asOf _ _)

theorem liveBookCall_spec (hin : inputs.Collected) {c : EngineCall β}
    (h : c ∈ liveBookCall N D B settings inputs w asOf) :
    (∀ dataset ∈ sleeveDatasets,
      Spares D dataset w.store c.world.store) ∧
    ∃ reserved, reservedNames settings (ingested D settings inputs w.store) asOf = .ok reserved ∧
      ∀ name ∈ c.target.keys, name ∉ reserved := by
  unfold liveBookCall at h
  dsimp only at h
  split at h
  · cases h
  · split at h
    · cases h
    · split at h
      · cases h
      · next reserved hbook =>
        obtain ⟨hspares, hout⟩ := paperCall_spec h
        refine ⟨fun dataset hd ↦ (spares_ingested hin hd w.store).trans (hspares dataset ?_),
          reserved, reservedNames_of_bookInputs hbook, hout⟩
        rcases List.mem_pair.mp hd with rfl | rfl <;> decide

theorem reservedNames_spec {store : InMemoryBitemporalStore} {reserved : List String}
    (h : reservedNames settings store asOf = .ok reserved) :
    (settings.newsSleeveEnabled → ∃ active,
      NewsSleeve.activeSleevePositions store asOf = .ok active ∧ active.keys ⊆ reserved) ∧
    (settings.insiderSleeveEnabled → ∃ active,
      InsiderSleeve.activeInsiderPositions store asOf = .ok active ∧ active.keys ⊆ reserved) := by
  let news : Except TradingError (List String) :=
    if settings.newsSleeveEnabled then
      (NewsSleeve.activeSleevePositions store asOf).map Keyed.keys else .ok []
  let insider : Except TradingError (List String) :=
    if settings.insiderSleeveEnabled then
      (InsiderSleeve.activeInsiderPositions store asOf).map Keyed.keys else .ok []
  have heq : reservedNames settings store asOf =
      news.bind fun names ↦ insider.map fun names' ↦ names ++ names' := by
    unfold reservedNames
    simp only [news, insider]
    cases settings.newsSleeveEnabled <;> cases settings.insiderSleeveEnabled <;> rfl
  rw [heq] at h
  cases hn : news with
  | error e =>
    rw [hn] at h
    cases h
  | ok names =>
    rw [hn] at h
    obtain ⟨names', hi, rfl⟩ := map_eq_ok.mp h
    constructor
    · intro henabled
      rw [show news = _ from if_pos henabled] at hn
      obtain ⟨active, ha, rfl⟩ := map_eq_ok.mp hn
      exact ⟨active, ha, List.subset_append_left _ _⟩
    · intro henabled
      rw [show insider = _ from if_pos henabled] at hi
      obtain ⟨active, ha, rfl⟩ := map_eq_ok.mp hi
      exact ⟨active, ha, List.subset_append_right _ _⟩

/-- The names on record of the enabled sleeves are reserved. -/
theorem mem_reserved (hD : Function.Injective D.uuid5) (hi : Identified D w.store)
    (hin : inputs.Collected) {reserved : List String}
    (h : reservedNames settings (ingested D settings inputs w.store) asOf = .ok reserved)
    (hk : ∀ dataset ∈ sleeveDatasets,
      KnownBy dataset w.store asOf) (book : List String) (name : String) :
    (settings.newsSleeveEnabled → Estate.Owns ⟨w, book⟩ .news name → name ∈ reserved) ∧
      (settings.insiderSleeveEnabled → Estate.Owns ⟨w, book⟩ .insider name → name ∈ reserved) := by
  have hnews : NewsSleeve.sleeveDataset ∈ sleeveDatasets := List.mem_pair.mpr (.inl rfl)
  have hinsider : InsiderSleeve.sleeveDataset ∈ sleeveDatasets := List.mem_pair.mpr (.inr rfl)
  have hspares : ∀ dataset ∈ sleeveDatasets,
      Spares D dataset w.store (ingested D settings inputs w.store) :=
    fun dataset hd ↦ spares_ingested hin hd w.store
  obtain ⟨hn, hs⟩ := reservedNames_spec h
  constructor
  · intro henabled howns
    obtain ⟨active, ha, hsub⟩ := hn henabled
    have hspares := hspares _ hnews
    exact hsub (OnRecord.mem howns (hk _ hnews)
      ((hspares.activePositions_eq hD hi _ _ asOf).symm.trans ha))
  · intro henabled howns
    obtain ⟨active, ha, hsub⟩ := hs henabled
    have hspares := hspares _ hinsider
    exact hsub (OnRecord.mem howns (hk _ hinsider)
      ((hspares.activePositions_eq hD hi _ _ asOf).symm.trans ha))

end Reserved

end MarketTrader.Runtime
