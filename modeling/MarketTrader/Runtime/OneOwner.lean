import MarketTrader.Runtime.NameOwners

namespace MarketTrader.Runtime

open Library MarketTrader.Core Storage InMemoryBitemporalStore Config Portfolio Execution Feedback

variable {β π : Type} {D : Digests}

/-! ### A pass of a sleeve -/

/-- What a pass leaves of the ledger, and what it asks of its engine, by the names that it opens. -/
structure SleevePart (better : Observation → Observation → Bool)
    (read : Observation → Except TradingError π) (dataset : String)
    (s s' : InMemoryBitemporalStore) (opens : List String) (call : Option (EngineCall β)) :
    Prop where
  record : ∀ name, OnRecord better read dataset s' name →
    OnRecord better read dataset s name ∨ name ∈ opens
  store : ∀ c ∈ call, c.world.store = s'
  target : ∀ c ∈ call, ∀ name ∈ c.target.keys,
    OnRecord better read dataset s name ∨ name ∈ opens

theorem sleeveCall_spec {engine : ExecutionEngine} {w : World β} {p : SleevePass}
    {prices : Dict String ℚ} {asOf : Datetime} {c : EngineCall β}
    (h : c ∈ sleeveCall engine w p prices asOf) :
    c.world.store = p.store ∧ c.target = p.target := by
  unfold sleeveCall at h
  split at h
  · cases h
  · cases h
    exact ⟨rfl, rfl⟩

section Part

variable {dataset : String} {s s' : InMemoryBitemporalStore} {asOf : Datetime}
  {better : Observation → Observation → Bool} {read : Observation → Except TradingError π}

theorem sleevePart_of_spares (hD : Function.Injective D.uuid5) (hi : Identified D s)
    (h : Spares D dataset s s') :
    SleevePart better read dataset s s' [] (none : Option (EngineCall β)) where
  record _ hn := .inl (hn.of_spares hD hi h)
  store c hc := by cases hc
  target c hc := by cases hc

theorem PassSpec.sleevePart {IsRow : Observation → Prop} {weight : ℚ}
    {dues : List (String × Observation)} {opens : List (String × Observation × Observation)}
    {p : SleevePass} {s₀ : InMemoryBitemporalStore}
    (hp : PassSpec D dataset IsRow asOf weight s₀ dues opens p) (hd : '|' ∉ dataset.toList)
    (hD : Function.Injective D.uuid5) (hsleeve : ∀ o, IsRow o → IsSleeveRow D dataset o)
    (hread : ∀ o, IsRow o → isOpen o → ∃ pos, read o = .ok pos) (hl : Ledger D dataset IsRow s)
    (hs : Spares D dataset s s₀) (hk : KnownBy dataset s asOf) {active : Dict String π}
    (ha : activePositions better read dataset s₀ asOf = .ok active)
    (hdues : ∀ a ∈ dues, a.1 ∈ active.keys) {call : Option (EngineCall β)}
    (hcall : ∀ c ∈ call, c.world.store = p.store ∧ c.target = p.target) :
    SleevePart better read dataset s p.store p.opened call := by
  have hactive : ∀ name ∈ active.keys, OnRecord better read dataset s name := by
    intro name hn
    exact OnRecord.of_spares hD hl.identified hs ⟨asOf, active, hs.knownBy hk, ha, hn⟩
  refine ⟨fun name hn ↦ ?_, fun c hc ↦ (hcall c hc).1, fun c hc name hn ↦ ?_⟩
  · rcases hp.onRecord hd hD hsleeve (hs.ledger hl) hread (hs.knownBy hk) ha hdues hn with ho | hn
    · exact .inr ho
    · exact .inl (hactive name hn)
  · rw [(hcall c hc).2, hp.target, Dict.mem_keys_iff, get?_passTarget] at hn
    obtain ⟨v, hv⟩ := hn
    split at hv
    · next ho => exact .inr ho
    · split at hv
      · next hc' =>
        rw [hp.closed] at hc'
        obtain ⟨a, hm, rfl⟩ := List.mem_map.mp hc'
        exact .inl (hactive a.1 (hdues a hm))
      · cases hv

end Part

namespace NewsSleeve

/-- The names that a pass opens. -/
def opens (D : Digests) (settings : Settings) (s : InMemoryBitemporalStore)
    (watchlist : List String) (asOf : Datetime) : List String :=
  match closePhase D settings s watchlist asOf with
  | .error _ => []
  | .ok (p, b, live) =>
    match openPhase D settings watchlist asOf p b live with
    | .error _ => []
    | .ok p' => p'.opened

variable {B : Broker β} {settings : Settings} {w : World β} {fetched : List Observation}
  {watchlist : List String} {limits : Option RiskLimits} {asOf : Datetime}

theorem mem_keys_of_closings {active : Dict String SleevePosition} {prices : Dict String ℚ}
    {a : String × Observation} (h : a ∈ closings D settings prices asOf active) :
    a.1 ∈ active.keys := by
  obtain ⟨pos, hp, rfl⟩ := List.mem_map.mp h
  exact Keyed.mem_keys.mpr ⟨pos, List.mem_of_mem_filter hp, rfl⟩

section Decision

variable {s : InMemoryBitemporalStore} {active : Dict String SleevePosition}
  {prices : Dict String ℚ} (hl : Ledger D sleeveDataset (IsRow D) s)
  (ha : activeSleevePositions s asOf = .ok active)

include hl ha

theorem closedPass_passSpec : PassSpec D sleeveDataset (IsRow D) asOf (perName settings) s
    (closings D settings prices asOf active) [] (closedPass D settings prices asOf s active) :=
  openLoop_spec settings (b := briefing prices s asOf) hl ha rfl
    (fun ev (hev : ev ∈ []) ↦ by cases hev) []

theorem openPhase_passSpec {live : List String} {p : SleevePass}
    (h : openPhase D settings watchlist asOf (closedPass D settings prices asOf s active)
      (briefing prices s asOf) live = .ok p) :
    ∃ rows, PassSpec D sleeveDataset (IsRow D) asOf (perName settings) s
      (closings D settings prices asOf active) rows p := by
  unfold openPhase at h
  cases he : detectNewsEvents D (closedPass D settings prices asOf s active).store asOf watchlist
      settings.newsSleeveCountSurge settings.newsSleeveToneMin
      settings.newsSleeveBaselineDays with
  | error err =>
    rw [he] at h
    cases h
  | ok events =>
    rw [he] at h
    cases h
    exact ⟨_, openLoop_spec settings (b := briefing prices s asOf) hl ha rfl
      (fun ev hev ↦ isHash_of_mem_detectNewsEvents he (mem_sortBy.mp hev)) live⟩

end Decision

variable (limits) in
theorem sleevePart (hD : Function.Injective D.uuid5) (hf : Wire fetched)
    (hl : Ledger D sleeveDataset (IsRow D) w.store) (hk : KnownBy sleeveDataset w.store asOf) :
    SleevePart newer readPosition sleeveDataset w.store
      (runNewsSleeveCycle D B settings w fetched watchlist limits asOf).2.store
      (opens D settings (received D w.store fetched) watchlist asOf)
      (newsCall D settings w fetched watchlist limits asOf) := by
  have hs : Spares D sleeveDataset w.store (received D w.store fetched) :=
    spares_received hf (by decide) w.store
  have hl' := ledger_received hf hl
  obtain ⟨active, ha⟩ := activeSleevePositions_total hl' asOf
  have hpart : ∀ {rows p prices} {call : Option (EngineCall β)},
      PassSpec D sleeveDataset (IsRow D) asOf (perName settings) (received D w.store fetched)
        (closings D settings prices asOf active) rows p →
      (∀ c ∈ call, c.world.store = p.store ∧ c.target = p.target) →
      SleevePart newer readPosition sleeveDataset w.store p.store p.opened call :=
    fun hp hcall ↦ hp.sleevePart bar_not_mem_sleeveDataset hD (fun _ ↦ isSleeveRow_of_isRow)
      (fun _ ↦ readPosition_total) hl hs hk ha (fun _ ↦ mem_keys_of_closings) hcall
  unfold opens newsCall
  cases hp : latestPrices (received D w.store fetched) asOf watchlist with
  | error err =>
    have hclose : closePhase D settings (received D w.store fetched) watchlist asOf =
        .error err := by
      unfold closePhase
      rw [hp]
      rfl
    rw [run_of_close_error hclose, hclose]
    exact sleevePart_of_spares hD hl.identified hs
  | ok prices =>
    have hclose := closePhase_eq D settings ha hp
    cases hopen : openPhase D settings watchlist asOf
        (closedPass D settings prices asOf (received D w.store fetched) active)
        (briefing prices (received D w.store fetched) asOf)
        (remaining settings prices asOf active) with
    | error err =>
      rw [run_of_open_error limits hclose hopen, hclose]
      dsimp only
      rw [hopen]
      have hnone := (closedPass_spec D settings prices asOf (received D w.store fetched) active).1
      have hclosed : SleevePart newer readPosition sleeveDataset w.store
          (closedPass D settings prices asOf (received D w.store fetched) active).store
          (closedPass D settings prices asOf (received D w.store fetched) active).opened
          (none : Option (EngineCall β)) :=
        hpart (closedPass_passSpec hl' ha) fun c hc ↦ by cases hc
      rw [hnone] at hclosed
      exact hclosed
    | ok p =>
      rw [run_of_opened limits hclose hopen, executePass_world rfl, hclose]
      dsimp only
      rw [hopen]
      obtain ⟨rows, hspec⟩ := openPhase_passSpec hl' ha hopen
      exact hpart hspec fun c hc ↦ sleeveCall_spec hc

end NewsSleeve

namespace InsiderSleeve

def opens (D : Digests) (settings : Settings) (s : InMemoryBitemporalStore)
    (universeNames : List String) (gate : Gate) (asOf : Datetime) : List String :=
  match decidePass D settings s universeNames gate asOf with
  | .error _ => []
  | .ok (p, _) => p.opened

variable {B : Broker β} {settings : Settings} {w : World β} {universeNames : List String}
  {gate : Gate} {asOf : Datetime}

theorem mem_keys_of_closings {active : Dict String InsiderSleevePosition}
    {prices : Dict String ℚ} {a : String × Observation}
    (h : a ∈ closings D settings prices asOf active) : a.1 ∈ active.keys := by
  obtain ⟨pos, hp, rfl⟩ := List.mem_map.mp h
  exact Keyed.mem_keys.mpr ⟨pos, List.mem_of_mem_filter hp, rfl⟩

theorem sleevePart (hD : Function.Injective D.uuid5)
    (hl : Ledger D sleeveDataset (IsRow D) w.store) (hk : KnownBy sleeveDataset w.store asOf) :
    SleevePart newer readPosition sleeveDataset w.store
      (runInsiderSleeveCycle D B settings w universeNames gate asOf).2.store
      (opens D settings w.store universeNames gate asOf)
      (insiderCall D settings w universeNames gate asOf) := by
  obtain ⟨active, ha⟩ := activeInsiderPositions_total hl asOf
  unfold runInsiderSleeveCycle opens insiderCall
  cases hdecide : decidePass D settings w.store universeNames gate asOf with
  | error err => exact sleevePart_of_spares hD hl.identified (.refl _)
  | ok decision =>
    obtain ⟨p, prices⟩ := decision
    have hp := decidePass_spec hD hl hdecide ha
    dsimp only
    rw [executePass_world rfl]
    exact hp.sleevePart bar_not_mem_sleeveDataset hD (fun _ ↦ isSleeveRow_of_isRow)
      (fun _ ↦ readPosition_total) hl (.refl _) hk ha (fun _ ↦ mem_keys_of_closings)
      fun c hc ↦ sleeveCall_spec hc

end InsiderSleeve

/-! ### What one owner does to the estate -/

variable {B : Broker β} {s s' : Estate β} {w' : World β} {taken : List String}
  {call : Option (EngineCall β)}

/-- One owner takes no more than these names, and trades nothing but them and what it owns. -/
structure PartOf (B : Broker β) (k : Owner) (taken : List String) (s s' : Estate β)
    (call : Option (EngineCall β)) : Prop where
  takes : TakesOnly s.Owns s'.Owns k taken
  calling : ∀ c ∈ call, TakesOnly s.Owns (Estate.Owns ⟨c.world, s.book⟩) k taken
  trades : ∀ c ∈ call, ∀ name ∈ (Request.rebalance c).names B, s.Owns k name ∨ name ∈ taken

/-- An owner's call on its engine, and the names of the book at that moment. -/
structure Moment (β : Type) where
  owner : Owner
  book : List String
  call : EngineCall β

def Moment.estate (m : Moment β) : Estate β := ⟨m.call.world, m.book⟩

/-- No name has two owners, and none that is ordered is another's. -/
def Moment.Fair (B : Broker β) (m : Moment β) : Prop :=
  Separate m.estate.Owns ∧
    FreeFor m.estate.Owns m.owner ((ordersOf B m.call).map Order.symbol)

theorem PartOf.fair {k : Owner} (h : PartOf B k taken s s' call) (hs : Separate s.Owns)
    (hf : FreeFor s.Owns k taken) :
    Separate s'.Owns ∧ ∀ c ∈ call, Moment.Fair B ⟨k, s.book, c⟩ := by
  refine ⟨h.takes.separate hf hs, fun c hc ↦ ⟨(h.calling c hc).separate hf hs, ?_⟩⟩
  refine (h.calling c hc).freeFor (hf.of_owned hs fun name hn ↦ ?_)
  obtain ⟨o, ho, rfl⟩ := List.mem_map.mp hn
  exact h.trades c hc _ (mem_names_of_sent ho)

section Takes

variable (hD : Function.Injective D.uuid5) (hi : Identified D s.world.store)

include hD hi

theorem takesOnly_book {book : List String}
    (hs : ∀ dataset ∈ sleeveDatasets, Spares D dataset s.world.store w'.store)
    (hb : ∀ name ∈ book, name ∈ s.book ∨ name ∈ taken) :
    TakesOnly s.Owns (Estate.Owns ⟨w', book⟩) .book taken := by
  intro k name h
  cases k with
  | book =>
    rcases hb name h with h | h
    · exact .inl h
    · exact .inr ⟨rfl, h⟩
  | news => exact .inl (OnRecord.of_spares hD hi (hs _ (List.mem_pair.mpr (.inl rfl))) h)
  | insider => exact .inl (OnRecord.of_spares hD hi (hs _ (List.mem_pair.mpr (.inr rfl))) h)

theorem takesOnly_news
    (h : SleevePart NewsSleeve.newer NewsSleeve.readPosition NewsSleeve.sleeveDataset
      s.world.store w'.store taken call)
    (hs : Spares D InsiderSleeve.sleeveDataset s.world.store w'.store) :
    TakesOnly s.Owns (Estate.Owns ⟨w', s.book⟩) .news taken := by
  intro k name hn
  cases k with
  | book => exact .inl hn
  | news =>
    rcases h.record name hn with hn | hn
    · exact .inl hn
    · exact .inr ⟨rfl, hn⟩
  | insider => exact .inl (OnRecord.of_spares hD hi hs hn)

theorem takesOnly_insider
    (h : SleevePart InsiderSleeve.newer InsiderSleeve.readPosition InsiderSleeve.sleeveDataset
      s.world.store w'.store taken call)
    (hs : Spares D NewsSleeve.sleeveDataset s.world.store w'.store) :
    TakesOnly s.Owns (Estate.Owns ⟨w', s.book⟩) .insider taken := by
  intro k name hn
  cases k with
  | book => exact .inl hn
  | news => exact .inl (OnRecord.of_spares hD hi hs hn)
  | insider =>
    rcases h.record name hn with hn | hn
    · exact .inl hn
    · exact .inr ⟨rfl, hn⟩

end Takes

/-- The names of the book after its call, if it makes one. -/
def bookWith (B : Broker β) (call : Option (EngineCall β)) (book : List String) : List String :=
  call.elim book (fun c ↦ bookAfter B c book)

theorem partOf_book (hD : Function.Injective D.uuid5) (hi : Identified D s.world.store)
    (hout : ∀ dataset ∈ sleeveDatasets, Spares D dataset s.world.store w'.store)
    (hcall : ∀ c ∈ call, ∀ dataset ∈ sleeveDatasets,
      Spares D dataset s.world.store c.world.store) :
    PartOf B .book (call.toList.flatMap fun c ↦ (Request.rebalance c).names B) s
      ⟨w', bookWith B call s.book⟩ call := by
  have hmem : ∀ c ∈ call, ∀ name ∈ (Request.rebalance c).names B,
      name ∈ call.toList.flatMap fun c ↦ (Request.rebalance c).names B :=
    fun c hc name hn ↦ List.mem_flatMap.mpr ⟨c, Option.mem_toList.mpr hc, hn⟩
  refine ⟨takesOnly_book hD hi hout fun name hn ↦ ?_,
    fun c hc ↦ takesOnly_book hD hi (hcall c hc) fun _ ↦ .inl,
    fun c hc name hn ↦ .inr (hmem c hc name hn)⟩
  cases call with
  | none => exact .inl hn
  | some c => exact (mem_bookAfter hn).imp_right (hmem c rfl name)

theorem partOf_news (hD : Function.Injective D.uuid5) (hi : Identified D s.world.store)
    (h : SleevePart NewsSleeve.newer NewsSleeve.readPosition NewsSleeve.sleeveDataset
      s.world.store w'.store taken call)
    (hs : Spares D InsiderSleeve.sleeveDataset s.world.store w'.store) :
    PartOf B .news taken s ⟨w', s.book⟩ call where
  takes := takesOnly_news hD hi h hs
  calling c hc := by
    have hstore := h.store c hc
    rw [← hstore] at h hs
    exact takesOnly_news hD hi h hs
  trades c hc name hn := h.target c hc name (names_subset_keys hn)

theorem partOf_insider (hD : Function.Injective D.uuid5) (hi : Identified D s.world.store)
    (h : SleevePart InsiderSleeve.newer InsiderSleeve.readPosition InsiderSleeve.sleeveDataset
      s.world.store w'.store taken call)
    (hs : Spares D NewsSleeve.sleeveDataset s.world.store w'.store) :
    PartOf B .insider taken s ⟨w', s.book⟩ call where
  takes := takesOnly_insider hD hi h hs
  calling c hc := by
    have hstore := h.store c hc
    rw [← hstore] at h hs
    exact takesOnly_insider hD hi h hs
  trades c hc name hn := h.target c hc name (names_subset_keys hn)

/-! ### Passes -/

/-- What is run, and what it is given. -/
inductive Routine
  | daily (inputs : LiveInputs)
  | intraday (inputs : IntradayInputs)
  | news (fetched : List Observation) (watchlist : List String) (limits : Option RiskLimits)
  | insider (universeNames : List String) (gate : Gate)

def Routine.Collected : Routine → Prop
  | daily inputs => inputs.Collected
  | intraday inputs => Runtime.Collected inputs.bars
  | news fetched _ _ => NewsSleeve.Wire fetched
  | insider .. => True

/-- The market moves, then one routine runs over the shared store and broker. -/
structure Shift (β : Type) where
  market : β → β
  asOf : Datetime
  routine : Routine

namespace Shift

section Run

variable (N : Numerics) (D : Digests) (B : Broker β) (settings : Settings)

def opening (s : Estate β) (p : Shift β) : Estate β :=
  { s with world := { s.world with broker := p.market s.world.broker } }

/-- Between the book of the daily cycle and the insider sleeve. -/
def afterBook (s : Estate β) (asOf : Datetime) (inputs : LiveInputs) : Estate β where
  world := (liveBook N D B settings inputs s.world asOf).2
  book := bookWith B (liveBookCall N D B settings inputs s.world asOf) s.book

def follows (s : Estate β) (asOf : Datetime) (inputs : LiveInputs) : Bool :=
  sleeveFollows settings (liveBook N D B settings inputs s.world asOf)

def step (s : Estate β) (p : Shift β) : Estate β :=
  let s := p.opening s
  match p.routine with
  | .daily inputs =>
    { world := (runLivePaperCycle N D B settings inputs s.world p.asOf).2
      book := bookWith B (liveBookCall N D B settings inputs s.world p.asOf) s.book }
  | .intraday inputs =>
    { world := (runIntradayCycle N D B settings inputs s.world p.asOf).2
      book := bookWith B (intradayCall N D B settings inputs s.world p.asOf) s.book }
  | .news fetched watchlist limits =>
    { s with
      world := (NewsSleeve.runNewsSleeveCycle D B settings s.world fetched watchlist limits
        p.asOf).2 }
  | .insider universeNames gate =>
    { s with
      world := (InsiderSleeve.runInsiderSleeveCycle D B settings s.world universeNames gate
        p.asOf).2 }

/-- The calls of a pass, each with its owner and the names of the book before it. -/
def moments (s : Estate β) (p : Shift β) : List (Moment β) :=
  let s := p.opening s
  match p.routine with
  | .daily inputs =>
    let s' := afterBook N D B settings s p.asOf inputs
    (liveBookCall N D B settings inputs s.world p.asOf).toList.map (⟨.book, s.book, ·⟩) ++
      (sleeveCallAfter D settings inputs p.asOf
        (liveBook N D B settings inputs s.world p.asOf)).toList.map (⟨.insider, s'.book, ·⟩)
  | .intraday inputs =>
    (intradayCall N D B settings inputs s.world p.asOf).toList.map (⟨.book, s.book, ·⟩)
  | .news fetched watchlist limits =>
    (newsCall D settings s.world fetched watchlist limits p.asOf).toList.map
      (⟨.news, s.book, ·⟩)
  | .insider universeNames gate =>
    (insiderCall D settings s.world universeNames gate p.asOf).toList.map
      (⟨.insider, s.book, ·⟩)

/-- No pass is dated before a row of a ledger that it reads. What a sleeve opens, and what the
intraday book trades, is not another's, and the daily book trades no name of a sleeve that is
not enabled. -/
def Apart (s : Estate β) (p : Shift β) : Prop :=
  let s := p.opening s
  match p.routine with
  | .daily inputs =>
    let s' := afterBook N D B settings s p.asOf inputs
    (∀ dataset ∈ sleeveDatasets, KnownBy dataset s.world.store p.asOf) ∧
    (∀ c ∈ liveBookCall N D B settings inputs s.world p.asOf,
      ∀ name ∈ (Request.rebalance c).names B,
        (s.Owns .news name → settings.newsSleeveEnabled) ∧
          (s.Owns .insider name → settings.insiderSleeveEnabled)) ∧
    (follows N D B settings s p.asOf inputs → FreeFor s'.Owns .insider
      (InsiderSleeve.opens D settings s'.world.store inputs.insiderUniverse inputs.gate p.asOf))
  | .intraday inputs =>
    ∀ c ∈ intradayCall N D B settings inputs s.world p.asOf,
      FreeFor s.Owns .book ((Request.rebalance c).names B)
  | .news fetched watchlist _ =>
    KnownBy NewsSleeve.sleeveDataset s.world.store p.asOf ∧ FreeFor s.Owns .news
      (NewsSleeve.opens D settings (NewsSleeve.received D s.world.store fetched) watchlist p.asOf)
  | .insider universeNames gate =>
    KnownBy InsiderSleeve.sleeveDataset s.world.store p.asOf ∧ FreeFor s.Owns .insider
      (InsiderSleeve.opens D settings s.world.store universeNames gate p.asOf)

end Run

variable {N : Numerics} {settings : Settings} {quote : β → String → ℚ → β}

/-- Every order of a pass is of one of its moments. -/
theorem leads_moments (s : Estate β) (p : Shift β) :
    Leads B quote (p.opening s).world
      ((p.moments N D B settings s).map fun m ↦ Request.rebalance m.call)
      (p.step N D B settings s).world := by
  have hcalls : ∀ (owner : Owner) (book : List String) (call : Option (EngineCall β)),
      (call.toList.map (Moment.mk owner book)).map (fun m ↦ Request.rebalance m.call) =
        call.toList.map Request.rebalance := by
    intro owner book call
    rw [List.map_map]
    rfl
  unfold moments step
  cases p.routine with
  | daily inputs =>
    have h : Leads B quote (p.opening s).world
        ((liveCalls N D B settings inputs (p.opening s).world p.asOf).map .rebalance)
        (runLivePaperCycle N D B settings inputs (p.opening s).world p.asOf).2 :=
      leads_liveCalls inputs
    rw [liveCalls_eq, List.map_append] at h
    rw [List.map_append, hcalls, hcalls]
    exact h
  | intraday inputs =>
    rw [hcalls]
    exact leads_intradayCall inputs
  | news fetched watchlist limits =>
    rw [hcalls]
    exact leads_newsCall fetched watchlist limits
  | insider universeNames gate =>
    rw [hcalls]
    exact leads_insiderCall universeNames gate

end Shift

/-- Both ledgers are in order, and no name has two owners. -/
structure Sound (D : Digests) (s : Estate β) : Prop where
  newsLedger : Ledger D NewsSleeve.sleeveDataset (NewsSleeve.IsRow D) s.world.store
  insiderLedger : Ledger D InsiderSleeve.sleeveDataset (InsiderSleeve.IsRow D) s.world.store
  separate : Separate s.Owns

namespace Sound

variable {N : Numerics} {settings : Settings} {asOf : Datetime} (h : Sound D s)
  (hD : Function.Injective D.uuid5)

include h hD

theorem book (hout : ∀ dataset ∈ sleeveDatasets, Spares D dataset s.world.store w'.store)
    (hcall : ∀ c ∈ call, ∀ dataset ∈ sleeveDatasets,
      Spares D dataset s.world.store c.world.store)
    (hf : ∀ c ∈ call, FreeFor s.Owns .book ((Request.rebalance c).names B)) :
    Sound D ⟨w', bookWith B call s.book⟩ ∧ ∀ c ∈ call, Moment.Fair B ⟨.book, s.book, c⟩ := by
  have hpart := partOf_book (B := B) hD h.newsLedger.identified hout hcall
  obtain ⟨hsep, hfair⟩ := hpart.fair h.separate fun name hn ↦ by
    obtain ⟨c, hc, hn⟩ := List.mem_flatMap.mp hn
    exact hf c (Option.mem_toList.mp hc) name hn
  exact ⟨⟨(hout _ (List.mem_pair.mpr (.inl rfl))).ledger h.newsLedger,
    (hout _ (List.mem_pair.mpr (.inr rfl))).ledger h.insiderLedger, hsep⟩, hfair⟩

theorem news (limits : Option RiskLimits) {fetched : List Observation}
    (hf : NewsSleeve.Wire fetched) {watchlist : List String}
    (hk : KnownBy NewsSleeve.sleeveDataset s.world.store asOf)
    (hfree : FreeFor s.Owns .news (NewsSleeve.opens D settings
      (NewsSleeve.received D s.world.store fetched) watchlist asOf)) :
    Sound D ⟨(NewsSleeve.runNewsSleeveCycle D B settings s.world fetched watchlist limits asOf).2,
        s.book⟩ ∧
      ∀ c ∈ newsCall D settings s.world fetched watchlist limits asOf,
        Moment.Fair B ⟨.news, s.book, c⟩ := by
  have hspares : Spares D InsiderSleeve.sleeveDataset s.world.store
      (NewsSleeve.runNewsSleeveCycle D B settings s.world fetched watchlist limits asOf).2.store :=
    NewsSleeve.spares_run asOf B settings watchlist limits hf h.newsLedger (by decide)
  obtain ⟨hsep, hfair⟩ := (partOf_news hD h.newsLedger.identified
    (NewsSleeve.sleevePart (B := B) limits hD hf h.newsLedger hk) hspares).fair
    h.separate hfree
  exact ⟨⟨NewsSleeve.ledger_run hf h.newsLedger,
    hspares.ledger h.insiderLedger, hsep⟩, hfair⟩

theorem insider {universeNames : List String} {gate : Gate}
    (hk : KnownBy InsiderSleeve.sleeveDataset s.world.store asOf)
    (hfree : FreeFor s.Owns .insider
      (InsiderSleeve.opens D settings s.world.store universeNames gate asOf)) :
    Sound D ⟨(InsiderSleeve.runInsiderSleeveCycle D B settings s.world universeNames gate asOf).2,
        s.book⟩ ∧
      ∀ c ∈ insiderCall D settings s.world universeNames gate asOf,
        Moment.Fair B ⟨.insider, s.book, c⟩ := by
  have hspares : Spares D NewsSleeve.sleeveDataset s.world.store
      (InsiderSleeve.runInsiderSleeveCycle D B settings s.world universeNames gate asOf).2.store :=
    InsiderSleeve.spares_run asOf B settings universeNames gate hD h.insiderLedger (by decide)
  obtain ⟨hsep, hfair⟩ := (partOf_insider hD h.insiderLedger.identified
    (InsiderSleeve.sleevePart (B := B) hD h.insiderLedger hk) hspares).fair h.separate hfree
  exact ⟨⟨hspares.ledger h.newsLedger,
    InsiderSleeve.ledger_run hD h.insiderLedger, hsep⟩, hfair⟩

theorem afterBook {inputs : LiveInputs} (hin : inputs.Collected)
    (hk : ∀ dataset ∈ sleeveDatasets, KnownBy dataset s.world.store asOf)
    (henabled : ∀ c ∈ liveBookCall N D B settings inputs s.world asOf,
      ∀ name ∈ (Request.rebalance c).names B,
        (s.Owns .news name → settings.newsSleeveEnabled) ∧
          (s.Owns .insider name → settings.insiderSleeveEnabled)) :
    Sound D (Shift.afterBook N D B settings s asOf inputs) ∧
      ∀ c ∈ liveBookCall N D B settings inputs s.world asOf,
        Moment.Fair B ⟨.book, s.book, c⟩ := by
  refine h.book hD (fun _ ↦ spares_liveBook hin) (fun c hc ↦ (liveBookCall_spec hin hc).1) ?_
  intro c hc name hn owner howns
  obtain ⟨-, reserved, hreserved, hout⟩ := liveBookCall_spec hin hc
  obtain ⟨hnews, hinsider⟩ :=
    mem_reserved hD h.newsLedger.identified hin hreserved hk s.book name
  obtain ⟨hn₁, hn₂⟩ := henabled c hc name hn
  have hname := hout name (names_subset_keys hn)
  cases owner with
  | book => rfl
  | news => exact absurd (hnews (hn₁ howns) howns) hname
  | insider => exact absurd (hinsider (hn₂ howns) howns) hname

theorem daily {inputs : LiveInputs} (hin : inputs.Collected)
    (hk : ∀ dataset ∈ sleeveDatasets, KnownBy dataset s.world.store asOf)
    (henabled : ∀ c ∈ liveBookCall N D B settings inputs s.world asOf,
      ∀ name ∈ (Request.rebalance c).names B,
        (s.Owns .news name → settings.newsSleeveEnabled) ∧
          (s.Owns .insider name → settings.insiderSleeveEnabled))
    (hfree : let s' := Shift.afterBook N D B settings s asOf inputs
      Shift.follows N D B settings s asOf inputs → FreeFor s'.Owns .insider
        (InsiderSleeve.opens D settings s'.world.store inputs.insiderUniverse inputs.gate asOf)) :
    let s' := Shift.afterBook N D B settings s asOf inputs
    Sound D ⟨(runLivePaperCycle N D B settings inputs s.world asOf).2, s'.book⟩ ∧
      (∀ c ∈ liveBookCall N D B settings inputs s.world asOf, Moment.Fair B ⟨.book, s.book, c⟩) ∧
      (∀ c ∈ sleeveCallAfter D settings inputs asOf (liveBook N D B settings inputs s.world asOf),
        Moment.Fair B ⟨.insider, s'.book, c⟩) := by
  intro s'
  obtain ⟨hs', hbook⟩ := h.afterBook (B := B) (N := N) hD hin hk henabled
  rw [runLivePaperCycle_eq]
  unfold sleeveAfter sleeveCallAfter
  split
  · next hfollows =>
    have hk' : KnownBy InsiderSleeve.sleeveDataset s'.world.store asOf :=
      (spares_liveBook hin (List.mem_pair.mpr (.inr rfl))).knownBy
        (hk _ (List.mem_pair.mpr (.inr rfl)))
    obtain ⟨hsound, hcalls⟩ := hs'.insider (B := B) hD hk' (hfree hfollows)
    exact ⟨hsound, hbook, hcalls⟩
  · exact ⟨hs', hbook, fun c hc ↦ by cases hc⟩

theorem intraday {inputs : IntradayInputs} (hin : Runtime.Collected inputs.bars)
    (hfree : ∀ c ∈ intradayCall N D B settings inputs s.world asOf,
      FreeFor s.Owns .book ((Request.rebalance c).names B)) :
    Sound D ⟨(runIntradayCycle N D B settings inputs s.world asOf).2,
        bookWith B (intradayCall N D B settings inputs s.world asOf) s.book⟩ ∧
      ∀ c ∈ intradayCall N D B settings inputs s.world asOf,
        Moment.Fair B ⟨.book, s.book, c⟩ := by
  have hbars : ∀ dataset ∈ sleeveDatasets,
      Spares D dataset s.world.store (ingest D s.world.store inputs.bars) :=
    fun _ hd ↦ hin.spares hd s.world.store
  refine h.book hD (fun dataset hd ↦ ?_) (fun c hc dataset hd ↦ ?_) hfree
  · unfold runIntradayCycle
    dsimp only
    split
    · exact .refl _
    · split
      · exact hbars dataset hd
      · exact (hbars dataset hd).trans
          (spares_runPaperCycle (not_mem_bookDatasets hd) N B settings _ _ asOf _ _)
  · unfold intradayCall at hc
    dsimp only at hc
    split at hc
    · cases hc
    · split at hc
      · cases hc
      · refine (hbars dataset hd).trans ((paperCall_spec hc).1 dataset ?_)
        rcases List.mem_pair.mp hd with rfl | rfl <;> decide

end Sound

section Run

variable {N : Numerics} {settings : Settings} {p : Shift β}

theorem Sound.opening (h : Sound D s) (p : Shift β) : Sound D (p.opening s) where
  newsLedger := h.newsLedger
  insiderLedger := h.insiderLedger
  separate k k' name hk hk' := h.separate k k' name
    (by cases k <;> exact hk) (by cases k' <;> exact hk')

theorem Sound.of_no_rows {w : World β} (hi : Identified D w.store)
    (hw : ∀ o ∈ w.store.toList, o.dataset ∉ sleeveDatasets) : Sound D ⟨w, []⟩ where
  newsLedger := ⟨hi, fun o ho hd ↦ absurd (List.mem_pair.mpr (.inl hd)) (hw o ho)⟩
  insiderLedger := ⟨hi, fun o ho hd ↦ absurd (List.mem_pair.mpr (.inr hd)) (hw o ho)⟩
  separate k k' name hk _ := by
    cases k with
    | book => cases hk
    | news =>
      exact absurd hk (not_onRecord_of_no_rows fun o ho hd ↦ hw o ho (List.mem_pair.mpr (.inl hd)))
    | insider =>
      exact absurd hk (not_onRecord_of_no_rows fun o ho hd ↦ hw o ho (List.mem_pair.mpr (.inr hd)))

theorem Sound.step (h : Sound D s) (hD : Function.Injective D.uuid5) (hin : p.routine.Collected)
    (ha : p.Apart N D B settings s) :
    Sound D (p.step N D B settings s) ∧ ∀ m ∈ p.moments N D B settings s, m.Fair B := by
  have h := h.opening p
  unfold Shift.Apart at ha
  unfold Shift.step Shift.moments
  cases hp : p.routine with
  | daily inputs =>
    rw [hp] at ha hin
    obtain ⟨hk, henabled, hfree⟩ := ha
    obtain ⟨hs, hbook, hinsider⟩ := h.daily (B := B) (N := N) hD hin hk henabled hfree
    refine ⟨hs, fun m hm ↦ ?_⟩
    rcases List.mem_append.mp hm with hm | hm
    · obtain ⟨c, hc, rfl⟩ := List.mem_map.mp hm
      exact hbook c (Option.mem_toList.mp hc)
    · obtain ⟨c, hc, rfl⟩ := List.mem_map.mp hm
      exact hinsider c (Option.mem_toList.mp hc)
  | intraday inputs =>
    rw [hp] at ha hin
    obtain ⟨hs, hcalls⟩ := h.intraday (B := B) hD hin ha
    refine ⟨hs, fun m hm ↦ ?_⟩
    obtain ⟨c, hc, rfl⟩ := List.mem_map.mp hm
    exact hcalls c (Option.mem_toList.mp hc)
  | news fetched watchlist limits =>
    rw [hp] at ha hin
    obtain ⟨hs, hcalls⟩ := h.news (B := B) hD limits hin ha.1 ha.2
    refine ⟨hs, fun m hm ↦ ?_⟩
    obtain ⟨c, hc, rfl⟩ := List.mem_map.mp hm
    exact hcalls c (Option.mem_toList.mp hc)
  | insider universeNames gate =>
    rw [hp] at ha
    obtain ⟨hs, hcalls⟩ := h.insider (B := B) hD ha.1 ha.2
    refine ⟨hs, fun m hm ↦ ?_⟩
    obtain ⟨c, hc, rfl⟩ := List.mem_map.mp hm
    exact hcalls c (Option.mem_toList.mp hc)

end Run

/-- In a run in which no pass takes a name of another owner, each name has one owner at most when a
pass makes a call and when it ends, and no order is for a name of another. -/
theorem one_owner (N : Numerics) {D : Digests} (hD : Function.Injective D.uuid5) (B : Broker β)
    (settings : Settings) (w : World β) (hi : Identified D w.store)
    (hw : ∀ o ∈ w.store.toList, o.dataset ∉ sleeveDatasets) (shifts : List (Shift β))
    (hin : ∀ p ∈ shifts, p.routine.Collected)
    (ha : Along (fun s (p : Shift β) ↦ p.step N D B settings s)
      (fun s p ↦ p.Apart N D B settings s) ⟨w, []⟩ shifts) :
    Along (fun s (p : Shift β) ↦ p.step N D B settings s)
      (fun s p ↦ Separate (p.step N D B settings s).Owns ∧
        ∀ m ∈ p.moments N D B settings s, m.Fair B) ⟨w, []⟩ shifts := by
  have hsound := ((Along.of_forall (fun _ ↦ hin) _).and ha).invariant (I := Sound D)
    (fun s p h hp ↦ (h.step hD hp.1 hp.2).1) (.of_no_rows hi hw)
  refine Along.mono (I := fun _ ↦ True) (fun _ _ _ ↦ trivial) ?_ trivial hsound
  rintro s p - ⟨h, hp⟩
  obtain ⟨hs, hm⟩ := h.step hD hp.1 hp.2
  exact ⟨hs.separate, hm⟩

/-! ### The daily cycle on a day with one cluster -/

/-- An empty account, with both names quoted. -/
def quotedWorld : World PaperBroker where
  broker := { prices := .ofList [("A", 100), ("B", 100)], cash := 1000, positions := .empty }
  store := .empty
  submitted := []

def dailyShift (inputs : LiveInputs) : Shift PaperBroker := ⟨id, 0, .daily inputs⟩

theorem not_mem_quotedWorld {o : Observation} : o ∉ quotedWorld.store.toList :=
  List.not_mem_nil

/-- The book buys one name, and the sleeve opens the other. -/
theorem one_owner_cluster_day :
    let s : Estate PaperBroker := ⟨quotedWorld, []⟩
    let step := Shift.step .plain .plain paperBroker (oneSleeve 1)
    let moments := Shift.moments .plain .plain paperBroker (oneSleeve 1)
    Separate (step s (dailyShift clusterDay)).Owns ∧
      ∀ m ∈ moments s (dailyShift clusterDay), m.Fair paperBroker := by
  intro s step moments
  let s' := Shift.afterBook .plain .plain paperBroker (oneSleeve 1) s 0 clusterDay
  let opens := InsiderSleeve.opens .plain (oneSleeve 1) s'.world.store
    clusterDay.insiderUniverse clusterDay.gate 0
  obtain ⟨hopens, hbook, hnews⟩ : opens = ["A"] ∧ s'.book = ["B"] ∧
      ∀ o ∈ s'.world.store.toList, o.dataset ≠ NewsSleeve.sleeveDataset := by decide +kernel
  have hfree : FreeFor s'.Owns .insider opens := by
    intro name hn owner ho
    rw [hopens, List.mem_singleton] at hn
    cases owner with
    | book =>
      have ho : name ∈ s'.book := ho
      rw [hbook, List.mem_singleton, hn] at ho
      exact absurd ho (by decide)
    | news => exact absurd ho (not_onRecord_of_no_rows hnews)
    | insider => rfl
  have hnone : ∀ name, ¬s.Owns .news name := fun _ ↦
    not_onRecord_of_no_rows fun _ ho ↦ absurd ho not_mem_quotedWorld
  have hapart : (dailyShift clusterDay).Apart .plain .plain paperBroker (oneSleeve 1) s :=
    ⟨fun _ _ _ ho ↦ absurd ho not_mem_quotedWorld,
      fun _ _ name _ ↦ ⟨fun ho ↦ absurd ho (hnone name), fun _ ↦ rfl⟩, fun _ ↦ hfree⟩
  exact (one_owner .plain Digests.plain_uuid5_injective paperBroker (oneSleeve 1) quotedWorld
    (fun _ ho ↦ absurd ho not_mem_quotedWorld) (fun _ ho ↦ absurd ho not_mem_quotedWorld)
    [dailyShift clusterDay]
    (fun _ hp ↦ by
      rw [List.mem_singleton.mp hp]
      exact collected_clusterDay)
    ⟨hapart, trivial⟩).1

/-- The sleeve opens, and trades, the name that the book has just bought. -/
theorem one_owner_cluster_bought :
    ¬∀ (β : Type) (N : Numerics) (D : Digests) (B : Broker β) (settings : Settings) (w : World β)
      (shifts : List (Shift β)), Function.Injective D.uuid5 → Identified D w.store →
        (∀ o ∈ w.store.toList, o.dataset ∉ sleeveDatasets) →
        (∀ p ∈ shifts, p.routine.Collected) →
        Along (fun s (p : Shift β) ↦ p.step N D B settings s)
          (fun s p ↦ ∀ dataset ∈ sleeveDatasets, KnownBy dataset s.world.store p.asOf)
          ⟨w, []⟩ shifts →
        Along (fun s (p : Shift β) ↦ p.step N D B settings s)
          (fun s p ↦ Separate (p.step N D B settings s).Owns ∧
            ∀ m ∈ p.moments N D B settings s, m.Fair B) ⟨w, []⟩ shifts := by
  intro h
  let s : Estate PaperBroker := ⟨quotedWorld, []⟩
  let s' := (dailyShift bookOnInsiders).step .plain .plain paperBroker (oneSleeve 1) s
  obtain ⟨hbook, hinsider, hknown⟩ :
      "A" ∈ s'.book ∧
      (InsiderSleeve.activeInsiderPositions s'.world.store 0).toOption.any
        (fun active ↦ "A" ∈ active.keys) ∧
      ∀ o ∈ s'.world.store.toList, o.knowledgeTime ≤ 0 := by decide +kernel
  have hrecord : s'.Owns .insider "A" := by
    cases ha : InsiderSleeve.activeInsiderPositions s'.world.store 0 with
    | error e =>
      rw [ha] at hinsider
      cases hinsider
    | ok active =>
      rw [ha] at hinsider
      exact ⟨0, active, fun o ho _ ↦ hknown o ho, ha, of_decide_eq_true hinsider⟩
  have hsep : Separate s'.Owns :=
    (h PaperBroker .plain .plain paperBroker (oneSleeve 1) quotedWorld
      [dailyShift bookOnInsiders] Digests.plain_uuid5_injective
      (fun _ ho ↦ absurd ho not_mem_quotedWorld) (fun _ ho ↦ absurd ho not_mem_quotedWorld)
      (fun _ hp ↦ by
        rw [List.mem_singleton.mp hp]
        exact collected_clusterDay)
      ⟨fun _ _ _ ho ↦ absurd ho not_mem_quotedWorld, trivial⟩).1.1
  exact Owner.noConfusion (hsep .book .insider "A" hbook hrecord)

end MarketTrader.Runtime
