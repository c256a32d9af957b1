import MarketTrader.Execution.DrawdownMark
import MarketTrader.Runtime.AuditedRun

namespace MarketTrader.Runtime

open Library MarketTrader.Core Storage InMemoryBitemporalStore Config Portfolio Execution Feedback

variable {settings : Settings}

/-! ### The mark in the shared store -/

section Mark

variable {D : Digests} {store store' : InMemoryBitemporalStore} {b : DrawdownCircuitBreaker}
  {t now : Datetime}

theorem KnownBy.persists (hk : KnownBy drawdownStateDataset store now)
    (h : Persists D store b t) : Persists D store b now where
  rows o ho hd := by
    obtain ⟨s, -, peak, tripped, rfl⟩ := h.rows o ho hd
    exact ⟨s, hk _ ho hd, peak, tripped, rfl⟩
  latest := h.latest

theorem knownBy_of_persists (h : Persists D store b t) :
    KnownBy drawdownStateDataset store t := by
  intro o ho hd
  obtain ⟨s, hs, _, _, rfl⟩ := h.rows o ho hd
  exact hs

theorem Spares.persists (hD : Function.Injective D.uuid5)
    (hs : Spares D drawdownStateDataset store store') (h : Persists D store b t) :
    Persists D store' b t where
  rows o ho hd := h.rows o (hs.mem_of_mem ho hd) hd
  latest := by
    rcases h.latest with ⟨hp, ht, hno⟩ | ⟨s, peak, hp, hpos, hmem, hmax⟩
    · exact .inl ⟨hp, ht, fun o ho hd ↦ hno o (hs.mem_of_mem ho hd) hd⟩
    · refine .inr ⟨s, peak, hp, hpos, hs.mem hmem fun o ho hid ↦ ?_, fun o ho hd ↦
        hmax o (hs.mem_of_mem ho hd) hd⟩
      have hbar : '|' ∉ "execution".toList := by decide
      have hbar' : '|' ∉ drawdownStateDataset.toList := by decide
      exact ho.2 (dataset_eq_of_id_eq hD ho.1 ⟨rfl, hbar, hbar'⟩ hid)

/-- Whatever the clock, once it has come to every row. -/
theorem mark_of_knownBy (settings : Settings) {k k' : Datetime}
    (h : KnownBy drawdownStateDataset store k) (h' : KnownBy drawdownStateDataset store k') :
    mark settings store k = mark settings store k' := by
  simp only [mark, ExecutionEngine.fresh, ExecutionEngine.init, loadDrawdownState,
    asOf_eq_of_knownBy h h']

end Mark

/-! ### What a pass leaves -/

section Calls

variable {β : Type} {N : Numerics} {D : Digests} {B : Broker β} {w w' : World β} {asOf : Datetime}

/-- A pass ends as its call does, and writes nothing of the mark and sends nothing before it. -/
def EndsWith (D : Digests) (B : Broker β) (w w' : World β) : Option (EngineCall β) → Prop
  | none => w'.submitted = w.submitted ∧ Spares D drawdownStateDataset w.store w'.store
  | some c => w' = (c.outcome D B).world ∧ c.world.submitted = w.submitted ∧
      Spares D drawdownStateDataset w.store c.world.store

theorem endsWith_sleeveCall (engine : ExecutionEngine) {p : SleevePass} (prices : Dict String ℚ)
    (h : Spares D drawdownStateDataset w.store p.store) :
    EndsWith D B w (executePass D B engine w p prices asOf).2
      (sleeveCall engine w p prices asOf) := by
  unfold executePass sleeveCall
  dsimp only
  split
  · exact ⟨rfl, h⟩
  · exact ⟨rfl, rfl, h⟩

theorem endsWith_newsCall {fetched : List Observation} (hf : NewsSleeve.Wire fetched)
    (watchlist : List String) (limits : Option RiskLimits) :
    EndsWith D B w
      (NewsSleeve.runNewsSleeveCycle D B settings w fetched watchlist limits asOf).2
      (newsCall D settings w fetched watchlist limits asOf) := by
  have hreceived : Spares D drawdownStateDataset w.store (NewsSleeve.received D w.store fetched) :=
    NewsSleeve.spares_received hf (by decide) w.store
  unfold newsCall
  split
  · next hc =>
    rw [NewsSleeve.run_of_close_error hc]
    exact ⟨rfl, hreceived⟩
  · next hc =>
    have hclosed := hreceived.trans (NewsSleeve.spares_closePhase (by decide) hc)
    split
    · next ho =>
      rw [NewsSleeve.run_of_open_error limits hc ho]
      exact ⟨rfl, hclosed⟩
    · next ho =>
      rw [NewsSleeve.run_of_opened limits hc ho]
      exact endsWith_sleeveCall _ _
        (hclosed.trans (NewsSleeve.spares_openPhase (by decide) (by decide) ho))

theorem endsWith_insiderCall (universeNames : List String) (gate : Gate) :
    EndsWith D B w
      (InsiderSleeve.runInsiderSleeveCycle D B settings w universeNames gate asOf).2
      (insiderCall D settings w universeNames gate asOf) := by
  unfold InsiderSleeve.runInsiderSleeveCycle insiderCall
  cases hdecide : InsiderSleeve.decidePass D settings w.store universeNames gate asOf with
  | error err => exact ⟨rfl, .refl _⟩
  | ok decision =>
    exact endsWith_sleeveCall _ _ (InsiderSleeve.spares_decidePass (by decide) (by decide) hdecide)

theorem endsWith_paperCall (options : CycleOptions) (symbols : List String)
    (prices : Dict String ℚ) :
    EndsWith D B w (runPaperCycle N D B settings options w asOf symbols prices).2
      (paperCall N D B settings options w asOf symbols prices) := by
  unfold runPaperCycle paperCall
  dsimp only
  generalize (if options.cancelStaleOrders then cancelStale B options.reserved w.broker
    else w.broker) = b
  cases rankUniverse N options w.store asOf symbols with
  | error e => exact ⟨rfl, .refl _⟩
  | ok ranking =>
    dsimp only
    have hlog : Spares D drawdownStateDataset w.store
        (if options.predictionLog ∧ !ranking.1.isEmpty then
          logCyclePredictions D w.store ranking.2 ranking.1 asOf options.modelVersion
            options.predictionHorizon else w.store) := by
      split
      · exact spares_logCyclePredictions (by decide) _ _ _ _ _ _
      · exact .refl _
    generalize (if options.predictionLog ∧ !ranking.1.isEmpty then _ else w.store) = store at hlog ⊢
    cases targetBook N settings options (options.limits.getD (limitsFromSettings settings)) store
        asOf ranking.1 ranking.2 ((B.getPositions b).filter (·.symbol ∉ options.reserved))
        prices with
    | error e => exact ⟨rfl, hlog⟩
    | ok target =>
      dsimp only
      split
      · exact ⟨rfl, hlog⟩
      · split <;> exact ⟨rfl, rfl, hlog⟩

/-- The engine of the daily cycle takes up the mark. -/
theorem engine_paperCall {options : CycleOptions} {symbols : List String} {prices : Dict String ℚ}
    {c : EngineCall β} (hc : c ∈ paperCall N D B settings options w asOf symbols prices) :
    ∃ limits, c.engine = .fresh settings limits true c.world.store asOf ∧ c.asOf = asOf := by
  unfold paperCall at hc
  dsimp only at hc
  generalize (if options.cancelStaleOrders then cancelStale B options.reserved w.broker
    else w.broker) = b at hc
  cases hr : rankUniverse N options w.store asOf symbols with
  | error e =>
    rw [hr] at hc
    cases hc
  | ok ranking =>
    rw [hr] at hc
    dsimp only at hc
    generalize (if options.predictionLog ∧ !ranking.1.isEmpty then _ else w.store) = store at hc
    cases ht : targetBook N settings options (options.limits.getD (limitsFromSettings settings))
        store asOf ranking.1 ranking.2 ((B.getPositions b).filter (·.symbol ∉ options.reserved))
        prices with
    | error e =>
      rw [ht] at hc
      cases hc
    | ok target =>
      rw [ht] at hc
      dsimp only at hc
      split at hc
      · cases hc
      · cases hc
        exact ⟨_, rfl, rfl⟩

theorem engine_sleeveCall {engine : ExecutionEngine} {p : SleevePass} {prices : Dict String ℚ}
    {c : EngineCall β} (hc : c ∈ sleeveCall engine w p prices asOf) : c.engine = engine := by
  unfold sleeveCall at hc
  split at hc
  · cases hc
  · cases hc
    rfl

theorem audited_newsCall {fetched : List Observation} {watchlist : List String}
    {limits : Option RiskLimits} {c : EngineCall β}
    (hc : c ∈ newsCall D settings w fetched watchlist limits asOf) : c.engine.audited = false := by
  unfold newsCall at hc
  split at hc
  · cases hc
  · split at hc
    · cases hc
    · rw [engine_sleeveCall hc]
      rfl

theorem audited_insiderCall {universeNames : List String} {gate : Gate} {c : EngineCall β}
    (hc : c ∈ insiderCall D settings w universeNames gate asOf) : c.engine.audited = false := by
  unfold insiderCall at hc
  split at hc
  · cases hc
  · rw [engine_sleeveCall hc]
    rfl

end Calls

/-! ### Passes -/

/-- What is run, and what it is given. -/
inductive Component
  | daily (options : CycleOptions) (symbols : List String) (prices : Dict String ℚ)
  | news (fetched : List Observation) (watchlist : List String) (limits : Option RiskLimits)
  | insider (universeNames : List String) (gate : Gate)

namespace Component

def IsSleeve : Component → Prop
  | daily .. => False
  | news .. | insider .. => True

def Collected : Component → Prop
  | news fetched _ _ => NewsSleeve.Wire fetched
  | daily .. | insider .. => True

end Component

/-- The market moves, then one component runs its pass over the shared store and broker. -/
structure TradingPass (β : Type) where
  market : β → β
  asOf : Datetime
  component : Component

variable {β : Type}

namespace TradingPass

section Run

variable (N : Numerics) (D : Digests) (B : Broker β) (settings : Settings)

def opening (w : World β) (p : TradingPass β) : World β := { w with broker := p.market w.broker }

def step (w : World β) (p : TradingPass β) : World β :=
  match p.component with
  | .daily options symbols prices =>
    (runPaperCycle N D B settings options (p.opening w) p.asOf symbols prices).2
  | .news fetched watchlist limits =>
    (NewsSleeve.runNewsSleeveCycle D B settings (p.opening w) fetched watchlist limits p.asOf).2
  | .insider universeNames gate =>
    (InsiderSleeve.runInsiderSleeveCycle D B settings (p.opening w) universeNames gate p.asOf).2

def call (w : World β) (p : TradingPass β) : Option (EngineCall β) :=
  match p.component with
  | .daily options symbols prices =>
    paperCall N D B settings options (p.opening w) p.asOf symbols prices
  | .news fetched watchlist limits =>
    newsCall D settings (p.opening w) fetched watchlist limits p.asOf
  | .insider universeNames gate =>
    insiderCall D settings (p.opening w) universeNames gate p.asOf

/-- The equities that the breaker of the pass sees. -/
def reads (w : World β) (p : TradingPass β) : List ℚ :=
  (p.call N D B settings w).toList.flatMap (EngineCall.reads B)

/-- No daily cycle is dated before the mark. A sleeve that reads the account before the mark is
tripped leaves it as it is, and one that comes after finds nothing to send. -/
structure Covered (w : World β) (p : TradingPass β) : Prop where
  dated : ¬p.component.IsSleeve → KnownBy drawdownStateDataset w.store p.asOf
  unmoved : p.component.IsSleeve → ∀ now, KnownBy drawdownStateDataset w.store now →
    ¬(mark settings w.store now).tripped → ∀ e ∈ p.reads N D B settings w,
      (mark settings w.store now).update e = mark settings w.store now
  idle : p.component.IsSleeve → ∀ now, KnownBy drawdownStateDataset w.store now →
    (mark settings w.store now).tripped → ∀ c ∈ p.call N D B settings w, c.Idles B

end Run

variable {N : Numerics} {D : Digests} {B : Broker β} {w : World β} {p : TradingPass β}

theorem Covered.of_daily (hp : ¬p.component.IsSleeve)
    (hk : KnownBy drawdownStateDataset w.store p.asOf) : p.Covered N D B settings w where
  dated _ := hk
  unmoved hs := absurd hs hp
  idle hs := absurd hs hp

theorem Covered.of_sleeve (hp : p.component.IsSleeve) {now : Datetime}
    (hk : KnownBy drawdownStateDataset w.store now)
    (hu : ¬(mark settings w.store now).tripped → ∀ e ∈ p.reads N D B settings w,
      (mark settings w.store now).update e = mark settings w.store now)
    (hi : (mark settings w.store now).tripped → ∀ c ∈ p.call N D B settings w, c.Idles B) :
    p.Covered N D B settings w where
  dated hs := absurd hp hs
  unmoved _ k h := by
    rw [mark_of_knownBy settings h hk]
    exact hu
  idle _ k h := by
    rw [mark_of_knownBy settings h hk]
    exact hi

theorem endsWith_call (hc : p.component.Collected) :
    EndsWith D B (p.opening w) (p.step N D B settings w) (p.call N D B settings w) := by
  unfold step call
  split
  · exact endsWith_paperCall _ _ _
  · next hp =>
    rw [hp] at hc
    exact endsWith_newsCall hc _ _
  · exact endsWith_insiderCall _ _

/-- Only the engine of the daily cycle keeps the mark. -/
theorem engine_call {c : EngineCall β} (hc : c ∈ p.call N D B settings w) :
    (p.component.IsSleeve ∧ c.engine.audited = false) ∨ (¬p.component.IsSleeve ∧
      ∃ limits, c.engine = .fresh settings limits true c.world.store p.asOf ∧ c.asOf = p.asOf) := by
  unfold call at hc
  cases hp : p.component with
  | daily options symbols prices =>
    rw [hp] at hc
    exact .inr ⟨id, engine_paperCall hc⟩
  | news fetched watchlist limits =>
    rw [hp] at hc
    exact .inl ⟨trivial, audited_newsCall hc⟩
  | insider universeNames gate =>
    rw [hp] at hc
    exact .inl ⟨trivial, audited_insiderCall hc⟩

end TradingPass

section Run

variable (N : Numerics) (D : Digests) (B : Broker β) (settings : Settings)

def watch (s : Watched β) (p : TradingPass β) : Watched β where
  world := p.step N D B settings s.world
  equities := s.equities ++ p.reads N D B settings s.world

end Run

/-- The breaker that the store keeps is tripped, or it has seen all that was read. -/
def Marked (D : Digests) (settings : Settings) (s : Watched β) : Prop :=
  ∃ b t, b.maxDrawdown = settings.maxDrawdownHalt ∧ Persists D s.world.store b t ∧
    Follows settings b s.equities

section Step

variable {N : Numerics} {D : Digests} {B : Broker β} {s : Watched β} {p : TradingPass β}

theorem Marked.of_no_rows {w : World β}
    (h : ∀ o ∈ w.store.toList, o.dataset ≠ drawdownStateDataset) :
    Marked D settings ⟨w, []⟩ := by
  refine ⟨{ maxDrawdown := settings.maxDrawdownHalt }, 0, rfl, .of_no_rows h _ _, .inr ⟨?_, ?_⟩⟩
  · intro e he
    cases he
  · rintro ⟨before, e, after, peak, hnil, -⟩
    simp at hnil

theorem Marked.step (hD : Function.Injective D.uuid5) (h : Marked D settings s)
    (hcol : p.component.Collected) (hpos : ∀ e ∈ p.reads N D B settings s.world, 0 < e)
    (hc : p.Covered N D B settings s.world) :
    Marked D settings (watch N D B settings s p) ∧
      (Halted settings s.equities →
        (p.step N D B settings s.world).submitted = s.world.submitted) := by
  obtain ⟨b, t, hm, hp, hf⟩ := h
  have hends : EndsWith D B (p.opening s.world) (p.step N D B settings s.world)
      (p.call N D B settings s.world) := TradingPass.endsWith_call hcol
  unfold Marked watch
  cases hcall : p.call N D B settings s.world with
  | none =>
    rw [hcall] at hends
    have hr : s.equities ++ p.reads N D B settings s.world = s.equities := by
      simp [TradingPass.reads, hcall]
    rw [hr]
    exact ⟨⟨b, t, hm, hends.2.persists hD hp, hf⟩, fun _ ↦ hends.1⟩
  | some c =>
    rw [hcall] at hends
    obtain ⟨hend, hsent, hspares⟩ := hends
    have hr : p.reads N D B settings s.world = c.reads B := by simp [TradingPass.reads, hcall]
    have hidle : (p.step N D B settings s.world).submitted = s.world.submitted ↔ c.Idles B := by
      rw [hend, ← c.submitted_eq_iff D, hsent]
      exact Iff.rfl
    rw [hr] at hpos ⊢
    rw [hidle, hend]
    rcases TradingPass.engine_call hcall with ⟨hsleeve, ha⟩ | ⟨hdaily, limits, he, hat⟩
    · -- the breaker of a sleeve is lost with its engine
      have hstore : (c.outcome D B).world.store = c.world.store := rebalance_store_of_not_audited ha
      have hmark : mark settings s.world.store t = b := hp.fresh_breaker hm {} (le_refl _)
      have hu := hc.unmoved hsleeve t (knownBy_of_persists hp)
      have hi := hc.idle hsleeve t (knownBy_of_persists hp)
      rw [hmark, hr] at hu
      rw [hmark] at hi
      refine ⟨⟨b, t, hm, ?_, EngineCall.follows_unmoved hm hf hpos hu⟩, fun hh ↦ ?_⟩
      · dsimp only
        rw [hstore]
        exact hspares.persists hD hp
      · exact hi (hf.tripped hh) c hcall
    · have hstart : Persists D c.world.store b c.asOf := by
        rw [hat]
        exact hspares.persists hD ((hc.dated hdaily).persists hp)
      have hb : c.engine.breaker = b := by
        rw [he, ← hat]
        exact hstart.fresh_breaker hm limits (le_refl _)
      subst hb
      obtain ⟨b', hm', hp', hf'⟩ := EngineCall.follows_audited (B := B) hD (by rw [he]; rfl) hm
        hstart hf hpos
      exact ⟨⟨b', c.asOf, hm', hp', hf'⟩, fun hh ↦ EngineCall.idles_of_tripped (hf.tripped hh)⟩

end Step

def atEquity (equity : ℚ) (asOf : Datetime) (component : Component) : TradingPass Account where
  market account := { account with equity := equity }
  asOf := asOf
  component := component

def bookOnly : Component :=
  .daily { features := [flatFeature], scoreFn := some fun _ _ ↦ .ok [("B", some 1)] } ["A", "B"]
    (.ofList [("A", 100), ("B", 100)])

def insiderOnly : Component := .insider ["A"] InsiderSleeve.openGate

/-- The rows of the day with one cluster, before any pass. -/
def clusterWorld : World Account where
  broker := { equity := 0, cash := 0, buyingPower := 0 }
  store := upsertMany .empty ((clusterDay.bars ++ clusterDay.filings).zipIdx.map fun (o, i) ↦
    { o with observationId := i })
  submitted := []

end MarketTrader.Runtime
