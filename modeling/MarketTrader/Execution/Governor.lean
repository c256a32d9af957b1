import MarketTrader.Execution.Records
import MarketTrader.Library.Run
import Mathlib.Data.List.MinMax

namespace MarketTrader.Execution

open Library MarketTrader.Core Storage InMemoryBitemporalStore Config Portfolio

variable {β : Type} {D : Digests} {B : Broker β}

/-- The store holds the breaker's high-water mark, and holds nothing of it from after `t`. -/
structure Persists (D : Digests) (store : InMemoryBitemporalStore) (b : DrawdownCircuitBreaker)
    (t : Datetime) : Prop where
  rows : ∀ o ∈ store.toList, o.dataset = drawdownStateDataset →
    ∃ s ≤ t, ∃ peak tripped, o = drawdownRow D s peak tripped
  latest : (b.peak = none ∧ b.tripped = false ∧
      ∀ o ∈ store.toList, o.dataset ≠ drawdownStateDataset) ∨
    ∃ s peak, b.peak = some peak ∧ peak ≠ 0 ∧ drawdownRow D s peak b.tripped ∈ store.toList ∧
      ∀ o ∈ store.toList, o.dataset = drawdownStateDataset → o.eventTime ≤ s

theorem drawdownRow_observationId (s : Datetime) (peak peak' : ℚ) (tripped tripped' : Bool) :
    (drawdownRow D s peak tripped).observationId =
      (drawdownRow D s peak' tripped').observationId := rfl

theorem dataset_of_isAudit {o : Observation} (ho : IsAudit D o) :
    o.dataset ≠ drawdownStateDataset := by
  obtain ⟨asOf, symbol, event, detail, rfl⟩ := ho
  exact (by decide : executionDataset ≠ drawdownStateDataset)

theorem auditRow_ne_drawdownRow (hD : Function.Injective D.uuid5) {o : Observation}
    (ho : IsAudit D o) (s : Datetime) (peak : ℚ) (tripped : Bool) :
    o.observationId ≠ (drawdownRow D s peak tripped).observationId := by
  have hd := dataset_of_isAudit ho
  obtain ⟨asOf, symbol, event, detail, rfl⟩ := ho
  have hs : '|' ∉ "execution".toList := by decide
  have ha : '|' ∉ executionDataset.toList := by decide
  have hr : '|' ∉ drawdownStateDataset.toList := by decide
  exact fun h ↦ hd (dataset_eq_of_identityKey_eq hs hs ha hr (hD h)).2

namespace Persists

variable {store store' : InMemoryBitemporalStore} {b : DrawdownCircuitBreaker} {t : Datetime}

theorem of_no_rows (h : ∀ o ∈ store.toList, o.dataset ≠ drawdownStateDataset)
    (maxDrawdown : ℚ) (t : Datetime) : Persists D store { maxDrawdown := maxDrawdown } t where
  rows o ho hd := absurd hd (h o ho)
  latest := .inl ⟨rfl, rfl, h⟩

theorem eq_of_eventTime (h : Persists D store b t) {o o' : Observation} (ho : o ∈ store.toList)
    (ho' : o' ∈ store.toList) (hd : o.dataset = drawdownStateDataset)
    (hd' : o'.dataset = drawdownStateDataset) (ht : o.eventTime = o'.eventTime) : o = o' := by
  obtain ⟨s, -, p, tr, rfl⟩ := h.rows o ho hd
  obtain ⟨s', -, p', tr', rfl⟩ := h.rows o' ho' hd'
  obtain rfl : s = s' := ht
  exact Keyed.eq_of_mem ho ho' (drawdownRow_observationId s p p' tr tr')

/-- An engine that starts at any clock from `t` on takes up the breaker as it was. -/
theorem load (h : Persists D store b t) {now : Datetime} (hn : t ≤ now) :
    loadDrawdownState store now = (b.peak, b.tripped) := by
  rcases h.latest with ⟨hp, htr, hno⟩ | ⟨s, peak, hp, hpos, hmem, hmax⟩
  · have hnil : store.asOf now { dataset := some drawdownStateDataset } = [] :=
      List.eq_nil_iff_forall_not_mem.mpr fun o ho ↦
        hno o (mem_asOf_dataset ho).1 (mem_asOf_dataset ho).2.2
    rw [loadDrawdownState, hnil, hp, htr]
    rfl
  · have hle : ∀ o ∈ store.toList, o.dataset = drawdownStateDataset → o.knowledgeTime ≤ t := by
      intro o ho hd
      obtain ⟨s', hs', _, _, rfl⟩ := h.rows o ho hd
      exact hs'
    have hread : drawdownRow D s peak b.tripped ∈
        store.asOf now { dataset := some drawdownStateDataset } :=
      mem_asOf_of_unique hmem ((hle _ hmem rfl).trans hn) rfl fun o' ho' hd' hk ↦
        h.eq_of_eventTime ho' hmem hd' rfl (congrArg (·.2.2.2.1) hk)
    have hfirst : firstMax Observation.eventTime
        (store.asOf now { dataset := some drawdownStateDataset }) =
          some (drawdownRow D s peak b.tripped) := by
      refine firstMax_of_lt hread fun o ho hne ↦ ?_
      obtain ⟨ho, -, hd⟩ := mem_asOf_dataset ho
      refine lt_of_le_of_ne (hmax o ho hd) fun he ↦ hne ?_
      exact h.eq_of_eventTime ho hmem hd rfl he
    have hpeak : (drawdownRow D s peak b.tripped).get? "peak" = some (.num peak) := rfl
    have htrip : (drawdownRow D s peak b.tripped).get? "tripped" = some (.bool b.tripped) := rfl
    rw [loadDrawdownState, hfirst, hp]
    simp [hpeak, htrip, Option.filter, hpos]

theorem save (h : Persists D store b t) {asOf : Datetime} (ht : t ≤ asOf)
    {b' : DrawdownCircuitBreaker} {peak : ℚ} (hp : b'.peak = some peak) (hpos : peak ≠ 0) :
    Persists D (store.insert (drawdownRow D asOf peak b'.tripped)) b' asOf where
  rows o ho hd := by
    rcases Keyed.mem_insert.mp ho with rfl | ⟨ho, -⟩
    · exact ⟨asOf, le_refl _, peak, b'.tripped, rfl⟩
    · obtain ⟨s, hs, hr⟩ := h.rows o ho hd
      exact ⟨s, hs.trans ht, hr⟩
  latest := by
    refine .inr ⟨asOf, peak, hp, hpos, Keyed.mem_insert.mpr (.inl rfl), fun o ho hd ↦ ?_⟩
    rcases Keyed.mem_insert.mp ho with rfl | ⟨ho, -⟩
    · exact le_refl _
    · obtain ⟨s, hs, _, _, rfl⟩ := h.rows o ho hd
      exact hs.trans ht

theorem audits (hD : Function.Injective D.uuid5) {e : ExecutionEngine}
    (h : Persists D store b t) (ha : Audits D e store store') : Persists D store' b t where
  rows o ho hd := by
    rcases ha.mem_or ho with ho | ⟨-, ho⟩
    · exact h.rows o ho hd
    · exact absurd hd (dataset_of_isAudit ho)
  latest := by
    have hrow : ∀ o ∈ store'.toList, o.dataset = drawdownStateDataset → o ∈ store.toList := by
      intro o ho hd
      rcases ha.mem_or ho with ho | ⟨-, ho⟩
      · exact ho
      · exact absurd hd (dataset_of_isAudit ho)
    rcases h.latest with ⟨hp, htr, hno⟩ | ⟨s, peak, hp, hpos, hmem, hmax⟩
    · exact .inl ⟨hp, htr, fun o ho hd ↦ hno o (hrow o ho hd) hd⟩
    · refine .inr ⟨s, peak, hp, hpos, ha.mem hmem fun o ho ↦ ?_, fun o ho hd ↦
        hmax o (hrow o ho hd) hd⟩
      exact auditRow_ne_drawdownRow hD ho.2 s peak b.tripped

theorem fresh_breaker (h : Persists D store b t) {settings : Settings}
    (hm : b.maxDrawdown = settings.maxDrawdownHalt) (limits : RiskLimits) {now : Datetime}
    (hn : t ≤ now) : (ExecutionEngine.fresh settings limits true store now).breaker = b := by
  simp only [ExecutionEngine.fresh, ExecutionEngine.init, h.load hn, if_true]
  cases b with
  | mk maxDrawdown peak tripped =>
    dsimp only at hm
    subst hm
    cases peak with
    | some p => rfl
    | none =>
      rcases h.latest with ⟨-, htr, -⟩ | ⟨_, _, hp, -⟩
      · dsimp only at htr
        rw [htr]
      · cases hp

/-- A call that is not turned away leaves the mark that its own breaker ends with. -/
theorem rebalance (hD : Function.Injective D.uuid5) {e : ExecutionEngine} {w : World β}
    (h : Persists D w.store e.breaker t) (ha : e.audited) (hb : ¬Blocked e) {asOf : Datetime}
    (ht : t ≤ asOf) (hpos : 0 < (B.getAccount w.broker).equity) (target prices : Dict String ℚ) :
    Persists D (Execution.rebalance D B e w target prices asOf).world.store
      (e.breaker.update (B.getAccount w.broker).equity) asOf := by
  obtain ⟨-, haud, -⟩ := rebalance_of_not_blocked D B w target prices asOf hb
  have hsave : (w.observe D B e asOf).store =
      w.store.insert (drawdownRow D asOf (e.breaker.raisePeak (B.getAccount w.broker).equity)
        (e.breaker.update (B.getAccount w.broker).equity).tripped) := by
    simp only [World.observe, ExecutionEngine.observe, ExecutionEngine.saveDrawdownState, ha]
    rfl
  rw [hsave] at haud
  exact (h.save ht (DrawdownCircuitBreaker.peak_update _ _)
    (DrawdownCircuitBreaker.raisePeak_pos hpos).ne').audits hD haud

end Persists

/-! ### Cycles -/

/-- Live mode that is not armed: a fresh engine turns every call away. -/
def Disarmed (s : Settings) : Prop := s.executionMode = .live ∧ s.liveTradingEnabled = false

instance (s : Settings) : Decidable (Disarmed s) := inferInstanceAs (Decidable (_ ∧ _))

theorem blocked_fresh_iff {settings : Settings} {limits : RiskLimits} {audited : Bool}
    {store : InMemoryBitemporalStore} {now : Datetime} :
    Blocked (.fresh settings limits audited store now) ↔ Disarmed settings :=
  or_iff_left Bool.false_ne_true

/-- One cycle: the market moves, then a fresh engine over the shared store rebalances. -/
structure DailyCall (β : Type) where
  market : β → β
  now : Datetime
  limits : RiskLimits
  target : Dict String ℚ
  prices : Dict String ℚ
  asOf : Datetime

namespace DailyCall

def opening (w : World β) (c : DailyCall β) : World β := { w with broker := c.market w.broker }

def engine (settings : Settings) (w : World β) (c : DailyCall β) : ExecutionEngine :=
  .fresh settings c.limits true w.store c.now

def outcome (D : Digests) (B : Broker β) (settings : Settings) (w : World β) (c : DailyCall β) :
    Outcome β :=
  rebalance D B (c.engine settings w) (c.opening w) c.target c.prices c.asOf

def step (D : Digests) (B : Broker β) (settings : Settings) (w : World β) (c : DailyCall β) :
    World β := (c.outcome D B settings w).world

def reads (B : Broker β) (settings : Settings) (w : World β) (c : DailyCall β) : List ℚ :=
  if Disarmed settings then [] else [(B.getAccount (c.market w.broker)).equity]

end DailyCall

/-- One breaker, for all time, that has seen these equities. -/
def governor (settings : Settings) (equities : List ℚ) : DrawdownCircuitBreaker :=
  equities.foldl .update { maxDrawdown := settings.maxDrawdownHalt }

theorem governor_append (settings : Settings) (es es' : List ℚ) :
    governor settings (es ++ es') = es'.foldl .update (governor settings es) := List.foldl_append

theorem governor_maxDrawdown (settings : Settings) (es : List ℚ) :
    (governor settings es).maxDrawdown = settings.maxDrawdownHalt := by
  induction es using List.reverseRecOn with
  | nil => rfl
  | append_singleton es e ih =>
    rw [governor_append, List.foldl_cons, List.foldl_nil, DrawdownCircuitBreaker.maxDrawdown_update,
      ih]

theorem governor_peak (settings : Settings) (es : List ℚ) :
    (governor settings es).peak = es.max? := by
  induction es using List.reverseRecOn with
  | nil => rfl
  | append_singleton es e ih =>
    rw [governor_append, List.foldl_cons, List.foldl_nil, DrawdownCircuitBreaker.peak_update,
      DrawdownCircuitBreaker.raisePeak, ih]
    cases es with
    | nil => rfl
    | cons a es =>
      rw [List.cons_append, List.max?_cons', List.max?_cons', List.foldl_append]
      rfl

theorem governor_tripped_append {settings : Settings} {es : List ℚ}
    (h : (governor settings es).tripped) (es' : List ℚ) :
    (governor settings (es ++ es')).tripped := by
  induction es' using List.reverseRecOn with
  | nil => simpa using h
  | append_singleton es' e ih =>
    rw [← List.append_assoc, governor_append]
    exact DrawdownCircuitBreaker.tripped_update_of_tripped ih e

structure Watched (β : Type) where
  world : World β
  equities : List ℚ

def Watched.step (D : Digests) (B : Broker β) (settings : Settings) (s : Watched β)
    (c : DailyCall β) : Watched β where
  world := c.step D B settings s.world
  equities := s.equities ++ c.reads B settings s.world

theorem Persists.cycle (hD : Function.Injective D.uuid5) {settings : Settings} {s : Watched β}
    {t : Datetime} (h : Persists D s.world.store (governor settings s.equities) t)
    {c : DailyCall β} (hn : t ≤ c.now) (ht : t ≤ c.asOf)
    (hp : ∀ q ∈ c.reads B settings s.world, 0 < q) :
    let s' := s.step D B settings c
    (c.outcome D B settings s.world).engine.breaker = governor settings s'.equities ∧
      ((c.outcome D B settings s.world).result = .error (.killSwitchEngaged .drawdown) ↔
        ¬Disarmed settings ∧ (governor settings s'.equities).tripped) ∧
      ∃ t' ≤ c.asOf, Persists D s'.world.store (governor settings s'.equities) t' := by
  have hb : (c.engine settings s.world).breaker = governor settings s.equities :=
    h.fresh_breaker (governor_maxDrawdown settings _) c.limits hn
  by_cases hd : Disarmed settings
  · have hblk : Blocked (c.engine settings s.world) := blocked_fresh_iff.mpr hd
    obtain ⟨err, he, hne⟩ := rebalance_of_blocked D B (c.opening s.world) c.target c.prices
      c.asOf hblk
    have ho : c.outcome D B settings s.world =
        ⟨.error err, c.engine settings s.world, c.opening s.world⟩ := he
    have hs : s.equities ++ c.reads B settings s.world = s.equities := by
      simp [DailyCall.reads, hd]
    simp only [Watched.step, DailyCall.step, ho, hs]
    exact ⟨hb, by simpa [hd] using hne, t, ht, h⟩
  · have hblk : ¬Blocked (c.engine settings s.world) := mt blocked_fresh_iff.mp hd
    set equity := (B.getAccount (c.market s.world.broker)).equity with hq
    have hr : c.reads B settings s.world = [equity] := by simp [DailyCall.reads, hd, hq]
    have hpos : 0 < equity := hp _ (by simp [hr])
    have hg : governor settings (s.equities ++ [equity]) =
        (governor settings s.equities).update equity := by
      rw [governor_append]
      rfl
    obtain ⟨hbr, -, hres⟩ := rebalance_of_not_blocked D B (c.opening s.world) c.target c.prices
      c.asOf hblk
    have hstart : Persists D (c.opening s.world).store (c.engine settings s.world).breaker t := by
      rw [hb]
      exact h
    have hend := hstart.rebalance (B := B) hD rfl hblk ht hpos c.target c.prices
    rw [hb] at hbr hres hend
    simp only [Watched.step, hr, hg]
    exact ⟨hbr, ⟨fun ho ↦ ⟨hd, hres.mp ho⟩, fun ho ↦ hres.mpr ho.2⟩, c.asOf, le_refl _, hend⟩

/-- Cycles in order of time: none is dated before the last one, or after the clock of the next
engine. -/
def Chronological (calls : List (DailyCall β)) : Prop :=
  calls.IsChain fun c c' ↦ c.asOf ≤ c'.asOf ∧ c.asOf ≤ c'.now

theorem Persists.cycles (hD : Function.Injective D.uuid5) {settings : Settings} {s : Watched β}
    {calls : List (DailyCall β)} (hc : Chronological calls) {t : Datetime}
    (h : Persists D s.world.store (governor settings s.equities) t)
    (ht : ∀ c ∈ calls.head?, t ≤ c.now ∧ t ≤ c.asOf)
    (hp : Along (Watched.step D B settings)
      (fun s c ↦ ∀ q ∈ c.reads B settings s.world, 0 < q) s calls) :
    Along (Watched.step D B settings) (fun s c ↦
      let b := governor settings (s.step D B settings c).equities
      let out := c.outcome D B settings s.world
      out.engine.breaker = b ∧
        (out.result = .error (.killSwitchEngaged .drawdown) ↔ ¬Disarmed settings ∧ b.tripped) ∧
        ((governor settings s.equities).tripped → b.tripped)) s calls ∧
    ∃ t', (t' = t ∨ ∃ c ∈ calls, t' ≤ c.asOf) ∧
      Persists D (run (Watched.step D B settings) s calls).world.store
        (governor settings (run (Watched.step D B settings) s calls).equities) t' := by
  induction calls generalizing s t with
  | nil => exact ⟨trivial, t, .inl rfl, h⟩
  | cons c calls ih =>
    obtain ⟨hn, hto⟩ := ht c rfl
    obtain ⟨hbr, hres, t₁, ht₁, h₁⟩ := h.cycle hD hn hto hp.1
    have hnext : ∀ c' ∈ calls.head?, t₁ ≤ c'.now ∧ t₁ ≤ c'.asOf := by
      intro c' hc'
      cases calls with
      | nil => cases hc'
      | cons c'' calls =>
        cases hc'
        obtain ⟨ho, hn'⟩ := (List.isChain_cons_cons.mp hc).1
        exact ⟨ht₁.trans hn', ht₁.trans ho⟩
    obtain ⟨hal, t', ht', h'⟩ := ih hc.of_cons h₁ hnext hp.2
    refine ⟨⟨⟨hbr, hres, fun htr ↦ governor_tripped_append htr _⟩, hal⟩, t', .inr ?_, h'⟩
    rcases ht' with rfl | ⟨c', hc', hle⟩
    · exact ⟨c, List.mem_cons_self, ht₁⟩
    · exact ⟨c', List.mem_cons_of_mem _ hc', hle⟩

/-- Rebuilding the engine every cycle is invisible to the governor. The calls that halt on a
drawdown, and the breaker after each call, are those of one breaker that sees the same equities;
the persisted peak is their maximum. -/
theorem governor_refinement (hD : Function.Injective D.uuid5) (settings : Settings) (w : World β)
    (hw : ∀ o ∈ w.store.toList, o.dataset ≠ drawdownStateDataset) (calls : List (DailyCall β))
    (hc : Chronological calls)
    (hp : Along (Watched.step D B settings)
      (fun s c ↦ ∀ q ∈ c.reads B settings s.world, 0 < q) ⟨w, []⟩ calls) :
    Along (Watched.step D B settings) (fun s c ↦
      let b := governor settings (s.step D B settings c).equities
      let out := c.outcome D B settings s.world
      out.engine.breaker = b ∧
        (out.result = .error (.killSwitchEngaged .drawdown) ↔ ¬Disarmed settings ∧ b.tripped) ∧
        ((governor settings s.equities).tripped → b.tripped)) ⟨w, []⟩ calls ∧
    let s := run (Watched.step D B settings) ⟨w, []⟩ calls
    ∀ now, (∀ c ∈ calls, c.asOf ≤ now) → loadDrawdownState s.world.store now =
      (s.equities.max?, (governor settings s.equities).tripped) := by
  have hno (t : Datetime) : Persists D w.store (governor settings []) t := .of_no_rows hw _ t
  cases calls with
  | nil => exact ⟨trivial, fun now _ ↦ (hno now).load (le_refl now)⟩
  | cons c calls =>
    obtain ⟨hal, t', ht', h'⟩ := Persists.cycles (s := ⟨w, []⟩) hD hc (hno (min c.now c.asOf))
      (fun c' hc' ↦ by cases hc'; exact ⟨min_le_left _ _, min_le_right _ _⟩) hp
    refine ⟨hal, fun now hnow ↦ ?_⟩
    have hle : t' ≤ now := by
      rcases ht' with rfl | ⟨c', hc', hle⟩
      · exact (min_le_right _ _).trans (hnow c List.mem_cons_self)
      · exact hle.trans (hnow c' hc')
    rw [h'.load hle, governor_peak]

/-- A fall by three tenths from a peak that only the first of two engines saw. -/
theorem governor_refinement_peak_persists :
    let call (equity : ℚ) (t : Datetime) : DailyCall Account :=
      { market := fun _ ↦ { equity := equity, cash := 0, buyingPower := 0 }, now := t
        limits := {}, target := .empty, prices := .empty, asOf := t }
    let step := Watched.step .plain accountBroker {}
    let s := run step ⟨⟨⟨1, 0, 0, 0⟩, .empty, []⟩, []⟩ [call 100 0, call 70 1]
    loadDrawdownState s.world.store 1 = (some 100, true) := by
  intro call step s
  have h := governor_refinement (B := accountBroker) Digests.plain_uuid5_injective {}
    ⟨⟨1, 0, 0, 0⟩, .empty, []⟩ (by simp) [call 100 0, call 70 1] (by
      refine List.isChain_cons_cons.mpr ⟨?_, .singleton _⟩
      decide) ⟨by decide +kernel, by decide +kernel, trivial⟩
  exact (h.2 1 (by decide)).trans (by decide +kernel)

end MarketTrader.Execution
