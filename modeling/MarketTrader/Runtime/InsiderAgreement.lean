import MarketTrader.Runtime.InsiderLedger
import MarketTrader.Runtime.SleeveAgreement

namespace MarketTrader.Runtime.InsiderSleeve

open Library MarketTrader.Core Storage InMemoryBitemporalStore Config Portfolio Execution

variable {β : Type}

def passOrders (B : Broker β) (settings : Settings) (b : β) (store : InMemoryBitemporalStore)
    (gate : Gate) (prices : Dict String ℚ) (asOf : Datetime)
    (active : Dict String InsiderSleevePosition) : List Order :=
  let closed := (active.toList.filter (isDue settings prices asOf)).map Prod.fst
  let opened := ((selected settings prices store gate asOf active).filter
    (fun e ↦ Priced prices e.symbol)).map SleeveEntry.symbol
  sentOrders B (engine settings store asOf) b (passTarget (perName settings) closed opened) prices
    asOf

/-- The broker follows the decisions of the pass: a due name is sold out unless the pass opens it
again, and an opened name gets its fill. Where the ledger has the row of a decision already, the
decision changes nothing on record and is not to be followed. -/
def Followed (D : Digests) (B : Broker β) (settings : Settings) (b : β)
    (store : InMemoryBitemporalStore) (gate : Gate) (prices : Dict String ℚ) (asOf : Datetime)
    (active : Dict String InsiderSleevePosition) : Prop :=
  let orders := passOrders B settings b store gate prices asOf active
  let opens := fun e ↦ e ∈ selected settings prices store gate asOf active ∧
    Priced prices e.symbol
  (∀ a ∈ active.toList, isDue settings prices asOf a → (B.SoldOut b orders a.1 ↔
    closeRow D a.1 asOf (closeReason settings prices a) ∉ store.toList ∧
      ¬((∃ e, opens e ∧ e.symbol = a.1) ∧ OpensNew D store asOf a.1))) ∧
  ∀ e, opens e → e.symbol ∉ active.keys →
    (B.Served b orders e.symbol ↔ OpensNew D store asOf e.symbol)

variable {D : Digests} {B : Broker β} {settings : Settings} {asOf : Datetime} {w : World β}
  {universeNames : List String} {gate : Gate} {active : Dict String InsiderSleevePosition}

theorem agrees_iff_of_decided (hD : Function.Injective D.uuid5) (hB : FillsOrRejects B)
    (hl : Ledger D sleeveDataset (IsRow D) w.store)
    (ha : activeInsiderPositions w.store asOf = .ok active) (hag : Agrees B w.broker active.keys)
    {p : SleevePass} {prices : Dict String ℚ}
    (h : decidePass D settings w.store universeNames gate asOf = .ok (p, prices)) :
    (∃ active', activeInsiderPositions p.store asOf = .ok active' ∧
      Agrees B (executePass D B (engine settings p.store asOf) w p prices asOf).2.broker
        active'.keys) ↔ Followed D B settings w.broker w.store gate prices asOf active := by
  have hp := decidePass_spec hD hl h ha
  obtain ⟨active', ha'⟩ := activeInsiderPositions_total
    (hp.ledger_after bar_not_mem_sleeveDataset hl) asOf
  have hafter := fun symbol ↦ mem_active_after_iff hD hl ha hp symbol ha'
  have hclosed := fun symbol ↦ mem_closed_iff symbol hp rfl
  have hopened := fun symbol ↦ mem_opened_iff symbol hp rfl
  have hkeys : ∀ s ∈ p.closed, s ∈ active.keys := by
    intro s hs
    obtain ⟨a, hm, -, rfl⟩ := (hclosed s).mp hs
    exact Keyed.mem_keys.mpr ⟨a, hm, rfl⟩
  have hreopened : ∀ s ∈ p.opened, s ∈ active.keys → s ∈ p.closed := by
    intro s hs hk
    obtain ⟨e, he, -, rfl⟩ := (hopened s).mp hs
    obtain ⟨a, hm, hn⟩ := Keyed.mem_keys.mp hk
    refine (hclosed _).mpr ⟨a, hm, ?_, hn⟩
    by_contra hd
    refine not_mem_remaining_of_selected he (List.mem_map.mpr ⟨a, ?_, hn⟩)
    exact List.mem_filter.mpr ⟨hm, by simpa using hd⟩
  have hframe : ∀ s, s ∉ p.closed → s ∉ p.opened → (s ∈ active'.keys ↔ s ∈ active.keys) := by
    intro s hc ho
    rw [hafter s]
    refine ⟨fun h ↦ (h.resolve_left fun h ↦ ho h.1).1, fun hk ↦ .inr ⟨hk, fun a hm hn hd ↦ ?_⟩⟩
    exact absurd ((hclosed s).mpr ⟨a, hm, hd, hn⟩) hc
  have horders : sentOrders B (engine settings p.store asOf) w.broker p.target prices asOf =
      passOrders B settings w.broker w.store gate prices asOf active := by
    rw [hp.target, hp.closed, hp.opened, closings_names]
    simp only [passOrders, openings, List.map_map, Function.comp_def]
    rfl
  have hiff := agrees_after_iff (e := engine settings p.store asOf) prices asOf hB hag
    hp.target hkeys hreopened hframe
  rw [executePass_world rfl, horders]
  rw [horders] at hiff
  simp only [ha', Except.ok.injEq, exists_eq_left']
  refine hiff.trans (and_congr ?_ ?_)
  · have hgone : ∀ a ∈ active.toList, isDue settings prices asOf a → (a.1 ∉ active'.keys ↔
        closeRow D a.1 asOf (closeReason settings prices a) ∉ w.store.toList ∧
          ¬((∃ e, (e ∈ selected settings prices w.store gate asOf active ∧
            Priced prices e.symbol) ∧ e.symbol = a.1) ∧ OpensNew D w.store asOf a.1)) := by
      intro a hm hd
      have honly : (∀ b ∈ active.toList, b.1 = a.1 → isDue settings prices asOf b →
          closeRow D b.1 asOf (closeReason settings prices b) ∈ w.store.toList) ↔
            closeRow D a.1 asOf (closeReason settings prices a) ∈ w.store.toList := by
        refine ⟨fun h ↦ h a hm rfl hd, fun h b hb he _ ↦ ?_⟩
        rw [Keyed.eq_of_mem hb hm he]
        exact h
      rw [hafter, honly, hopened, not_or, and_comm, and_iff_right (Keyed.mem_keys.mpr ⟨a, hm, rfl⟩)]
      simp only [and_assoc]
    constructor
    · intro hc a hm hd
      rw [hc a.1 ((hclosed a.1).mpr ⟨a, hm, hd, rfl⟩), hgone a hm hd]
    · intro hc s hs
      obtain ⟨a, hm, hd, rfl⟩ := (hclosed s).mp hs
      rw [hc a hm hd, hgone a hm hd]
  · have hthere : ∀ e, e ∈ selected settings prices w.store gate asOf active ∧
        Priced prices e.symbol → e.symbol ∉ active.keys →
          (e.symbol ∈ active'.keys ↔ OpensNew D w.store asOf e.symbol) := by
      rintro e ⟨he, hpr⟩ hk
      rw [hafter, hopened, or_iff_left fun h ↦ hk h.1, and_iff_right ⟨e, he, hpr, rfl⟩]
    constructor
    · intro ho e he hk
      rw [ho e.symbol ((hopened e.symbol).mpr ⟨e, he.1, he.2, rfl⟩) hk, hthere e he hk]
    · intro ho s hs hk
      obtain ⟨e, he, hpr, rfl⟩ := (hopened s).mp hs
      rw [ho e ⟨he, hpr⟩ hk, hthere e ⟨he, hpr⟩ hk]

/-- The ledger and the broker agree after a pass exactly when the broker followed its decisions. -/
theorem agrees_iff (hD : Function.Injective D.uuid5) (hB : FillsOrRejects B)
    (hl : Ledger D sleeveDataset (IsRow D) w.store)
    (ha : activeInsiderPositions w.store asOf = .ok active)
    (hag : Agrees B w.broker active.keys) :
    let out := (runInsiderSleeveCycle D B settings w universeNames gate asOf).2
    (∃ active', activeInsiderPositions out.store asOf = .ok active' ∧
      Agrees B out.broker active'.keys) ↔
    ∀ prices, latestPrices w.store asOf (universeNames ++ active.keys) = .ok prices →
      Followed D B settings w.broker w.store gate prices asOf active := by
  intro out
  have hrun : out = (runInsiderSleeveCycle D B settings w universeNames gate asOf).2 := rfl
  unfold runInsiderSleeveCycle at hrun
  cases hp : latestPrices w.store asOf (universeNames ++ active.keys) with
  | error err =>
    have hdec : decidePass D settings w.store universeNames gate asOf = .error err := by
      unfold decidePass
      rw [ha]
      change (latestPrices w.store asOf (universeNames ++ active.keys) >>= _) = _
      rw [hp]
      rfl
    rw [hdec] at hrun
    rw [hrun]
    exact iff_of_true ⟨active, ha, hag⟩ fun _ h ↦ by cases h
  | ok prices =>
    obtain ⟨p, hdec⟩ : ∃ p, decidePass D settings w.store universeNames gate asOf =
        .ok (p, prices) := by
      unfold decidePass
      rw [ha]
      change ∃ p, (latestPrices w.store asOf (universeNames ++ active.keys) >>= _) = _
      rw [hp]
      exact ⟨_, rfl⟩
    rw [hdec] at hrun
    have hstore : out.store = p.store := by rw [hrun, executePass_world rfl]
    have hiff := agrees_iff_of_decided hD hB hl ha hag hdec
    rw [hstore, hrun]
    simp only [hiff, Except.ok.injEq, forall_eq']

end MarketTrader.Runtime.InsiderSleeve
