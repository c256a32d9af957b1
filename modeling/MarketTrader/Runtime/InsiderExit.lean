import MarketTrader.Runtime.InsiderLedger

namespace MarketTrader.Runtime.InsiderSleeve

open Library MarketTrader.Core Storage InMemoryBitemporalStore Config Portfolio Execution Feedback

variable {β : Type} {D : Digests} {B : Broker β} {settings : Settings} {prices : Dict String ℚ}
  {asOf : Datetime} {w : World β} {universeNames : List String} {gate : Gate} {p : SleevePass}
  {active : Dict String InsiderSleevePosition}

theorem run_of_decided
    (h : decidePass D settings w.store universeNames gate asOf = .ok (p, prices)) :
    (runInsiderSleeveCycle D B settings w universeNames gate asOf).2 =
      if p.target.toList = [] then { w with store := p.store }
      else (rebalance D B (engine settings p.store asOf) { w with store := p.store } p.target prices
        asOf).world := by
  unfold runInsiderSleeveCycle
  rw [h]
  dsimp only [executePass]
  split <;> rfl

theorem run_store
    (h : decidePass D settings w.store universeNames gate asOf = .ok (p, prices)) :
    (runInsiderSleeveCycle D B settings w universeNames gate asOf).2.store = p.store := by
  rw [run_of_decided h]
  split
  · rfl
  · exact rebalance_store_of_not_audited rfl

/-- The exits of a pass are final: each due position goes to the engine with target zero, and no
closed name is opened in the pass or owned after it. -/
def ExitFinal (settings : Settings) (prices : Dict String ℚ) (asOf : Datetime)
    (active : Dict String InsiderSleevePosition) (p : SleevePass)
    (after : InMemoryBitemporalStore) : Prop :=
  (∀ a ∈ active.toList, isDue settings prices asOf a →
    a.1 ∈ p.closed ∧ Dict.get? p.target a.1 = some 0) ∧
  (∀ symbol ∈ p.closed, symbol ∉ p.opened) ∧
  ∃ active', activeInsiderPositions after asOf = .ok active' ∧
    ∀ symbol ∈ p.closed, symbol ∉ active'.keys

variable (hD : Function.Injective D.uuid5) (hl : Ledger D sleeveDataset (IsRow D) w.store)
  (h : decidePass D settings w.store universeNames gate asOf = .ok (p, prices))
  (ha : activeInsiderPositions w.store asOf = .ok active)

include hD hl ha h in
theorem inactive_after_close_iff {a : String × InsiderSleevePosition} (hm : a ∈ active.toList)
    (hd : isDue settings prices asOf a) (ho : a.1 ∉ p.opened)
    {active' : Dict String InsiderSleevePosition}
    (ha' : activeInsiderPositions p.store asOf = .ok active') :
    a.1 ∉ active'.keys ↔
      closeRow D a.1 asOf (closeReason settings prices a) ∉ w.store.toList := by
  have hp := decidePass_spec hD hl h ha
  rw [mem_active_after_iff hD hl ha hp a.1 ha', not_or, and_iff_right fun hn ↦ ho hn.1]
  refine not_congr ⟨fun hn ↦ hn.2 a hm rfl hd, fun hin ↦ ?_⟩
  refine ⟨Keyed.mem_keys.mpr ⟨a, hm, rfl⟩, fun b hb he _ ↦ ?_⟩
  rw [Keyed.eq_of_mem hb hm he]
  exact hin

/-- An exit of the insider sleeve is final for its pass exactly when the name is not among the
clusters that the pass opens, and its close is not in the ledger already. -/
theorem exit_final_iff (hD : Function.Injective D.uuid5)
    (hl : Ledger D sleeveDataset (IsRow D) w.store)
    (h : decidePass D settings w.store universeNames gate asOf = .ok (p, prices))
    (ha : activeInsiderPositions w.store asOf = .ok active) :
    let out := runInsiderSleeveCycle D B settings w universeNames gate asOf
    (p.target.toList ≠ [] → out.2 = (rebalance D B (engine settings p.store asOf)
      { w with store := p.store } p.target prices asOf).world) ∧
    (ExitFinal settings prices asOf active p out.2.store ↔ ∀ a ∈ active.toList,
      isDue settings prices asOf a →
      closeRow D a.1 asOf (closeReason settings prices a) ∉ w.store.toList ∧
        ∀ e ∈ selected settings prices w.store gate asOf active,
          e.symbol = a.1 → ¬Priced prices a.1) := by
  have hp := decidePass_spec hD hl h ha
  have hclosed := fun symbol ↦ mem_closed_iff symbol hp rfl
  have hopened := fun symbol ↦ mem_opened_iff symbol hp rfl
  refine ⟨fun hne ↦ by rw [run_of_decided h, if_neg hne], ?_⟩
  rw [run_store h]
  constructor
  · rintro ⟨-, hdisj, active', ha', hgone⟩ a hm hd
    have hc : a.1 ∈ p.closed := (hclosed a.1).mpr ⟨a, hm, hd, rfl⟩
    have ho : a.1 ∉ p.opened := hdisj a.1 hc
    refine ⟨(inactive_after_close_iff hD hl h ha hm hd ho ha').mp (hgone a.1 hc), ?_⟩
    exact fun e he hs hpr ↦ ho ((hopened a.1).mpr ⟨e, he, hs ▸ hpr, hs⟩)
  · intro hcond
    have hno : ∀ symbol ∈ p.closed, symbol ∉ p.opened := by
      intro symbol hc ho
      obtain ⟨a, hm, hd, rfl⟩ := (hclosed symbol).mp hc
      obtain ⟨e, he, hpr, hs⟩ := (hopened a.1).mp ho
      exact (hcond a hm hd).2 e he hs (hs ▸ hpr)
    obtain ⟨active', ha'⟩ := activeInsiderPositions_total
      (hp.ledger_after bar_not_mem_sleeveDataset hl) asOf
    refine ⟨fun a hm hd ↦ ?_, hno, active', ha', fun symbol hc ↦ ?_⟩
    · have hc : a.1 ∈ p.closed := (hclosed a.1).mpr ⟨a, hm, hd, rfl⟩
      exact ⟨hc, by rw [hp.target, get?_passTarget, if_neg (hno a.1 hc), if_pos hc]⟩
    · obtain ⟨a, hm, hd, rfl⟩ := (hclosed symbol).mp hc
      exact (inactive_after_close_iff hD hl h ha hm hd (hno a.1 hc) ha').mpr (hcond a hm hd).1

def fiveDays : Datetime := Timedelta.ofDays 5

/-- A ledger with one position, opened at 0 and boxed to five days. -/
def oneOpen : InMemoryBitemporalStore := recordOpen .plain .empty "A" 0 100 fiveDays 3

theorem ledger_oneOpen : Ledger .plain sleeveDataset (IsRow .plain) oneOpen where
  identified o ho := by
    obtain rfl : o = openRow .plain "A" 0 100 fiveDays 3 := List.mem_singleton.mp ho
    exact hasIdentity_sleeveRow bar_not_mem_sleeveDataset
  rows o ho _ := .inl ⟨"A", 0, 100, fiveDays, 3, List.mem_singleton.mp ho⟩

/-- With no cluster to open, the position is closed for good when its box is over. -/
theorem exit_final_one_open : ∃ p prices active,
    decidePass .plain {} oneOpen [] .empty fiveDays = .ok (p, prices) ∧
      ExitFinal {} prices fiveDays active p (runInsiderSleeveCycle .plain paperBroker {}
        ⟨{ prices := .empty }, oneOpen, []⟩ [] .empty fiveDays).2.store := by
  obtain ⟨active, ha⟩ := activeInsiderPositions_total ledger_oneOpen fiveDays
  have hd : (decidePass .plain {} oneOpen [] .empty fiveDays).isOk = true := by decide +kernel
  cases hdec : decidePass .plain {} oneOpen [] .empty fiveDays with
  | error err =>
    rw [hdec] at hd
    cases hd
  | ok r =>
    refine ⟨r.1, r.2, active, rfl, ((exit_final_iff (B := paperBroker) (w := ⟨{ prices := .empty },
      oneOpen, []⟩) Digests.plain_uuid5_injective ledger_oneOpen hdec ha).2).mpr fun a _ _ ↦
        ⟨fun hm ↦ ?_, fun e he ↦ ?_⟩⟩
    · have ho := isOpen_openRow (D := .plain) "A" 0 100 fiveDays 3
      rw [← List.mem_singleton.mp hm] at ho
      exact not_isOpen_closeRow _ _ _ ho
    · rw [selected_eq_nil rfl] at he
      cases he

def clusterRows : List Observation :=
  let purchase (n : String) : Observation :=
    { source := "edgar", dataset := Memory.form4Dataset, entityType := "equity", entityId := "A"
      ref := some n, eventTime := 0, knowledgeTime := 0
      value := .ofList [("is_purchase", .bool true)] }
  let price : Observation :=
    { source := "alpaca", dataset := priceDataset, entityType := "equity", entityId := "A"
      eventTime := 0, knowledgeTime := 0, value := .ofList [("close", .num 100)] }
  [purchase "1", purchase "2", purchase "3", price].map (withDeterministicId .plain)

def freshCluster : InMemoryBitemporalStore := upsertMany oneOpen clusterRows

def openGate : Gate := .ofList [(.insiderClusterBuy, ⟨"insider_cluster_buy", 40, 3 / 100, 1⟩)]

/-- The fifth day is the last of the box and still fresh, so the cluster is bought again. -/
theorem exit_not_final_fresh_cluster :
    ¬∀ (D : Digests) (settings : Settings) (store : InMemoryBitemporalStore)
      (universeNames : List String) (gate : Gate) (asOf : Datetime) (p : SleevePass)
      (prices : Dict String ℚ) (active : Dict String InsiderSleevePosition),
      decidePass D settings store universeNames gate asOf = .ok (p, prices) →
        activeInsiderPositions store asOf = .ok active →
          ExitFinal settings prices asOf active p p.store := by
  intro hall
  have hd : (match decidePass .plain {} freshCluster ["A"] openGate fiveDays with
      | .ok r => decide ("A" ∈ r.1.closed ∧ "A" ∈ r.1.opened)
      | .error _ => false) = true := by decide +kernel
  have ha : (activeInsiderPositions freshCluster fiveDays).isOk = true := by decide +kernel
  cases hdec : decidePass .plain {} freshCluster ["A"] openGate fiveDays with
  | error err =>
    rw [hdec] at hd
    cases hd
  | ok r =>
    rw [hdec] at hd
    obtain ⟨hc, ho⟩ := of_decide_eq_true hd
    cases hact : activeInsiderPositions freshCluster fiveDays with
    | error err =>
      rw [hact] at ha
      cases ha
    | ok active =>
      exact (hall _ _ _ _ _ _ r.1 r.2 active hdec hact).2.1 "A" hc ho

end MarketTrader.Runtime.InsiderSleeve
