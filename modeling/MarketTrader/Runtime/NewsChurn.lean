import MarketTrader.Runtime.SleeveRoom

namespace MarketTrader.Runtime.NewsSleeve

open Library MarketTrader.Core Storage InMemoryBitemporalStore Config Portfolio Execution

variable {β : Type} {D : Digests} {B : Broker β} {settings : Settings} {asOf : Datetime}
  {w : World β} {s : InMemoryBitemporalStore} {watchlist : List String}
  {prices : Dict String ℚ} {active : Dict String SleevePosition}

/-! ### What a pass opens -/

/-- The events that a pass may act on: confident and positive, on a story not yet acted on, in a
priced name that is neither held nor cooling down. -/
def candidates (settings : Settings) (asOf : Datetime) (b : Briefing) (live : List String)
    (events : List NewsEvent) : List NewsEvent :=
  events.filter (fun ev ↦ Priced b.prices ev.symbol ∧ actsOn settings asOf b live ev)

def places (settings : Settings) (live : List String) : ℕ :=
  (settings.newsSleeveMaxNames - live.length).toNat

theorem chosen_append (b : Briefing) (live added : List String) {events : List NewsEvent}
    (hn : (events.map NewsEvent.symbol).Nodup) (ha : ∀ ev ∈ events, ev.symbol ∉ added) :
    chosen settings asOf b events (live ++ added) =
      (candidates settings asOf b live events).take (places settings (live ++ added)) := by
  induction events generalizing added with
  | nil => simp [chosen, candidates]
  | cons ev events ih =>
    rw [List.map_cons, List.nodup_cons] at hn
    rw [List.forall_mem_cons] at ha
    rw [chosen]
    split
    · next hfull =>
      have hz : places settings (live ++ added) = 0 := Int.toNat_of_nonpos (by omega)
      rw [hz, List.take_zero]
    · next hroom =>
      have hacts : actsOn settings asOf b (live ++ added) ev = actsOn settings asOf b live ev := by
        simp only [actsOn, List.mem_append, ha.1, or_false]
      rw [hacts]
      split
      · next hc =>
        have hrest : ∀ ev' ∈ events, ev'.symbol ∉ added ++ [ev.symbol] := by
          intro ev' hev hm
          rcases List.mem_append.mp hm with hm | hm
          · exact ha.2 ev' hev hm
          · exact hn.1 (List.mem_singleton.mp hm ▸ List.mem_map_of_mem hev)
        have hsucc : places settings (live ++ added) =
            places settings (live ++ (added ++ [ev.symbol])) + 1 := by
          unfold places
          simp only [List.length_append, List.length_singleton] at hroom ⊢
          omega
        have hcand : candidates settings asOf b live (ev :: events) =
            ev :: candidates settings asOf b live events :=
          List.filter_cons_of_pos (decide_eq_true hc)
        rw [hcand, hsucc, List.take_succ_cons, List.append_assoc, ih _ hn.2 hrest]
      · next hc =>
        have hcand : candidates settings asOf b live (ev :: events) =
            candidates settings asOf b live events :=
          List.filter_cons_of_neg (by simpa using hc)
        rw [hcand, ih _ hn.2 ha.2]

/-- A pass opens the best candidates that it has places for. -/
theorem chosen_eq (b : Briefing) (live : List String) {events : List NewsEvent}
    (hn : (events.map NewsEvent.symbol).Nodup) : chosen settings asOf b events live =
      (candidates settings asOf b live events).take (places settings live) := by
  have h : chosen settings asOf b events (live ++ []) =
      (candidates settings asOf b live events).take (places settings (live ++ [])) :=
    chosen_append b live [] hn (by simp)
  rwa [List.append_nil] at h

theorem symbols_sublist {countSurge toneMin : ℚ} {baselineDays recentDays : ℤ}
    {rows : List (String × List (Datetime × Dict String Value))} {found : List (Option NewsEvent)}
    (h : rows.mapM (fun p ↦ newsEventOf D asOf countSurge toneMin baselineDays recentDays p.1 p.2) =
      .ok found) : (found.reduceOption.map NewsEvent.symbol).Sublist (rows.map Prod.fst) := by
  induction rows generalizing found with
  | nil =>
    cases h
    exact .slnil
  | cons p rows ih =>
    rw [List.mapM_cons] at h
    cases hp : newsEventOf D asOf countSurge toneMin baselineDays recentDays p.1 p.2 with
    | error err =>
      rw [hp] at h
      cases h
    | ok ev =>
      cases hrows : rows.mapM
          (fun p ↦ newsEventOf D asOf countSurge toneMin baselineDays recentDays p.1 p.2) with
      | error err =>
        rw [hp, hrows] at h
        cases h
      | ok rest =>
        rw [hp, hrows] at h
        cases h
        have ih := ih hrows
        cases ev with
        | none => exact ih.cons p.1
        | some ev =>
          have hsym : ev.symbol = p.1 := by
            unfold newsEventOf at hp
            dsimp only at hp
            split at hp
            · cases hp
            · split at hp
              · cases hp
              · split at hp
                · cases hp
                · cases hp
                  rfl
          rw [List.reduceOption_cons_of_some, List.map_cons, List.map_cons, hsym]
          exact ih.cons_cons p.1

theorem nodup_detected : ((detected D settings s watchlist asOf).map NewsEvent.symbol).Nodup := by
  unfold detected
  split
  · exact List.nodup_nil
  · next events he =>
    rw [((sortBy_perm _ events).map NewsEvent.symbol).nodup_iff]
    unfold detectNewsEvents at he
    cases hm : (articlesWithin s asOf watchlist settings.newsSleeveBaselineDays).toList.mapM
        (fun p ↦ newsEventOf D asOf settings.newsSleeveCountSurge settings.newsSleeveToneMin
          settings.newsSleeveBaselineDays 1 p.1 p.2) with
    | error err =>
      rw [hm] at he
      cases he
    | ok found =>
      rw [hm] at he
      cases he
      exact (Keyed.nodup _).sublist (symbols_sublist hm)

/-! ### The rows of a pass -/

def dueRow (D : Digests) (settings : Settings) (prices : Dict String ℚ) (asOf : Datetime)
    (a : String × SleevePosition) : Observation :=
  closeRow D a.1 asOf a.2.storyHash (closeReason settings prices a)

def boughtRow (D : Digests) (settings : Settings) (prices : Dict String ℚ) (asOf : Datetime)
    (ev : NewsEvent) : Observation :=
  openRow D ev.symbol asOf ((Dict.get? prices ev.symbol).getD 0)
    (asOf + Timedelta.ofDays settings.newsSleeveHoldDays) ev.storyHash

section Rows

variable {evs : List NewsEvent} {p : SleevePass} {o : Observation}
  (hD : Function.Injective D.uuid5) (hl : Ledger D sleeveDataset (IsRow D) s)
  (ha : activeSleevePositions s asOf = .ok active)
  (hpast : ∀ o ∈ s.toList, o.dataset = sleeveDataset → o.eventTime < asOf)
  (hevs : ∀ ev ∈ evs, IsHash ev.storyHash)
  (hp : PassSpec D sleeveDataset (IsRow D) asOf (perName settings) s
    (closings D settings prices asOf active) (openings D settings prices asOf evs) p)

/-- A row that a pass writes in the ledger. -/
def Written (D : Digests) (settings : Settings) (prices : Dict String ℚ) (asOf : Datetime)
    (active : Dict String SleevePosition) (evs : List NewsEvent) (o : Observation) : Prop :=
  (∃ a ∈ active.toList, isDue settings prices asOf a ∧ o = dueRow D settings prices asOf a) ∨
    ∃ ev ∈ evs, o = boughtRow D settings prices asOf ev

include hp in
theorem symbols_nodup : (evs.map NewsEvent.symbol).Nodup := by
  have hn := hp.opened_nodup
  rwa [openings, List.map_map] at hn

include hD hl ha hevs hp in
theorem written_unique {r r' : Observation} (h : Written D settings prices asOf active evs r)
    (h' : Written D settings prices asOf active evs r')
    (hid : r'.observationId = r.observationId) : r' = r := by
  have hbar := bar_not_mem_sleeveDataset
  rcases h with ⟨a, hm, -, rfl⟩ | ⟨ev, hev, rfl⟩ <;>
    rcases h' with ⟨a', hm', -, rfl⟩ | ⟨ev', hev', rfl⟩
  · have hh := isHash_of_active ha hl hm
    have hh' := isHash_of_active ha hl hm'
    obtain ⟨hs, -, -⟩ := sleeveRow_coordinates hD hbar
      (hh'.bar_not_mem_closeRef (closeReason_or settings prices a'))
      (hh.bar_not_mem_closeRef (closeReason_or settings prices a)) hid
    rw [Keyed.eq_of_mem hm' hm hs]
  · have hh := isHash_of_active ha hl hm
    obtain ⟨-, -, href⟩ := sleeveRow_coordinates hD hbar (hevs ev' hev').bar_not_mem
      (hh.bar_not_mem_closeRef (closeReason_or settings prices a)) hid
    exact absurd href ((hevs ev' hev').ne_closeRef _ _)
  · have hh' := isHash_of_active ha hl hm'
    obtain ⟨-, -, href⟩ := sleeveRow_coordinates hD hbar
      (hh'.bar_not_mem_closeRef (closeReason_or settings prices a')) (hevs ev hev).bar_not_mem hid
    exact absurd href.symm ((hevs ev hev).ne_closeRef _ _)
  · obtain ⟨hs, -, -⟩ := sleeveRow_coordinates hD hbar (hevs ev' hev').bar_not_mem
      (hevs ev hev).bar_not_mem hid
    rw [List.inj_on_of_nodup_map (symbols_nodup hp) hev' hev hs]

theorem Written.sleeveRow {r : Observation} (h : Written D settings prices asOf active evs r) :
    HasIdentity D r ∧ r.dataset = sleeveDataset ∧ r.eventTime = asOf := by
  rcases h with ⟨a, -, -, rfl⟩ | ⟨ev, -, rfl⟩
  · exact ⟨hasIdentity_sleeveRow bar_not_mem_sleeveDataset, rfl, rfl⟩
  · exact ⟨hasIdentity_sleeveRow bar_not_mem_sleeveDataset, rfl, rfl⟩

def passRows (D : Digests) (settings : Settings) (prices : Dict String ℚ) (asOf : Datetime)
    (active : Dict String SleevePosition) (evs : List NewsEvent) : List Observation :=
  (closings D settings prices asOf active).map Prod.snd ++
    (openings D settings prices asOf evs).flatMap (fun o ↦ [o.2.1, o.2.2])

theorem mem_passRows_of_written {r : Observation}
    (h : Written D settings prices asOf active evs r) :
    r ∈ passRows D settings prices asOf active evs := by
  rcases h with ⟨a, hm, hd, rfl⟩ | ⟨ev, hev, rfl⟩
  · refine List.mem_append_left _ (List.mem_map.mpr
      ⟨(a.1, dueRow D settings prices asOf a), ?_, rfl⟩)
    exact List.mem_map_of_mem (List.mem_filter.mpr ⟨hm, hd⟩)
  · refine List.mem_append_right _ (List.mem_flatMap.mpr ⟨_, List.mem_map_of_mem hev, ?_⟩)
    exact List.mem_cons_self

include hp in
theorem written_or_logged {r : Observation} (h : r ∈ passRows D settings prices asOf active evs) :
    Written D settings prices asOf active evs r ∨
      HasIdentity D r ∧ r.dataset ≠ sleeveDataset := by
  rcases List.mem_append.mp h with h | h
  · obtain ⟨c, hc, rfl⟩ := List.mem_map.mp h
    obtain ⟨a, hm, rfl⟩ := List.mem_map.mp hc
    obtain ⟨hm, hd⟩ := List.mem_filter.mp hm
    exact .inl (.inl ⟨a, hm, hd, rfl⟩)
  · obtain ⟨c, hc, hr⟩ := List.mem_flatMap.mp h
    rcases List.mem_pair.mp hr with rfl | rfl
    · obtain ⟨ev, hev, rfl⟩ := List.mem_map.mp hc
      exact .inl (.inr ⟨ev, hev, rfl⟩)
    · exact .inr (hp.logged c hc)

include hD hl ha hpast hevs hp in
/-- The ledger after a pass: what was there, and what the pass wrote. -/
theorem mem_ledger_after : o ∈ p.store.toList ∧ o.dataset = sleeveDataset ↔
    (o ∈ s.toList ∧ o.dataset = sleeveDataset) ∨ Written D settings prices asOf active evs o := by
  have hstore : p.store = s.insertAll (passRows D settings prices asOf active evs) := by
    rw [hp.store, ← Keyed.insertAll_append]
    rfl
  rw [hstore]
  constructor
  · rintro ⟨hm, hd⟩
    rcases Keyed.mem_of_mem_insertAll hm with hm | hm
    · exact .inl ⟨hm, hd⟩
    · exact .inr ((written_or_logged hp hm).resolve_right fun h ↦ h.2 hd)
  · rintro (⟨hm, hd⟩ | hw)
    · refine ⟨Keyed.mem_insertAll_of_ne hm fun r hr hid ↦ ?_, hd⟩
      rcases written_or_logged hp hr with hw | ⟨hi, hne⟩
      · obtain ⟨symbol, ref, t, value, hb, rfl⟩ := isSleeveRow_of_isRow (hl.rows o hm hd)
        have ht : r.eventTime = t := by
          rcases hw with ⟨a, ha', -, rfl⟩ | ⟨ev, hev, rfl⟩
          · have hh := isHash_of_active ha hl ha'
            exact (sleeveRow_coordinates hD bar_not_mem_sleeveDataset
              (hh.bar_not_mem_closeRef (closeReason_or settings prices a)) hb hid).2.1
          · exact (sleeveRow_coordinates hD bar_not_mem_sleeveDataset
              (hevs ev hev).bar_not_mem hb hid).2.1
        have hlt : t < asOf := hpast _ hm rfl
        exact hlt.ne (ht.symm.trans hw.sleeveRow.2.2)
      · exact hne ((dataset_eq_of_id_eq hD hi (hl.identified o hm) hid).trans hd)
    · obtain ⟨hi, hd, -⟩ := hw.sleeveRow
      refine ⟨Keyed.mem_insertAll_of_unique (mem_passRows_of_written hw) fun r hr hid ↦ ?_, hd⟩
      rcases written_or_logged hp hr with hw' | ⟨hi', hne⟩
      · exact written_unique hD hl ha hevs hp hw hw' hid
      · exact absurd ((dataset_eq_of_id_eq hD hi' hi hid).trans hd) hne

end Rows

/-! ### No churn -/

/-- The ledger of a sleeve that does not churn: a story opens one position at most, and a name is
opened no sooner than the cooldown after its own last open or close. -/
structure NoChurn (settings : Settings) (s : InMemoryBitemporalStore) : Prop where
  once : ∀ o ∈ s.toList, ∀ o' ∈ s.toList, o.dataset = sleeveDataset → o'.dataset = sleeveDataset →
    isOpen o → isOpen o' → o.get? "story_hash" = o'.get? "story_hash" → o = o'
  rested : ∀ o ∈ s.toList, ∀ o' ∈ s.toList, o.dataset = sleeveDataset → o'.dataset = sleeveDataset →
    isOpen o → o'.entityId = o.entityId → o' ≠ o → o'.eventTime ≤ o.eventTime →
      o'.eventTime < o.eventTime ∧
        Timedelta.ofDays settings.newsSleeveCooldownDays ≤ o.eventTime - o'.eventTime

theorem le_of_not_cooling (hl : Ledger D sleeveDataset (IsRow D) s) {o : Observation}
    (ho : o ∈ s.toList) (hd : o.dataset = sleeveDataset) (ht : o.eventTime ≤ asOf)
    (h : ¬cooling settings asOf (lastActionTime s asOf o.entityId)) :
    Timedelta.ofDays settings.newsSleeveCooldownDays ≤ asOf - o.eventTime := by
  have hj : o ∈ journal s sleeveDataset o.entityId asOf := by
    refine mem_journal.mpr ⟨ho, ?_, hd, rfl⟩
    obtain ⟨symbol, ref, t, value, -, rfl⟩ := isSleeveRow_of_isRow (hl.rows o ho hd)
    exact ht
  rw [lastActionTime, latestBySymbol, records, find?_champions_asOf] at h
  cases hst : standing newer s sleeveDataset o.entityId asOf with
  | none =>
    rw [standing, champion_eq_none] at hst
    obtain ⟨r, hr, -⟩ := List.mem_map.mp (mem_keys_collapse.mpr ⟨o, hj, rfl⟩)
    have hm : r ∈ sortObservations (collapseLatestRevisions
        (journal s sleeveDataset o.entityId asOf)) := mem_sortBy.mpr hr
    rw [hst] at hm
    cases hm
  | some last =>
    rw [hst] at h
    have hle := eventTime_le_of_standing hst hj
    have hcool : ¬(asOf - last.eventTime < Timedelta.ofDays settings.newsSleeveCooldownDays) :=
      fun hlt ↦ h (decide_eq_true hlt)
    exact (not_lt.mp hcool).trans (sub_le_sub_left hle asOf)

section Step

variable {evs : List NewsEvent} {p : SleevePass}
  (hD : Function.Injective D.uuid5) (hl : Ledger D sleeveDataset (IsRow D) s)
  (ha : activeSleevePositions s asOf = .ok active)
  (hpast : ∀ o ∈ s.toList, o.dataset = sleeveDataset → o.eventTime < asOf)
  (hevs : ∀ ev ∈ evs, IsHash ev.storyHash)
  (hp : PassSpec D sleeveDataset (IsRow D) asOf (perName settings) s
    (closings D settings prices asOf active) (openings D settings prices asOf evs) p)

include hD hl ha hpast hevs hp

theorem once_after (hacted : ∀ ev ∈ evs, ev.storyHash ∉ actedStoryHashes s asOf)
    (h : NoChurn settings s) (hn : (evs.map NewsEvent.storyHash).Nodup)
    {o o' : Observation} (ho : o ∈ p.store.toList) (ho' : o' ∈ p.store.toList)
    (hd : o.dataset = sleeveDataset) (hd' : o'.dataset = sleeveDataset) (hopen : isOpen o)
    (hopen' : isOpen o') (hs : o.get? "story_hash" = o'.get? "story_hash") : o = o' := by
  have hnew : ∀ r ∈ s.toList, r.dataset = sleeveDataset → isOpen r → ∀ ev ∈ evs,
      r.get? "story_hash" ≠ (boughtRow D settings prices asOf ev).get? "story_hash" := by
    intro r hr hrd hro ev hev he
    rcases hl.rows r hr hrd with ⟨symbol, t, price, exitBy, hash, hh, rfl⟩ |
      ⟨symbol, t, hash, reason, -, -, rfl⟩
    · obtain rfl : hash = ev.storyHash := Value.str.inj (Option.some_inj.mp he)
      exact hacted ev hev (mem_actedStoryHashes hl hh hr (hpast _ hr hrd).le)
    · exact not_isOpen_closeRow symbol t hash reason hro
  rcases (mem_ledger_after hD hl ha hpast hevs hp).mp ⟨ho, hd⟩ with ⟨hm, -⟩ | hw <;>
    rcases (mem_ledger_after hD hl ha hpast hevs hp).mp ⟨ho', hd'⟩ with ⟨hm', -⟩ | hw'
  · exact h.once o hm o' hm' hd hd' hopen hopen' hs
  · rcases hw' with ⟨a, -, -, rfl⟩ | ⟨ev, hev, rfl⟩
    · exact absurd hopen' (not_isOpen_closeRow _ _ _ _)
    · exact absurd hs (hnew o hm hd hopen ev hev)
  · rcases hw with ⟨a, -, -, rfl⟩ | ⟨ev, hev, rfl⟩
    · exact absurd hopen (not_isOpen_closeRow _ _ _ _)
    · exact absurd hs.symm (hnew o' hm' hd' hopen' ev hev)
  · rcases hw with ⟨a, -, -, rfl⟩ | ⟨ev, hev, rfl⟩
    · exact absurd hopen (not_isOpen_closeRow _ _ _ _)
    · rcases hw' with ⟨a, -, -, rfl⟩ | ⟨ev', hev', rfl⟩
      · exact absurd hopen' (not_isOpen_closeRow _ _ _ _)
      · have hhash : ev.storyHash = ev'.storyHash := Value.str.inj (Option.some_inj.mp hs)
        rw [List.inj_on_of_nodup_map hn hev hev' hhash]

theorem rested_after (hcool : ∀ ev ∈ evs, ¬cooling settings asOf (lastActionTime s asOf ev.symbol))
    (h : NoChurn settings s)
    (hfree : ∀ ev ∈ evs, ∀ a ∈ active.toList, isDue settings prices asOf a → a.1 ≠ ev.symbol)
    {o o' : Observation} (ho : o ∈ p.store.toList) (ho' : o' ∈ p.store.toList)
    (hd : o.dataset = sleeveDataset) (hd' : o'.dataset = sleeveDataset) (hopen : isOpen o)
    (hs : o'.entityId = o.entityId) (hne : o' ≠ o) (hle : o'.eventTime ≤ o.eventTime) :
    o'.eventTime < o.eventTime ∧
      Timedelta.ofDays settings.newsSleeveCooldownDays ≤ o.eventTime - o'.eventTime := by
  rcases (mem_ledger_after hD hl ha hpast hevs hp).mp ⟨ho, hd⟩ with ⟨hm, -⟩ | hw <;>
    rcases (mem_ledger_after hD hl ha hpast hevs hp).mp ⟨ho', hd'⟩ with ⟨hm', -⟩ | hw'
  · exact h.rested o hm o' hm' hd hd' hopen hs hne hle
  · rw [hw'.sleeveRow.2.2] at hle
    exact absurd hle (not_le.mpr (hpast o hm hd))
  · rw [hw.sleeveRow.2.2]
    refine ⟨hpast o' hm' hd', ?_⟩
    rcases hw with ⟨a, -, -, rfl⟩ | ⟨ev, hev, rfl⟩
    · exact absurd hopen (not_isOpen_closeRow _ _ _ _)
    · refine le_of_not_cooling hl hm' hd' (hpast o' hm' hd').le ?_
      rw [hs]
      exact hcool ev hev
  · rcases hw with ⟨a, -, -, rfl⟩ | ⟨ev, hev, rfl⟩
    · exact absurd hopen (not_isOpen_closeRow _ _ _ _)
    · rcases hw' with ⟨a, hm, hdue, rfl⟩ | ⟨ev', hev', rfl⟩
      · exact absurd hs (hfree ev hev a hm hdue)
      · refine absurd ?_ hne
        rw [List.inj_on_of_nodup_map (symbols_nodup hp) hev' hev hs]

/-- A pass keeps the ledger from churning if and only if what it opens comes from different stories
and is none of what it closes. -/
theorem noChurn_after_iff (hacted : ∀ ev ∈ evs, ev.storyHash ∉ actedStoryHashes s asOf)
    (hcool : ∀ ev ∈ evs, ¬cooling settings asOf (lastActionTime s asOf ev.symbol)) :
    NoChurn settings p.store ↔ NoChurn settings s ∧ (evs.map NewsEvent.storyHash).Nodup ∧
      ∀ ev ∈ evs, ∀ a ∈ active.toList, isDue settings prices asOf a → a.1 ≠ ev.symbol := by
  have hafter := fun o ↦ mem_ledger_after (o := o) hD hl ha hpast hevs hp
  have hrow : ∀ ev ∈ evs, boughtRow D settings prices asOf ev ∈ p.store.toList :=
    fun ev hev ↦ ((hafter _).mpr (.inr (.inr ⟨ev, hev, rfl⟩))).1
  have hkept : ∀ o ∈ s.toList, o.dataset = sleeveDataset → o ∈ p.store.toList :=
    fun o ho hd ↦ ((hafter o).mpr (.inl ⟨ho, hd⟩)).1
  constructor
  · intro h
    refine ⟨⟨fun o ho o' ho' hd hd' ↦ h.once o (hkept o ho hd) o' (hkept o' ho' hd') hd hd',
      fun o ho o' ho' hd hd' ↦ h.rested o (hkept o ho hd) o' (hkept o' ho' hd') hd hd'⟩, ?_, ?_⟩
    · refine List.Nodup.map_on (fun ev hev ev' hev' he ↦ ?_) (symbols_nodup hp).of_map
      have hsame := h.once _ (hrow ev hev) _ (hrow ev' hev') rfl rfl (isOpen_openRow ..)
        (isOpen_openRow ..) (congrArg (fun hash ↦ some (Value.str hash)) he)
      exact List.inj_on_of_nodup_map (symbols_nodup hp) hev hev'
        (congrArg Observation.entityId hsame)
    · intro ev hev a hm hdue hs
      have hclosed := ((hafter (dueRow D settings prices asOf a)).mpr
        (.inr (.inl ⟨a, hm, hdue, rfl⟩))).1
      have hne : dueRow D settings prices asOf a ≠ boughtRow D settings prices asOf ev := by
        intro he
        have hopen : isOpen (boughtRow D settings prices asOf ev) := isOpen_openRow ..
        rw [← he] at hopen
        exact not_isOpen_closeRow _ _ _ _ hopen
      exact lt_irrefl asOf (h.rested _ (hrow ev hev) _ hclosed rfl rfl (isOpen_openRow ..) hs hne
        (le_refl asOf)).1
  · rintro ⟨h, hn, hfree⟩
    exact ⟨fun o ho o' ho' hd hd' hopen hopen' hs ↦ once_after hD hl ha hpast hevs hp hacted h hn ho
        ho' hd hd' hopen hopen' hs,
      fun o ho o' ho' hd hd' hopen hs hne hle ↦ rested_after hD hl ha hpast hevs hp hcool h hfree ho
        ho' hd hd' hopen hs hne hle⟩

end Step

/-! ### Runs of passes -/

/-- A pass of the loop: what its feed returns, and when. -/
structure Round where
  fetched : List Observation
  watchlist : List String
  limits : Option RiskLimits
  asOf : Datetime

def Round.run (D : Digests) (B : Broker β) (settings : Settings) (w : World β) (r : Round) :
    World β :=
  (runNewsSleeveCycle D B settings w r.fetched r.watchlist r.limits r.asOf).2

def afterRounds (D : Digests) (B : Broker β) (settings : Settings) (w : World β)
    (rounds : List Round) : World β := rounds.foldl (Round.run D B settings) w

/-- Of the candidates of a pass, the best ones that it has places for come from different stories,
and none is about a name that the pass closes. -/
def Fresh (D : Digests) (settings : Settings) (w : World β) (r : Round) : Prop :=
  let s := received D w.store r.fetched
  ∀ active prices, activeSleevePositions s r.asOf = .ok active →
    latestPrices s r.asOf r.watchlist = .ok prices →
      let held := remaining settings prices r.asOf active
      let best := (candidates settings r.asOf (briefing prices s r.asOf) held
        (detected D settings s r.watchlist r.asOf)).take (places settings held)
      (best.map NewsEvent.storyHash).Nodup ∧
        ∀ ev ∈ best, ∀ a ∈ active.toList, isDue settings prices r.asOf a → a.1 ≠ ev.symbol

section Round

variable {r : Round} (hD : Function.Injective D.uuid5) (hf : Wire r.fetched)
  (hl : Ledger D sleeveDataset (IsRow D) w.store)
  (hpast : ∀ o ∈ w.store.toList, o.dataset = sleeveDataset → o.eventTime < r.asOf)

include hf hl in
theorem Round.ledger : Ledger D sleeveDataset (IsRow D) (r.run D B settings w).store :=
  ledger_run hf hl

include hD hf hl in
theorem noChurn_received :
    NoChurn settings (received D w.store r.fetched) ↔ NoChurn settings w.store := by
  have hin : Spares D sleeveDataset w.store (received D w.store r.fetched) :=
    spares_received hf (by decide) w.store
  have hsub := fun o ho hd ↦ hin.mem_of_mem (o := o) ho hd
  have hsup := fun o ho hd ↦ hin.mem_of_mem' (o := o) hD hl.identified ho hd
  constructor
  · intro h
    exact ⟨fun o ho o' ho' hd hd' ↦ h.once o (hsup o ho hd) o' (hsup o' ho' hd') hd hd',
      fun o ho o' ho' hd hd' ↦ h.rested o (hsup o ho hd) o' (hsup o' ho' hd') hd hd'⟩
  · intro h
    exact ⟨fun o ho o' ho' hd hd' ↦ h.once o (hsub o ho hd) o' (hsub o' ho' hd') hd hd',
      fun o ho o' ho' hd hd' ↦ h.rested o (hsub o ho hd) o' (hsub o' ho' hd') hd hd'⟩

include hD hf hl hpast in
theorem noChurn_run_iff : NoChurn settings (r.run D B settings w).store ↔
    NoChurn settings w.store ∧ Fresh D settings w r := by
  have hl' := ledger_received hf hl
  have hin : Spares D sleeveDataset w.store (received D w.store r.fetched) :=
    spares_received hf (by decide) w.store
  rw [← noChurn_received hD hf hl]
  rcases run_store_cases D B settings w hf r.watchlist r.limits r.asOf hl with
    ⟨⟨err, herr⟩, he⟩ | ⟨active, prices, p, ha, hpr, hp, he⟩
  · rw [Round.run, he]
    refine (and_iff_left fun active prices _ hpr ↦ ?_).symm
    rw [herr] at hpr
    cases hpr
  · rw [Round.run, he]
    rw [detected_closedPass hD hl'.identified, chosen_eq _ _ nodup_detected] at hp
    have hcand := fun ev (hev : ev ∈ (candidates settings r.asOf
        (briefing prices (received D w.store r.fetched) r.asOf)
        (remaining settings prices r.asOf active)
        (detected D settings (received D w.store r.fetched) r.watchlist r.asOf)).take
          (places settings (remaining settings prices r.asOf active))) ↦
      List.mem_filter.mp (List.mem_of_mem_take hev)
    have hacts := fun ev hev ↦ of_decide_eq_true (of_decide_eq_true (hcand ev hev).2).2
    rw [noChurn_after_iff hD hl' ha (fun o ho hd ↦ hpast o (hin.mem_of_mem ho hd) hd)
      (fun ev hev ↦ isHash_of_mem_detected (hcand ev hev).1) hp
      (fun ev hev ↦ (hacts ev hev).2.2.1) fun ev hev ↦ (hacts ev hev).2.2.2.2]
    refine and_congr_right fun _ ↦ ⟨fun h active' prices' ha' hpr' ↦ ?_, fun h ↦ h _ _ ha hpr⟩
    obtain rfl : active = active' := Except.ok.inj (ha.symm.trans ha')
    obtain rfl : prices = prices' := Except.ok.inj (hpr.symm.trans hpr')
    exact h

include hD hf hl hpast in
theorem Round.past {o : Observation} (ho : o ∈ (r.run D B settings w).store.toList)
    (hd : o.dataset = sleeveDataset) : o.eventTime ≤ r.asOf := by
  have hl' := ledger_received hf hl
  have hin : Spares D sleeveDataset w.store (received D w.store r.fetched) :=
    spares_received hf (by decide) w.store
  have hpast' := fun o ho hd ↦ hpast o (hin.mem_of_mem (o := o) ho hd) hd
  rcases run_store_cases D B settings w hf r.watchlist r.limits r.asOf hl with
    ⟨-, he⟩ | ⟨active, prices, p, ha, hpr, hp, he⟩
  · rw [Round.run, he] at ho
    exact (hpast' o ho hd).le
  · rw [Round.run, he] at ho
    rcases (mem_ledger_after hD hl' ha hpast' (fun ev hev ↦
      isHash_of_mem_detected (mem_chosen hev).1) hp).mp ⟨ho, hd⟩ with ⟨hm, -⟩ | hw
    · exact (hpast' o hm hd).le
    · exact hw.sleeveRow.2.2.le

include hD hf hl hpast in
theorem Round.atMost
    (h : AtMost newer readPosition sleeveDataset settings.newsSleeveMaxNames.toNat w.store) :
    AtMost newer readPosition sleeveDataset settings.newsSleeveMaxNames.toNat
      (r.run D B settings w).store := by
  have hin : Spares D sleeveDataset w.store (received D w.store r.fetched) :=
    spares_received hf (by decide) w.store
  refine atMost_run hf hl hD (fun o ho hd ↦ ?_) (fun active prices _ _ a _ _ o ho ↦ ?_) h
  · obtain ⟨symbol, ref, t, value, -, rfl⟩ := isSleeveRow_of_isRow (hl.rows o ho hd)
    exact (hpast _ ho hd).le
  · obtain ⟨hm, -, hd, -⟩ := mem_journal.mp (mem_of_standing ho)
    exact hpast o (hin.mem_of_mem hm hd) hd

end Round

/-- Each pass is fresh in the state that it starts from. -/
def AllFresh (D : Digests) (B : Broker β) (settings : Settings) : World β → List Round → Prop
  | _, [] => True
  | w, r :: rounds => Fresh D settings w r ∧ AllFresh D B settings (r.run D B settings w) rounds

/-- A run without churn, and with no more names at any of its points than the sleeve may own. -/
structure Calm (D : Digests) (B : Broker β) (settings : Settings) (w : World β)
    (rounds : List Round) : Prop where
  noChurn : NoChurn settings (afterRounds D B settings w rounds).store
  room : ∀ made, made <+: rounds → AtMost newer readPosition sleeveDataset
    settings.newsSleeveMaxNames.toNat (afterRounds D B settings w made).store

section Run

variable {rounds : List Round} (hD : Function.Injective D.uuid5)
  (hl : Ledger D sleeveDataset (IsRow D) w.store)
  (hpast : ∀ r ∈ rounds, ∀ o ∈ w.store.toList, o.dataset = sleeveDataset → o.eventTime < r.asOf)
  (hf : ∀ r ∈ rounds, Wire r.fetched) (hmono : rounds.Pairwise (fun r r' ↦ r.asOf < r'.asOf))

include hD hl hpast hf hmono

theorem noChurn_afterRounds_iff : NoChurn settings (afterRounds D B settings w rounds).store ↔
    NoChurn settings w.store ∧ AllFresh D B settings w rounds := by
  induction rounds generalizing w with
  | nil => exact (and_iff_left trivial).symm
  | cons r rounds ih =>
    rw [List.forall_mem_cons] at hpast hf
    rw [List.pairwise_cons] at hmono
    have hnext : ∀ r' ∈ rounds, ∀ o ∈ (r.run D B settings w).store.toList,
        o.dataset = sleeveDataset → o.eventTime < r'.asOf := fun r' hr' o ho hd ↦
      (Round.past hD hf.1 hl hpast.1 ho hd).trans_lt (hmono.1 r' hr')
    have ih := ih (Round.ledger hf.1 hl) hnext hf.2 hmono.2
    rw [noChurn_run_iff hD hf.1 hl hpast.1, and_assoc] at ih
    exact ih

theorem atMost_afterRounds
    (h : AtMost newer readPosition sleeveDataset settings.newsSleeveMaxNames.toNat w.store) :
    AtMost newer readPosition sleeveDataset settings.newsSleeveMaxNames.toNat
      (afterRounds D B settings w rounds).store := by
  induction rounds generalizing w with
  | nil => exact h
  | cons r rounds ih =>
    rw [List.forall_mem_cons] at hpast hf
    rw [List.pairwise_cons] at hmono
    have hnext : ∀ r' ∈ rounds, ∀ o ∈ (r.run D B settings w).store.toList,
        o.dataset = sleeveDataset → o.eventTime < r'.asOf := fun r' hr' o ho hd ↦
      (Round.past hD hf.1 hl hpast.1 ho hd).trans_lt (hmono.1 r' hr')
    exact ih (Round.ledger hf.1 hl) hnext hf.2 hmono.2 (Round.atMost hD hf.1 hl hpast.1 h)

end Run

/-- From an empty ledger, the sleeve does not churn in a run if and only if every pass is fresh. -/
theorem news_sleeve_calm_iff (hD : Function.Injective D.uuid5) (B : Broker β) (settings : Settings)
    (w : World β) (hi : Identified D w.store)
    (hnone : ∀ o ∈ w.store.toList, o.dataset ≠ sleeveDataset)
    (rounds : List Round) (hf : ∀ r ∈ rounds, Wire r.fetched)
    (hmono : rounds.Pairwise (fun r r' ↦ r.asOf < r'.asOf)) :
    Calm D B settings w rounds ↔ AllFresh D B settings w rounds := by
  have hl : Ledger D sleeveDataset (IsRow D) w.store :=
    ⟨hi, fun o ho hd ↦ absurd hd (hnone o ho)⟩
  have hpast : ∀ r : Round, ∀ o ∈ w.store.toList, o.dataset = sleeveDataset →
      o.eventTime < r.asOf := fun _ o ho hd ↦ absurd hd (hnone o ho)
  have hstart : NoChurn settings w.store :=
    ⟨fun o ho _ _ hd ↦ absurd hd (hnone o ho), fun o ho _ _ hd ↦ absurd hd (hnone o ho)⟩
  have hiff : NoChurn settings (afterRounds D B settings w rounds).store ↔
      NoChurn settings w.store ∧ AllFresh D B settings w rounds :=
    noChurn_afterRounds_iff hD hl (fun r _ ↦ hpast r) hf hmono
  rw [and_iff_right hstart] at hiff
  refine ⟨fun h ↦ hiff.mp h.noChurn, fun h ↦ ⟨hiff.mpr h, fun made hm ↦ ?_⟩⟩
  exact atMost_afterRounds hD hl (fun r _ ↦ hpast r) (fun r hr ↦ hf r (hm.subset hr))
    (hmono.sublist hm.sublist) (atMost_of_no_rows hnone)

/-! ### A day of news -/

def newsDay (symbol url : String) (asOf : Datetime) : List Observation :=
  ["1", "2", "3"].map fun ref ↦
    { source := "gdelt"
      dataset := newsDataset
      entityType := "equity"
      entityId := symbol
      ref := some (url ++ ref)
      eventTime := asOf
      knowledgeTime := asOf
      value := .ofList [("url", .str url), ("tone", .num 5)] }

def priceRow (symbol : String) : Observation :=
  withDeterministicId .plain
    { source := "alpaca"
      dataset := priceDataset
      entityType := "equity"
      entityId := symbol
      ref := none
      eventTime := 0
      knowledgeTime := 0
      value := .ofList [("close", .num 100)] }

def quoted : World Account where
  broker := { equity := 1000, cash := 1000, buyingPower := 1000 }
  store := upsertMany .empty [priceRow "A", priceRow "B"]
  submitted := []

def newsRound (asOf : Datetime) (stories : List (String × String)) : Round where
  fetched := stories.flatMap fun p ↦ newsDay p.1 p.2 asOf
  watchlist := ["A", "B"]
  limits := none
  asOf := asOf

theorem identified_quoted : Identified .plain quoted.store := by
  have hrow : ∀ symbol, HasIdentity .plain (priceRow symbol) :=
    fun _ ↦ hasIdentity_withDeterministicId (by decide : '|' ∉ "alpaca".toList)
      (by decide : '|' ∉ priceDataset.toList)
  exact identified_insert (identified_insert (fun o ho ↦ by cases ho) (hrow "A")) (hrow "B")

/-- Two names on two stories. -/
theorem news_sleeve_calm_two_stories : Calm .plain accountBroker {} quoted
    [newsRound 0 [("A", "a"), ("B", "b")]] := by
  have hnone : ∀ o ∈ quoted.store.toList, o.dataset ≠ sleeveDataset := by decide +kernel
  have hwire : Wire (newsRound 0 [("A", "a"), ("B", "b")]).fetched := by
    unfold Wire
    decide
  refine (news_sleeve_calm_iff Digests.plain_uuid5_injective accountBroker {} quoted
    identified_quoted hnone _ (List.forall_mem_singleton.mpr hwire)
    (List.pairwise_singleton _ _)).mpr ⟨?_, trivial⟩
  intro active prices ha _
  have hstories : ((detected .plain {} (received .plain quoted.store
      (newsRound 0 [("A", "a"), ("B", "b")]).fetched) ["A", "B"] 0).map
        NewsEvent.storyHash).Nodup := by decide +kernel
  have hin : Spares .plain sleeveDataset quoted.store (received .plain quoted.store _) :=
    spares_received hwire (by decide) quoted.store
  obtain rfl := eq_empty_of_no_rows (fun o ho he ↦ hnone o (hin.mem_of_mem ho he) he) ha
  refine ⟨hstories.sublist (((List.take_sublist _ _).trans List.filter_sublist).map _),
    fun ev _ a hm ↦ ?_⟩
  cases hm

/-- Two names on one story, and a name that is closed and opened in one pass. -/
theorem not_calm_one_story : ¬Calm .plain accountBroker {} quoted
      [newsRound 0 [("A", "a"), ("B", "a")]] ∧
    ¬Calm .plain accountBroker {} quoted
      [newsRound 0 [("A", "a")], newsRound (Timedelta.ofDays 5) [("A", "b")]] := by
  constructor
  · intro h
    have h := h.noChurn.once
    revert h
    decide +kernel
  · intro h
    have h := h.noChurn.rested
    revert h
    decide +kernel

end MarketTrader.Runtime.NewsSleeve
