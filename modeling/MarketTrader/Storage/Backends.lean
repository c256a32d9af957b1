import MarketTrader.Storage.SqlAlchemyStore

namespace MarketTrader.Storage

open Library MarketTrader.Core

variable {rows rows' : List Observation} {latest : Bool} {a b o o' : Observation}

/-- The row may be read: with revisions collapsed, no version of its fact is more recent. -/
def Current (latest : Bool) (rows : List Observation) (o : Observation) : Prop :=
  o ∈ rows ∧ (latest → ∀ o' ∈ rows, o'.logicalKey = o.logicalKey → recency o' ≤ recency o)

/-- The order of a read leaves no choice between rows that may be read. -/
def Untied (latest : Bool) (rows : List Observation) : Prop :=
  ∀ a b, Current latest rows a → Current latest rows b → sortKey a = sortKey b → a = b

theorem Current.perm (h : Current latest rows o) (hp : rows.Perm rows') :
    Current latest rows' o := by
  refine ⟨hp.mem_iff.mp h.1, fun hl o' ho' ↦ ?_⟩
  exact h.2 hl o' (hp.mem_iff.mpr ho')

theorem Untied.perm (h : Untied latest rows) (hp : rows.Perm rows') : Untied latest rows' := by
  intro a b ha hb
  exact h a b (ha.perm hp.symm) (hb.perm hp.symm)

theorem sortKey_eq_of_logicalKey (hk : a.logicalKey = b.logicalKey) (hr : recency a = recency b) :
    sortKey a = sortKey b := by
  simp only [Observation.logicalKey, Prod.mk.injEq] at hk
  simp only [recency, toLex_inj, Prod.mk.injEq] at hr
  simp [sortKey, hk, hr]

theorem mem_collapse_perm (h : Untied true rows) (hp : rows.Perm rows')
    (ho : o ∈ collapseLatestRevisions rows) : o ∈ collapseLatestRevisions rows' := by
  have hcur : Current true rows o :=
    ⟨collapse_subset ho, fun _ o' ho' ↦ recency_le_of_mem_collapse ho ho'⟩
  rw [mem_collapse]
  refine firstMax_of_lt (List.mem_filter.mpr ⟨hp.mem_iff.mp hcur.1, by simp⟩) fun o' ho' hne ↦ ?_
  obtain ⟨ho', hk⟩ := List.mem_filter.mp ho'
  have hk := of_decide_eq_true hk
  have ho' := hp.mem_iff.mpr ho'
  refine lt_of_le_of_ne (hcur.2 rfl o' ho' hk) fun he ↦ hne ?_
  -- a tie in recency is a tie in the order of the read
  apply h o' o ⟨ho', fun _ c hc hck ↦ ?_⟩ hcur (sortKey_eq_of_logicalKey hk he)
  rw [he]
  exact hcur.2 rfl c hc (hck.trans hk)

theorem collapse_perm (h : Untied true rows) (hp : rows.Perm rows') :
    (collapseLatestRevisions rows).Perm (collapseLatestRevisions rows') := by
  apply (List.perm_ext_iff_of_nodup (collapse_nodup rows).of_map (collapse_nodup rows').of_map).mpr
  intro o
  exact ⟨mem_collapse_perm h hp, mem_collapse_perm (h.perm hp) hp.symm⟩

theorem finishRead_eq_of_untied (h : Untied latest rows) (hp : rows.Perm rows') :
    finishRead latest rows = finishRead latest rows' := by
  cases latest with
  | false =>
    apply sortBy_eq_of_perm hp
    intro a ha b hb
    exact h a b ⟨ha, by simp⟩ ⟨hb, by simp⟩
  | true =>
    apply sortBy_eq_of_perm (collapse_perm h hp)
    intro a ha b hb
    have hcur : ∀ c ∈ collapseLatestRevisions rows, Current true rows c := fun c hc ↦
      ⟨collapse_subset hc, fun _ o' ho' ↦ recency_le_of_mem_collapse hc ho'⟩
    exact h a b (hcur a ha) (hcur b hb)

theorem mem_finishRead_iff (h : Untied true rows) :
    o ∈ finishRead true rows ↔ Current true rows o := by
  constructor
  · intro ho
    exact ⟨finishRead_subset ho, fun _ o' ho' hk ↦ recency_le_of_mem_finishRead ho ho' hk⟩
  · intro ho
    obtain ⟨w, hw, hk⟩ := exists_mem_finishRead ho.1
    have hcur : Current true rows w :=
      ⟨finishRead_subset hw, fun _ o' ho' hk' ↦ recency_le_of_mem_finishRead hw ho' hk'⟩
    have hr : recency o = recency w :=
      le_antisymm (hcur.2 rfl o ho.1 hk.symm) (ho.2 rfl w hcur.1 hk)
    rwa [h o w ho hcur (sortKey_eq_of_logicalKey hk.symm hr)]

theorem collapse_cons (h : ∀ o' ∈ rows, o'.logicalKey = o.logicalKey → recency o' ≤ recency o) :
    ∃ rest, collapseLatestRevisions (o :: rows) = o :: rest := by
  induction rows using List.reverseRecOn with
  | nil => exact ⟨[], rfl⟩
  | append_singleton rows c ih =>
    obtain ⟨rest, hr⟩ := ih fun o' ho' ↦ h o' (List.mem_append_left _ ho')
    have hc := h c (List.mem_append_right _ (List.mem_singleton_self c))
    unfold collapseLatestRevisions at hr ⊢
    rw [← List.cons_append, champions_append_singleton, contest]
    by_cases hk : c.logicalKey = o.logicalKey
    · have hfind : (champions Observation.logicalKey (fun cur o ↦ decide (recency cur < recency o))
          (o :: rows)).find? c.logicalKey = some o :=
        Keyed.find?_eq_some.mpr ⟨hr ▸ List.mem_cons_self, hk.symm⟩
      rw [hfind]
      simp only [not_lt.mpr (hc hk), decide_false, Bool.false_eq_true, if_false]
      exact ⟨rest, hr⟩
    · have hinsert : ∃ rest', ((champions Observation.logicalKey
          (fun cur o ↦ decide (recency cur < recency o)) (o :: rows)).insert c).toList =
            o :: rest' := by
        rw [Keyed.toList_insert, hr, upsert, if_neg (Ne.symm hk)]
        exact ⟨_, rfl⟩
      split
      · exact hinsert
      · split
        · exact hinsert
        · exact ⟨rest, hr⟩

theorem finishRead_cons (h : Current latest (o :: rows) o) :
    ∃ rest, (finishRead latest (o :: rows)).filter (sortKey · = sortKey o) = o :: rest := by
  rw [finishRead, sortObservations, filter_key_sortBy]
  cases latest with
  | false => exact ⟨_, List.filter_cons_of_pos (by simp)⟩
  | true =>
    obtain ⟨rest, hr⟩ := collapse_cons fun o' ho' ↦ h.2 rfl o' (List.mem_cons_of_mem _ ho')
    rw [if_pos rfl, hr]
    exact ⟨_, List.filter_cons_of_pos (by simp)⟩

/-- A read does not depend on the order of the rows exactly when no two rows that may be read tie
in its order. -/
theorem finishRead_order_iff : (∀ rows', rows'.Perm rows →
    finishRead latest rows' = finishRead latest rows) ↔ Untied latest rows := by
  constructor
  · intro h a b ha hb hab
    have hpa := List.perm_cons_erase ha.1
    have hpb := List.perm_cons_erase hb.1
    obtain ⟨resta, hra⟩ := finishRead_cons (ha.perm hpa)
    obtain ⟨restb, hrb⟩ := finishRead_cons (hb.perm hpb)
    rw [h _ hpa.symm] at hra
    rw [h _ hpb.symm, ← hab] at hrb
    exact (List.cons.inj (hra.symm.trans hrb)).1
  · intro h rows' hp
    exact (finishRead_eq_of_untied h hp.symm).symm

/-- After the same upserts the backends return the same list, whatever order the database yields,
exactly when no two of the selected rows that may be read tie in all six fields of the order. -/
theorem backends_agree_iff (batches : List (List Observation)) (k : Datetime) (q : Query) :
    (∀ read, (SqlAlchemyBitemporalStore.ofUpserts batches).Returns k { q with } read →
      read = InMemoryBitemporalStore.asOf (InMemoryBitemporalStore.ofUpserts batches) k q) ↔
    Untied q.latestRevisionOnly ((InMemoryBitemporalStore.ofUpserts batches).toList.filter
      (fun o ↦ o.knowledgeTime ≤ k ∧ q.Matches o)) := by
  have hselect : (SqlAlchemyBitemporalStore.ofUpserts batches).select k { q with } =
      (InMemoryBitemporalStore.ofUpserts batches).toList.filter
        (fun o ↦ o.knowledgeTime ≤ k ∧ q.Matches o) := by
    rw [SqlAlchemyBitemporalStore.select, table_ofUpserts]
    exact List.filter_congr fun o _ ↦ by simp [SqlQuery.Matches]
  have hread : InMemoryBitemporalStore.asOf (InMemoryBitemporalStore.ofUpserts batches) k q =
      finishRead q.latestRevisionOnly ((InMemoryBitemporalStore.ofUpserts batches).toList.filter
        (fun o ↦ o.knowledgeTime ≤ k ∧ q.Matches o)) := by
    rw [InMemoryBitemporalStore.asOf_eq_finishRead, InMemoryBitemporalStore.visible,
      List.filter_filter]
    exact congrArg _ (List.filter_congr fun o _ ↦ by simp [Bool.and_comm])
  rw [hread, ← finishRead_order_iff]
  constructor
  · intro h rows' hp
    exact h _ ⟨rows', hselect ▸ hp, rfl⟩
  · rintro h read ⟨rows', hp, rfl⟩
    exact h rows' (hselect ▸ hp)

/-- Two filings of one day, which only `ref` tells apart: a database may yield the later one
first. -/
theorem backends_agree_not : ¬∀ (batches : List (List Observation)) (k : Datetime) (q : Query)
    (read : List Observation),
    (SqlAlchemyBitemporalStore.ofUpserts batches).Returns k { q with } read →
      read = InMemoryBitemporalStore.asOf (InMemoryBitemporalStore.ofUpserts batches) k q := by
  intro h
  let filing (ref : String) (id : UUID) : Observation :=
    { source := "edgar", dataset := "filing.form4", entityType := "equity", entityId := "A"
      ref := some ref, eventTime := 0, knowledgeTime := 0, observationId := id }
  have hread := h [[filing "x" 1, filing "y" 2]] 0 {} [filing "y" 2, filing "x" 1]
    ⟨[filing "y" 2, filing "x" 1], by decide, by decide⟩
  revert hread
  decide

end MarketTrader.Storage
