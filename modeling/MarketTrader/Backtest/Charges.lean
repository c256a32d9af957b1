import MarketTrader.Backtest.LookAhead
import MarketTrader.Backtest.Replay
import Mathlib.Tactic.Ring

namespace MarketTrader.Backtest

open Library MarketTrader.Core Storage InMemoryBitemporalStore Portfolio

/-- A book, when it is decided, and the time up to which it is held. -/
structure Holding where
  t : Datetime
  tNext : Datetime
  book : Weights

/-- A holding and what the change to its book costs. -/
structure Charge extends Holding where
  amount : ℚ

/-- The cost of a change from one book to another that is held from `t` to `tNext`. -/
abbrev Fee := Weights → Weights → Datetime → Datetime → ℚ

def heldTo (last : Datetime) (rest : List (Datetime × Weights)) : Datetime :=
  (rest.head?.map Prod.fst).getD last

def holdings (last : Datetime) : List (Datetime × Weights) → List Holding
  | [] => []
  | (t, w) :: rest => ⟨t, heldTo last rest, w⟩ :: holdings last rest

/-- What a run of rebalances owes. -/
def charges (fee : Fee) (last : Datetime) : Weights → List (Datetime × Weights) → List Charge
  | _, [] => []
  | prev, (t, w) :: rest =>
    ⟨⟨t, heldTo last rest, w⟩, fee prev w t (heldTo last rest)⟩ :: charges fee last w rest

def total (cs : List Charge) : ℚ := (cs.map Charge.amount).sum

def Holding.Held (index : List Datetime) (h : Holding) : Prop := window index h.t h.tNext ≠ []

instance (index : List Datetime) (h : Holding) : Decidable (h.Held index) :=
  inferInstanceAs (Decidable (_ ≠ _))

variable {fee : Fee} {last bar : Datetime} {prev : Weights} {books : List (Datetime × Weights)}
  {index : List Datetime} {h : Holding}

theorem mem_window {t tNext : Datetime} :
    bar ∈ window index t tNext ↔ bar ∈ index ∧ t < bar ∧ bar ≤ tNext := by
  simp [window]

theorem Holding.Held.lt (hh : h.Held index) (hl : ∀ bar ∈ index, bar ≤ last) : h.t < last := by
  obtain ⟨bar, hb⟩ := List.exists_mem_of_ne_nil _ hh
  obtain ⟨hb, hlt, -⟩ := mem_window.mp hb
  exact hlt.trans_le (hl bar hb)

theorem mem_books_of_mem_holdings (hh : h ∈ holdings last books) : (h.t, h.book) ∈ books := by
  induction books with
  | nil => cases hh
  | cons b rest ih =>
    rw [holdings, List.mem_cons] at hh
    rcases hh with rfl | hh
    · exact List.mem_cons_self
    · exact List.mem_cons_of_mem _ (ih hh)

theorem map_toHolding_charges (fee : Fee) (last : Datetime) (prev : Weights)
    (books : List (Datetime × Weights)) :
    (charges fee last prev books).map Charge.toHolding = holdings last books := by
  induction books generalizing prev with
  | nil => rfl
  | cons b rest ih => exact congrArg (_ :: ·) (ih b.2)

theorem charges_const (hf : ∀ p w t tNext, fee p w t tNext = 1) :
    ∀ c ∈ charges fee last prev books, c.amount = 1 := by
  induction books generalizing prev with
  | nil => simp [charges]
  | cons b rest ih =>
    rw [charges, List.forall_mem_cons]
    exact ⟨hf _ _ _ _, ih⟩

/-- Where each charge is one, two totals agree when every charge of the larger selection is in the
smaller one. -/
theorem total_filter_eq {cs : List Charge} {p q : Charge → Bool} (hone : ∀ c ∈ cs, c.amount = 1)
    (hpq : ∀ c ∈ cs, p c → q c) :
    total (cs.filter p) = total (cs.filter q) ↔ ∀ c ∈ cs, q c → p c := by
  have hcount : ∀ p : Charge → Bool, total (cs.filter p) = (cs.countP p : ℚ) := by
    intro p
    have hmap : (cs.filter p).map Charge.amount = (cs.filter p).map (fun _ ↦ (1 : ℚ)) := by
      apply List.map_congr_left
      intro c hc
      exact hone c (List.mem_of_mem_filter hc)
    rw [total, hmap, List.map_const', List.sum_replicate, nsmul_eq_mul, mul_one,
      List.countP_eq_length_filter]
  rw [hcount, hcount, Nat.cast_inj]
  clear hcount hone
  induction cs with
  | nil => simp
  | cons c cs ih =>
    rw [List.forall_mem_cons] at hpq
    have ih := ih hpq.2
    have hle : cs.countP p ≤ cs.countP q := List.countP_mono_left hpq.2
    rw [List.forall_mem_cons, List.countP_cons, List.countP_cons]
    constructor
    · intro he
      have hq : q c → p c := by
        intro hq
        by_contra hp
        simp only [hp, hq, if_true, if_false] at he
        omega
      have hpq' : p c = q c := Bool.eq_iff_iff.mpr ⟨hpq.1, hq⟩
      rw [hpq'] at he
      exact ⟨hq, ih.mp (by omega)⟩
    · rintro ⟨hc, hrest⟩
      have hpq' : p c = q c := Bool.eq_iff_iff.mpr ⟨hpq.1, hc⟩
      rw [hpq', ih.mpr hrest]

variable (last prev books) in
/-- Whatever the fees, what is charged is what is owed exactly when the made charges are all the
charges from before the last bar. -/
theorem charged_eq_owed_iff {M : Type} (fee : M → Fee) (m₁ : M)
    (hone : ∀ p w t tNext, fee m₁ p w t tNext = 1) (made : Holding → Bool)
    (hmade : ∀ h ∈ holdings last books, made h → h.t < last) :
    (∀ m, total ((charges (fee m) last prev books).filter (fun c ↦ made c.toHolding)) =
      total ((charges (fee m) last prev books).filter (·.t < last))) ↔
      ∀ h ∈ holdings last books, h.t < last → made h := by
  have hmem : ∀ m, ∀ c ∈ charges (fee m) last prev books, c.toHolding ∈ holdings last books := by
    intro m c hc
    rw [← map_toHolding_charges (fee m) last prev books]
    exact List.mem_map_of_mem hc
  constructor
  · intro htotal h hh hlt
    rw [← map_toHolding_charges (fee m₁) last prev books] at hh
    obtain ⟨c, hc, rfl⟩ := List.mem_map.mp hh
    have hall := (total_filter_eq (q := fun c ↦ decide (c.t < last))
      (p := fun c ↦ made c.toHolding) (charges_const hone)
      (fun c hc hm ↦ decide_eq_true (hmade _ (hmem m₁ c hc) hm))).mp (htotal m₁)
    exact hall c hc (decide_eq_true hlt)
  · intro hall m
    congr 1
    apply List.filter_congr
    intro c hc
    rw [Bool.eq_iff_iff, decide_eq_true_eq]
    exact ⟨hmade _ (hmem m c hc), hall _ (hmem m c hc)⟩

/-! ### Every bar in one holding period -/

theorem filter_append_filter {l : List Datetime} (hs : l.Pairwise (· < ·)) {t t' : Datetime}
    (ht : t ≤ t') : l.filter (fun bar ↦ t < bar ∧ bar ≤ t') ++ l.filter (t' < ·) =
      l.filter (t < ·) := by
  induction l with
  | nil => rfl
  | cons a l ih =>
    rw [List.pairwise_cons] at hs
    have ih := ih hs.2
    by_cases ha : a ≤ t'
    · rw [List.filter_cons_of_neg (by simpa using ha) (p := (decide <| t' < ·))]
      by_cases hta : t < a
      · rw [List.filter_cons_of_pos (by simp [hta, ha]),
          List.filter_cons_of_pos (by simpa using hta),
          List.cons_append, ih]
      · rw [List.filter_cons_of_neg (by simp [hta]),
          List.filter_cons_of_neg (by simpa using hta), ih]
    · have hlt := not_le.mp ha
      have hnil : (a :: l).filter (fun bar ↦ t < bar ∧ bar ≤ t') = [] := by
        rw [List.filter_eq_nil_iff]
        intro bar hb hle
        have hle := (of_decide_eq_true hle).2
        rcases List.mem_cons.mp hb with rfl | hb
        · exact ha hle
        · exact ha ((hs.1 bar hb).le.trans hle)
      rw [hnil, List.nil_append]
      apply List.filter_congr
      intro bar hb
      have hbar : t' < bar := by
        rcases List.mem_cons.mp hb with rfl | hb
        · exact hlt
        · exact hlt.trans (hs.1 bar hb)
      rw [decide_eq_true hbar, decide_eq_true (ht.trans_lt hbar)]

/-- The holding periods divide the bars after the first rebalance among them. -/
theorem flatMap_window (hi : index.Pairwise (· < ·)) (hl : ∀ bar ∈ index, bar ≤ last)
    (hs : (books.map Prod.fst).Pairwise (· ≤ ·)) :
    (holdings last books).flatMap (fun h ↦ window index h.t h.tNext) =
      index.filter (fun bar ↦ ∃ b ∈ books, b.1 < bar) := by
  induction books with
  | nil => simp [holdings]
  | cons b rest ih =>
    rw [List.map_cons, List.pairwise_cons] at hs
    rw [holdings, List.flatMap_cons, ih hs.2]
    have hfirst : index.filter (fun bar ↦ ∃ b' ∈ b :: rest, b'.1 < bar) =
        index.filter (b.1 < ·) := by
      apply List.filter_congr
      intro bar _
      rw [Bool.eq_iff_iff, decide_eq_true_eq, decide_eq_true_eq]
      constructor
      · rintro ⟨b', hb', hlt⟩
        rcases List.mem_cons.mp hb' with rfl | hb'
        · exact hlt
        · exact (hs.1 _ (List.mem_map_of_mem hb')).trans_lt hlt
      · exact fun hlt ↦ ⟨b, List.mem_cons_self, hlt⟩
    rw [hfirst]
    cases rest with
    | nil =>
      simp only [List.not_mem_nil, false_and, exists_false, decide_false, List.filter_false,
        List.append_nil, heldTo, List.head?_nil, Option.map_none, Option.getD_none, window]
      apply List.filter_congr
      intro bar hb
      simp [hl bar hb]
    | cons b' rest =>
      have hle : b.1 ≤ b'.1 := hs.1 _ (List.mem_map_of_mem List.mem_cons_self)
      have hlater : index.filter (fun bar ↦ ∃ b'' ∈ b' :: rest, b''.1 < bar) =
          index.filter (b'.1 < ·) := by
        apply List.filter_congr
        intro bar _
        rw [Bool.eq_iff_iff, decide_eq_true_eq, decide_eq_true_eq]
        rw [List.map_cons, List.pairwise_cons] at hs
        constructor
        · rintro ⟨b'', hb'', hlt⟩
          rcases List.mem_cons.mp hb'' with rfl | hb''
          · exact hlt
          · exact (hs.2.1 _ (List.mem_map_of_mem hb'')).trans_lt hlt
        · exact fun hlt ↦ ⟨b', List.mem_cons_self, hlt⟩
      rw [hlater]
      exact filter_append_filter hi hle

/-- The book in force on a bar: that of the last rebalance before it. -/
def bookInForce (books : List (Datetime × Weights)) (bar : Datetime) : Weights :=
  ((books.filter (·.1 < bar)).getLast?.map Prod.snd).getD .empty

theorem bookInForce_of_held (hs : (books.map Prod.fst).Pairwise (· ≤ ·))
    (hh : h ∈ holdings last books) (hb : bar ∈ window index h.t h.tNext) :
    bookInForce books bar = h.book := by
  obtain ⟨-, hlt, hle⟩ := mem_window.mp hb
  induction books with
  | nil => cases hh
  | cons b rest ih =>
    rw [List.map_cons, List.pairwise_cons] at hs
    rw [holdings, List.mem_cons] at hh
    rcases hh with rfl | hh
    · have hnil : rest.filter (·.1 < bar) = [] := by
        rw [List.filter_eq_nil_iff]
        intro b' hb' hlt'
        cases rest with
        | nil => cases hb'
        | cons b'' rest =>
          rw [List.map_cons, List.pairwise_cons] at hs
          have hmin : b''.1 ≤ b'.1 := by
            rcases List.mem_cons.mp hb' with rfl | hb'
            · exact le_rfl
            · exact hs.2.1 _ (List.mem_map_of_mem hb')
          exact absurd (hle.trans hmin) (not_le.mpr (of_decide_eq_true hlt'))
      rw [bookInForce, List.filter_cons_of_pos (by simpa using hlt), hnil]
      rfl
    · have hm := mem_books_of_mem_holdings hh
      have hlater : b.1 < bar := (hs.1 _ (List.mem_map_of_mem hm)).trans_lt hlt
      have ih := ih hs.2 hh
      unfold bookInForce at ih ⊢
      rw [List.filter_cons_of_pos (by simpa using hlater)]
      have hne : rest.filter (·.1 < bar) ≠ [] :=
        List.ne_nil_of_mem (List.mem_filter.mpr ⟨hm, by simpa using hlt⟩)
      obtain ⟨a, l, hal⟩ := List.exists_cons_of_ne_nil hne
      rw [hal, List.getLast?_cons_cons, ← hal]
      exact ih

end MarketTrader.Backtest
