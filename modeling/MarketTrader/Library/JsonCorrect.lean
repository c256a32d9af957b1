import MarketTrader.Library.Json
import Mathlib.Tactic.Common

namespace MarketTrader.Library

/-! ### What the decoder reads denotes what it returns -/

section Sound

variable {s rest : List Char} {v : Json}

theorem exists_spaces (s : List Char) : ∃ w, Spaces w ∧ s = w ++ skipSpaces s :=
  ⟨s.takeWhile isSpace, fun _ hc ↦ List.mem_takeWhile_imp hc, List.takeWhile_append_dropWhile.symm⟩

theorem digits_takeWhile (h : s.takeWhile Char.isDigit ≠ []) : Digits (s.takeWhile Char.isDigit) :=
  ⟨h, fun _ hc ↦ List.mem_takeWhile_imp hc⟩

theorem scanWhole_sound {w : List Char} (h : scanWhole s = some (w, rest)) :
    s = w ++ rest ∧ Digits w ∧ (w.head? = some '0' → w = ['0']) := by
  unfold scanWhole at h
  split at h
  · cases h
    exact ⟨rfl, ⟨by simp, by simp⟩, fun _ ↦ rfl⟩
  · next c t hne =>
    split at h
    · next hc =>
      cases h
      refine ⟨by rw [List.cons_append, List.takeWhile_append_dropWhile], ⟨by simp, ?_⟩, ?_⟩
      · intro x hx
        rcases List.mem_cons.mp hx with rfl | hx
        · exact hc
        · exact List.mem_takeWhile_imp hx
      · intro h₀
        exact absurd (Option.some_inj.mp h₀) hne
    · cases h
  · cases h

theorem scanFrac_sound (s : List Char) : s = (scanFrac s).1 ++ (scanFrac s).2 ∧
    ((scanFrac s).1 = [] ∨ ∃ ds, Digits ds ∧ (scanFrac s).1 = '.' :: ds) := by
  unfold scanFrac
  split
  · next t =>
    split
    · exact ⟨rfl, .inl rfl⟩
    · next hds =>
      exact ⟨by rw [List.cons_append, List.takeWhile_append_dropWhile],
        .inr ⟨_, digits_takeWhile hds, rfl⟩⟩
  · exact ⟨rfl, .inl rfl⟩

theorem scanSign_sound (s : List Char) : s = (scanSign s).1 ++ (scanSign s).2 ∧
    ((scanSign s).1 = [] ∨ (scanSign s).1 = ['+'] ∨ (scanSign s).1 = ['-']) := by
  unfold scanSign
  split
  · exact ⟨rfl, .inr (.inl rfl)⟩
  · exact ⟨rfl, .inr (.inr rfl)⟩
  · exact ⟨rfl, .inl rfl⟩

theorem scanExp_sound (s : List Char) : s = (scanExp s).1 ++ (scanExp s).2 ∧
    ((scanExp s).1 = [] ∨ ∃ e sign ds, (e = 'e' ∨ e = 'E') ∧
      (sign = [] ∨ sign = ['+'] ∨ sign = ['-']) ∧ Digits ds ∧
      (scanExp s).1 = e :: (sign ++ ds)) := by
  unfold scanExp
  split
  · next e t =>
    obtain ⟨ht, hsign⟩ := scanSign_sound t
    split
    · next h =>
      refine ⟨?_, .inr ⟨e, _, _, h.1, hsign, digits_takeWhile h.2, rfl⟩⟩
      rw [List.cons_append, List.append_assoc, List.takeWhile_append_dropWhile, ← ht]
    · exact ⟨rfl, .inl rfl⟩
  · exact ⟨rfl, .inl rfl⟩

theorem scanMinus_sound (s : List Char) :
    s = (if (scanMinus s).1 then ['-'] else []) ++ (scanMinus s).2 := by
  unfold scanMinus
  split <;> rfl

theorem scanNumber_sound {n : Number} (h : scanNumber s = some (n, rest)) :
    s = n.text ++ rest ∧ n.WellFormed := by
  obtain ⟨⟨w, t⟩, hw, he⟩ := Option.map_eq_some_iff.mp h
  obtain ⟨hs, hdigits, hzero⟩ := scanWhole_sound hw
  obtain ⟨hfrac, hfrac'⟩ := scanFrac_sound t
  obtain ⟨hexp, hexp'⟩ := scanExp_sound (scanFrac t).2
  cases he
  refine ⟨?_, ⟨hdigits, hzero⟩, hfrac', hexp'⟩
  dsimp only [Number.text]
  rw [List.append_assoc, List.append_assoc, List.append_assoc, ← hexp, ← hfrac, ← hs]
  exact scanMinus_sound s

theorem scanChars_sound {us : List ℕ} (h : scanChars s = some (us, rest)) :
    ∃ t, s = t ++ '"' :: rest ∧ Chars t us := by
  fun_induction scanChars s generalizing us rest with
  | case1 => cases h
  | case2 t =>
    cases h
    exact ⟨[], rfl, .nil⟩
  | case3 a b c d u _ ih =>
    obtain ⟨n, hn, h⟩ := Option.bind_eq_some_iff.mp h
    obtain ⟨⟨vs, r⟩, hr, h⟩ := Option.bind_eq_some_iff.mp h
    cases h
    obtain ⟨t, rfl, ht⟩ := ih hr
    exact ⟨'\\' :: 'u' :: a :: b :: c :: d :: t, rfl, .unicode hn ht⟩
  | case4 e u _ _ ih =>
    obtain ⟨n, hn, h⟩ := Option.bind_eq_some_iff.mp h
    obtain ⟨⟨vs, r⟩, hr, h⟩ := Option.bind_eq_some_iff.mp h
    cases h
    obtain ⟨t, rfl, ht⟩ := ih hr
    exact ⟨'\\' :: e :: t, rfl, .escape hn ht⟩
  | case5 => cases h
  | case6 => cases h
  | case7 c t hq hb hc ih =>
    obtain ⟨⟨vs, r⟩, hr, h⟩ := Option.bind_eq_some_iff.mp h
    cases h
    obtain ⟨u, rfl, hu⟩ := ih hr
    exact ⟨c :: u, rfl, .plain ⟨not_lt.mp hc, hq, hb⟩ hu⟩

theorem scanAtom_sound {m : ℕ} (h : scanAtom m s = .ok (v, rest)) :
    ∃ t, s = t ++ rest ∧ Atom t v := by
  unfold scanAtom at h
  split at h
  · split at h
    · next hc =>
      cases h
      obtain ⟨t, rfl, ht⟩ := scanChars_sound hc
      exact ⟨'"' :: (t ++ ['"']), by simp, .str ht⟩
    · cases h
  · cases h
    exact ⟨_, rfl, .null⟩
  · cases h
    exact ⟨_, rfl, .yes⟩
  · cases h
    exact ⟨_, rfl, .no⟩
  · cases h
    exact ⟨_, rfl, .const .nan⟩
  · cases h
    exact ⟨_, rfl, .const .infinity⟩
  · cases h
    exact ⟨_, rfl, .const .negInfinity⟩
  · split at h
    · cases h
    · next hn =>
      split at h
      · cases h
      · cases h
        obtain ⟨rfl, hwf⟩ := scanNumber_sound hn
        exact ⟨_, rfl, .num hwf⟩

variable {α : Type} {Item : List Char → α → Prop}
  {item : List Char → Except JsonError (α × List Char)}

theorem Separated.spaces {w t : List Char} {as : List α} (hw : Spaces w)
    (h : Separated Item t as) : Separated Item (w ++ t) as := by
  have happ : ∀ {w' : List Char}, Spaces w' → Spaces (w ++ w') := fun hw' c hc ↦
    (List.mem_append.mp hc).elim (hw c) (hw' c)
  cases h with
  | one hv hs hw' => rw [← List.append_assoc]; exact .one (happ hv) hs hw'
  | cons hv hs hw' ht => rw [← List.append_assoc]; exact .cons (happ hv) hs hw' ht

theorem scanSeparated_sound {close : Char} {fuel : ℕ} {as : List α}
    (hitem : ∀ s a rest, item s = .ok (a, rest) → ∃ t, s = t ++ rest ∧ Item t a)
    (h : scanSeparated item close fuel s = .ok (as, rest)) :
    ∃ t, s = t ++ close :: rest ∧ Separated Item t as := by
  induction fuel generalizing s as rest with
  | zero => cases h
  | succ fuel ih =>
    rw [scanSeparated] at h
    split at h
    · cases h
    · next a u hs =>
      obtain ⟨t, rfl, ht⟩ := hitem s a u hs
      obtain ⟨w, hw, hu⟩ := exists_spaces u
      split at h
      · cases h
      · next c r hr =>
        rw [hr] at hu
        subst hu
        split at h
        · next hc =>
          cases h
          exact ⟨[] ++ (t ++ w), by simp [hc], .one (fun _ hc ↦ absurd hc List.not_mem_nil) ht hw⟩
        · split at h
          · next hc =>
            obtain ⟨⟨as', rest'⟩, hrec, he⟩ := map_eq_ok.mp h
            cases he
            obtain ⟨t', ht', hsep⟩ := ih hrec
            obtain ⟨w', hw', hr'⟩ := exists_spaces r
            rw [ht'] at hr'
            refine ⟨[] ++ (t ++ (w ++ ',' :: (w' ++ t'))), by simp [hc, hr'], ?_⟩
            exact .cons (fun _ hc ↦ absurd hc List.not_mem_nil) ht hw (hsep.spaces hw')
          · cases h

variable {Inner : List Char → Json → Prop} {inner : List Char → Except JsonError (Json × List Char)}
  (hinner : ∀ s v rest, inner s = .ok (v, rest) → ∃ t, s = t ++ rest ∧ Inner t v)

include hinner

theorem scanMember_sound {m : String × Json} (h : scanMember inner s = .ok (m, rest)) :
    ∃ t, s = t ++ rest ∧ Member Inner t m := by
  unfold scanMember at h
  split at h
  · split at h
    · cases h
    · next us u hc =>
      obtain ⟨k, rfl, hk⟩ := scanChars_sound hc
      obtain ⟨w, hw, hu⟩ := exists_spaces u
      split at h
      · next r hr =>
        rw [hr] at hu
        subst hu
        obtain ⟨⟨v, rest'⟩, hv, he⟩ := map_eq_ok.mp h
        cases he
        obtain ⟨t, ht, hin⟩ := hinner _ _ _ hv
        obtain ⟨w', hw', hr'⟩ := exists_spaces r
        rw [ht] at hr'
        refine ⟨'"' :: (k ++ '"' :: (w ++ ':' :: (w' ++ t))), by simp [hr'], .mk hk hw hw' hin⟩
      · cases h
  · cases h

theorem scanArr_sound (h : scanArr inner s = .ok (v, rest)) :
    ∃ t, '[' :: s = t ++ rest ∧ Container Inner t v := by
  obtain ⟨w, hw, hs⟩ := exists_spaces s
  unfold scanArr at h
  split at h
  · next t ht =>
    cases h
    rw [ht] at hs
    exact ⟨'[' :: (w ++ [']']), by simp [hs], .emptyArr hw⟩
  · next t ht =>
    obtain ⟨⟨l, rest'⟩, hl, he⟩ := map_eq_ok.mp h
    cases he
    obtain ⟨u, hu, hsep⟩ := scanSeparated_sound hinner hl
    rw [hu] at hs
    exact ⟨'[' :: (w ++ u ++ [']']), by simp [hs], .arr (hsep.spaces hw)⟩

theorem scanObj_sound (h : scanObj inner s = .ok (v, rest)) :
    ∃ t, '{' :: s = t ++ rest ∧ Container Inner t v := by
  obtain ⟨w, hw, hs⟩ := exists_spaces s
  unfold scanObj at h
  split at h
  · next t ht =>
    cases h
    rw [ht] at hs
    exact ⟨'{' :: (w ++ ['}']), by simp [hs], .emptyObj hw⟩
  · next t ht =>
    obtain ⟨⟨l, rest'⟩, hl, he⟩ := map_eq_ok.mp h
    cases he
    obtain ⟨u, hu, hsep⟩ :=
      scanSeparated_sound (fun s a rest ↦ scanMember_sound hinner) hl
    rw [hu] at hs
    exact ⟨'{' :: (w ++ u ++ ['}']), by simp [hs], .obj (hsep.spaces hw)⟩

omit hinner in
theorem scanOnce_sound {m d : ℕ} (h : scanOnce m d s = .ok (v, rest)) :
    ∃ t, s = t ++ rest ∧ Denotes d t v := by
  induction d generalizing s v rest with
  | zero =>
    unfold scanOnce at h
    split at h
    · cases h
    · cases h
    · exact scanAtom_sound h
  | succ d ih =>
    unfold scanOnce at h
    split at h
    · obtain ⟨t, ht, hc⟩ := scanArr_sound (fun s v rest ↦ ih) h
      exact ⟨t, ht, .inr hc⟩
    · obtain ⟨t, ht, hc⟩ := scanObj_sound (fun s v rest ↦ ih) h
      exact ⟨t, ht, .inr hc⟩
    · obtain ⟨t, ht, ha⟩ := scanAtom_sound h
      exact ⟨t, ht, .inl ha⟩

omit hinner in
theorem loads_sound {m d : ℕ} (h : loads m d s = .ok v) :
    ∃ w t w', Spaces w ∧ Spaces w' ∧ s = w ++ (t ++ w') ∧ Denotes d t v := by
  unfold loads at h
  split at h
  · cases h
  · next rest hscan =>
    split at h
    · next hrest =>
      cases h
      obtain ⟨w, hw, hs⟩ := exists_spaces s
      obtain ⟨t, ht, hden⟩ := scanOnce_sound hscan
      obtain ⟨w', hw', hr⟩ := exists_spaces rest
      rw [hrest, List.append_nil] at hr
      exact ⟨w, t, w', hw, hw', by rw [← hr, ← ht, ← hs], hden⟩
    · cases h

end Sound

/-! ### What denotes a value is read as that value -/

section Complete

variable {s t rest : List Char} {v : Json}

/-- No number goes on here. -/
def Ends (rest : List Char) : Prop :=
  ∀ c ∈ rest.head?, c.isDigit = false ∧ c ≠ '.' ∧ c ≠ 'e' ∧ c ≠ 'E'

theorem Ends.of_cons {c : Char} (h : c.isDigit = false ∧ c ≠ '.' ∧ c ≠ 'e' ∧ c ≠ 'E') :
    Ends (c :: t) := by
  rintro _ ⟨⟩
  exact h

theorem ends_spaces {w : List Char} (hw : Spaces w) (h : Ends t) : Ends (w ++ t) := by
  cases w with
  | nil => exact h
  | cons c w =>
    have hc := hw c List.mem_cons_self
    simp only [isSpace, decide_eq_true_eq] at hc
    apply Ends.of_cons
    rcases hc with rfl | rfl | rfl | rfl <;> decide

theorem takeWhile_digits {ds : List Char} (hd : ∀ c ∈ ds, c.isDigit)
    (h : ∀ c ∈ rest.head?, c.isDigit = false) :
    (ds ++ rest).takeWhile Char.isDigit = ds ∧ (ds ++ rest).dropWhile Char.isDigit = rest := by
  rw [List.takeWhile_append_of_pos hd, List.dropWhile_append_of_pos hd]
  cases rest with
  | nil => simp
  | cons c t =>
    have hc := h c rfl
    simp [hc]

theorem skipSpaces_append {w : List Char} (hw : Spaces w) : skipSpaces (w ++ t) = skipSpaces t :=
  List.dropWhile_append_of_pos hw

/-- A text that a space does not open, nor the end of a list. -/
def Solid (s : List Char) : Prop := ∃ c t, s = c :: t ∧ isSpace c = false ∧ c ≠ ']' ∧ c ≠ '}'

theorem Solid.append (h : Solid s) (t : List Char) : Solid (s ++ t) := by
  obtain ⟨c, u, rfl, hc⟩ := h
  exact ⟨c, u ++ t, rfl, hc⟩

theorem Solid.skipSpaces (h : Solid s) : skipSpaces s = s := by
  obtain ⟨c, t, rfl, hc, -⟩ := h
  rw [Library.skipSpaces, List.dropWhile_cons_of_neg (by simp [hc])]

theorem scanWhole_complete {w : List Char} (hw : Digits w) (hz : w.head? = some '0' → w = ['0'])
    (h : ∀ c ∈ rest.head?, c.isDigit = false) : scanWhole (w ++ rest) = some (w, rest) := by
  obtain ⟨hne, hdigits⟩ := hw
  cases w with
  | nil => exact absurd rfl hne
  | cons c w =>
    by_cases hc : c = '0'
    · subst hc
      cases hz rfl
      rfl
    · obtain ⟨ht, hd⟩ := takeWhile_digits (fun x hx ↦ hdigits x (List.mem_cons_of_mem _ hx)) h
      have hcd := hdigits c List.mem_cons_self
      rw [List.cons_append]
      unfold scanWhole
      split
      · next heq =>
        cases heq
        exact absurd rfl hc
      · next heq =>
        cases heq
        rw [if_pos hcd, ht, hd]
      · next heq => cases heq

theorem scanFrac_complete {frac : List Char}
    (hf : frac = [] ∨ ∃ ds, Digits ds ∧ frac = '.' :: ds)
    (h : ∀ c ∈ rest.head?, c.isDigit = false ∧ c ≠ '.') :
    scanFrac (frac ++ rest) = (frac, rest) := by
  rcases hf with rfl | ⟨ds, ⟨hne, hdigits⟩, rfl⟩
  · unfold scanFrac
    split
    · next t heq =>
      rw [List.nil_append] at heq
      exact absurd rfl (h '.' (by rw [heq]; rfl)).2
    · rfl
  · obtain ⟨ht, hd⟩ := takeWhile_digits hdigits fun c hc ↦ (h c hc).1
    rw [List.cons_append, scanFrac, ht, hd, if_neg hne]

theorem scanSign_complete {sign : List Char} (hs : sign = [] ∨ sign = ['+'] ∨ sign = ['-'])
    (h : ∀ c ∈ t.head?, c.isDigit) : scanSign (sign ++ t) = (sign, t) := by
  rcases hs with rfl | rfl | rfl
  · unfold scanSign
    split
    · next heq => exact absurd (h '+' (by rw [List.nil_append] at heq; rw [heq]; rfl)) (by decide)
    · next heq => exact absurd (h '-' (by rw [List.nil_append] at heq; rw [heq]; rfl)) (by decide)
    · rfl
  · rfl
  · rfl

theorem scanExp_complete {exp : List Char}
    (he : exp = [] ∨ ∃ e sign ds, (e = 'e' ∨ e = 'E') ∧
      (sign = [] ∨ sign = ['+'] ∨ sign = ['-']) ∧ Digits ds ∧ exp = e :: (sign ++ ds))
    (h : Ends rest) : scanExp (exp ++ rest) = (exp, rest) := by
  rcases he with rfl | ⟨e, sign, ds, he, hsign, ⟨hne, hdigits⟩, rfl⟩
  · cases rest with
    | nil => rfl
    | cons e t =>
      obtain ⟨-, -, hle, hue⟩ := h e rfl
      rw [List.nil_append, scanExp, if_neg (by simp [hle, hue])]
  · have hhead : ∀ c ∈ (ds ++ rest).head?, c.isDigit := by
      cases ds with
      | nil => exact absurd rfl hne
      | cons c ds =>
        rintro _ ⟨⟩
        exact hdigits c List.mem_cons_self
    obtain ⟨ht, hd⟩ := takeWhile_digits hdigits fun c hc ↦ (h c hc).1
    rw [List.cons_append, List.append_assoc, scanExp, scanSign_complete hsign hhead, ht, hd,
      if_pos ⟨he, hne⟩]

theorem Number.WellFormed.ends {n : Number} (hn : n.WellFormed) (h : Ends rest) :
    (∀ c ∈ (n.exp ++ rest).head?, c.isDigit = false ∧ c ≠ '.') ∧
      ∀ c ∈ (n.frac ++ (n.exp ++ rest)).head?, c.isDigit = false := by
  have hexp : ∀ c ∈ (n.exp ++ rest).head?, c.isDigit = false ∧ c ≠ '.' := by
    rcases hn.exp with he | ⟨e, sign, ds, he, -, -, hexp⟩
    · rw [he]
      exact fun c hc ↦ ⟨(h c hc).1, (h c hc).2.1⟩
    · rw [hexp]
      rintro _ ⟨⟩
      rcases he with rfl | rfl <;> decide
  refine ⟨hexp, ?_⟩
  rcases hn.frac with hf | ⟨ds, -, hf⟩
  · rw [hf]
    exact fun c hc ↦ (hexp c hc).1
  · rw [hf]
    rintro _ ⟨⟩
    decide

theorem scanNumber_complete {n : Number} (hn : n.WellFormed) (h : Ends rest) :
    scanNumber (n.text ++ rest) = some (n, rest) := by
  obtain ⟨hexp, hfrac⟩ := hn.ends h
  have hminus : scanMinus (n.text ++ rest) = (n.neg, n.whole ++ (n.frac ++ (n.exp ++ rest))) := by
    obtain ⟨⟨⟨hne, hdigits⟩, -⟩, -, -⟩ := hn
    cases hneg : n.neg with
    | true => simp [Number.text, hneg, scanMinus]
    | false =>
      cases hw : n.whole with
      | nil => exact absurd hw hne
      | cons c w =>
        have hc := hdigits c (by rw [hw]; exact List.mem_cons_self)
        simp only [Number.text, hneg, hw, Bool.false_eq_true, if_false, List.nil_append,
          List.cons_append, List.append_assoc, scanMinus]
        split
        · next heq =>
          cases heq
          exact absurd hc (by decide)
        · rfl
  rw [scanNumber, hminus, scanWhole_complete hn.whole.1 hn.whole.2 hfrac]
  simp only [Option.map_some, scanFrac_complete hn.frac hexp, scanExp_complete hn.exp h]

theorem escape?_ne_u {e : Char} {n : ℕ} (h : escape? e = some n) : e ≠ 'u' := by
  rintro rfl
  simp [escape?] at h

theorem scanChars_complete {us : List ℕ} (h : Chars s us) (rest : List Char) :
    scanChars (s ++ '"' :: rest) = some (us, rest) := by
  induction h with
  | nil =>
    rw [List.nil_append, scanChars.eq_def]
    simp
  | plain hc _ ih =>
    obtain ⟨hlow, hq, hb⟩ := hc
    rw [List.cons_append, scanChars.eq_def]
    simp [hq, hb, not_lt.mpr hlow, ih]
  | @escape e n s us he _ ih =>
    have hu := escape?_ne_u he
    rw [List.cons_append, List.cons_append, scanChars.eq_def]
    simp [hu, he, ih]
  | unicode hn _ ih => simp [scanChars, hn, ih]

/-- A result that is the given one, unless a limit of the decoder is in the way. -/
def Settles {α : Type} (r : Except JsonError α) (a : α) : Prop :=
  r = .ok a ∨ r = .error .digits ∨ r = .error .depth

theorem Settles.map {α β : Type} {r : Except JsonError α} {a : α} (h : Settles r a) (f : α → β) :
    Settles (r.map f) (f a) := by
  rcases h with rfl | rfl | rfl
  · exact .inl rfl
  · exact .inr (.inl rfl)
  · exact .inr (.inr rfl)

theorem Settles.eq {α : Type} {r : Except JsonError α} {a b : α} (h : Settles r a)
    (hr : r = .ok b) : a = b := by
  subst hr
  rcases h with h | h | h
  · cases h
    rfl
  · cases h
  · cases h

/-- What opens a number opens no other value. -/
theorem Number.WellFormed.head {n : Number} (hn : n.WellFormed) :
    ∃ c t, n.text = c :: t ∧ (c.isDigit ∨ c = '-' ∧ ∃ d u, t = d :: u ∧ d.isDigit) := by
  obtain ⟨⟨⟨hne, hdigits⟩, -⟩, -, -⟩ := hn
  cases hw : n.whole with
  | nil => exact absurd hw hne
  | cons c w =>
    have hc := hdigits c (by rw [hw]; exact List.mem_cons_self)
    cases hneg : n.neg with
    | true => exact ⟨'-', _, by simp [Number.text, hneg, hw]; rfl, .inr ⟨rfl, c, _, rfl, hc⟩⟩
    | false => exact ⟨c, _, by simp [Number.text, hneg, hw]; rfl, .inl hc⟩

theorem scanAtom_number {m : ℕ} {c : Char}
    (h : c.isDigit ∨ c = '-' ∧ ∃ d u, t = d :: u ∧ d.isDigit) : scanAtom m (c :: t) =
      match scanNumber (c :: t) with
      | none => .error .malformed
      | some (n, rest) =>
        if n.frac = [] ∧ n.exp = [] ∧ m < n.whole.length then .error .digits
        else .ok (.num n, rest) := by
  have hopen : ∀ x ∈ ['"', 'n', 't', 'f', 'N', 'I'], x.isDigit = false ∧ x ≠ '-' := by
    simp only [List.mem_cons, List.not_mem_nil, or_false, forall_eq_or_imp, forall_eq]
    decide
  have hother : ∀ x ∈ ['"', 'n', 't', 'f', 'N', 'I'], c ≠ x := by
    rintro x hx rfl
    obtain ⟨hd, hm⟩ := hopen c hx
    rcases h with h | ⟨h, -⟩
    · rw [hd] at h
      cases h
    · exact hm h
  unfold scanAtom
  split
  · next heq => cases heq; exact absurd rfl (hother '"' (by decide))
  · next heq => cases heq; exact absurd rfl (hother 'n' (by decide))
  · next heq => cases heq; exact absurd rfl (hother 't' (by decide))
  · next heq => cases heq; exact absurd rfl (hother 'f' (by decide))
  · next heq => cases heq; exact absurd rfl (hother 'N' (by decide))
  · next heq => cases heq; exact absurd rfl (hother 'I' (by decide))
  · next heq =>
    cases heq
    rcases h with h | ⟨-, d, u, hu, hd⟩
    · exact absurd h (by decide)
    · cases hu
      exact absurd hd (by decide)
  · rfl

theorem scanAtom_complete {m : ℕ} (h : Atom t v) (hr : Ends rest) :
    Settles (scanAtom m (t ++ rest)) (v, rest) := by
  cases h with
  | null => exact .inl rfl
  | yes => exact .inl rfl
  | no => exact .inl rfl
  | const c => cases c <;> exact .inl rfl
  | num hn =>
    obtain ⟨c, t, ht, hc⟩ := hn.head
    have hscan := scanNumber_complete hn hr
    rw [ht, List.cons_append] at hscan ⊢
    rw [scanAtom_number (hc.imp_right fun ⟨hm, d, u, hu, hd⟩ ↦
      ⟨hm, d, u ++ rest, by rw [hu]; rfl, hd⟩), hscan]
    dsimp only
    split
    · exact .inr (.inl rfl)
    · exact .inl rfl
  | @str s us hs =>
    have hscan := scanChars_complete hs rest
    left
    rw [List.cons_append, List.append_assoc, List.singleton_append, scanAtom, hscan]

theorem Atom.solid (h : Atom t v) : Solid t ∧ ∀ c u, t = c :: u → c ≠ '[' ∧ c ≠ '{' := by
  have hfirst : ∀ c u, (isSpace c = false ∧ c ≠ ']' ∧ c ≠ '}') ∧ c ≠ '[' ∧ c ≠ '{' →
      Solid (c :: u) ∧ ∀ c' u', c :: u = c' :: u' → c' ≠ '[' ∧ c' ≠ '{' := by
    rintro c u ⟨hs, ho⟩
    refine ⟨⟨c, u, rfl, hs⟩, ?_⟩
    rintro _ _ ⟨⟩
    exact ho
  cases h with
  | null => exact hfirst _ _ (by decide)
  | yes => exact hfirst _ _ (by decide)
  | no => exact hfirst _ _ (by decide)
  | const c => cases c <;> exact hfirst _ _ (by decide)
  | str hs => exact hfirst _ _ (by decide)
  | num hn =>
    obtain ⟨c, u, ht, hc⟩ := hn.head
    rw [ht]
    apply hfirst
    rcases hc with hc | ⟨rfl, -⟩
    · have hout : ∀ x ∈ [' ', '\t', '\n', '\r', ']', '}', '[', '{'], c ≠ x := by
        rintro x hx rfl
        have hall : ∀ x ∈ [' ', '\t', '\n', '\r', ']', '}', '[', '{'], x.isDigit = false := by
          simp only [List.mem_cons, List.not_mem_nil, or_false, forall_eq_or_imp, forall_eq]
          decide
        rw [hall c hx] at hc
        cases hc
      simp only [List.mem_cons, List.not_mem_nil, or_false, forall_eq_or_imp, forall_eq] at hout
      simp [isSpace, hout]
    · decide

theorem Container.solid {Inner : List Char → Json → Prop} (h : Container Inner t v) : Solid t := by
  cases h <;> exact ⟨_, _, rfl, by decide⟩

theorem Denotes.solid {d : ℕ} (h : Denotes d t v) : Solid t := by
  cases d with
  | zero => exact (Atom.solid h).1
  | succ d => exact h.elim (fun ha ↦ ha.solid.1) Container.solid

section Separated

variable {α : Type} {Item : List Char → α → Prop} {as : List α}
  {item : List Char → Except JsonError (α × List Char)} {close : Char} {m : ℕ}
  (hsolid : ∀ s a, Item s a → Solid s)

include hsolid

theorem Separated.solid (h : Separated Item t as) : Solid (skipSpaces t) := by
  cases h with
  | one hw hs _ =>
    rw [skipSpaces_append hw, ((hsolid _ _ hs).append _).skipSpaces]
    exact (hsolid _ _ hs).append _
  | cons hw hs _ _ =>
    rw [skipSpaces_append hw, ((hsolid _ _ hs).append _).skipSpaces]
    exact (hsolid _ _ hs).append _

theorem Separated.skipSpaces_append (h : Separated Item t as) (u : List Char) :
    skipSpaces (t ++ u) = skipSpaces t ++ u := by
  cases h with
  | one hw hs _ =>
    have hs := hsolid _ _ hs
    rw [List.append_assoc, List.append_assoc, Library.skipSpaces_append hw,
      (hs.append _).skipSpaces, Library.skipSpaces_append hw, (hs.append _).skipSpaces,
      List.append_assoc]
  | cons hw hs _ _ =>
    have hs := hsolid _ _ hs
    rw [List.append_assoc, List.append_assoc, Library.skipSpaces_append hw,
      (hs.append _).skipSpaces, Library.skipSpaces_append hw, (hs.append _).skipSpaces]
    simp

theorem Separated.length_le (h : Separated Item t as) : as.length ≤ (skipSpaces t).length := by
  induction h with
  | one hw hs hw' =>
    obtain ⟨c, u, hu, -⟩ := (Separated.one hw hs hw').solid hsolid
    rw [hu]
    simp
  | @cons w s w' a t as hw hs _ _ ih =>
    have hlen := ih.trans (List.length_dropWhile_le isSpace t)
    obtain ⟨c, u, rfl, -⟩ := hsolid _ _ hs
    rw [Library.skipSpaces_append hw, ((hsolid _ _ hs).append _).skipSpaces]
    simp only [List.length_cons, List.length_append]
    omega

theorem scanSeparated_complete
    (hitem : ∀ s a rest, Item s a → Ends rest → Settles (item (s ++ rest)) (a, rest))
    (hclose : isSpace close = false ∧ close ≠ ',' ∧ ∀ rest, Ends (close :: rest))
    (h : Separated Item t as) {fuel : ℕ} (hf : as.length ≤ fuel) :
    Settles (scanSeparated item close fuel (skipSpaces t ++ close :: rest)) (as, rest) := by
  obtain ⟨hspace, hcomma, hends⟩ := hclose
  induction h generalizing fuel with
  | @one w s w' a hw hs hw' =>
    obtain ⟨fuel, rfl⟩ := Nat.exists_eq_add_of_lt hf
    rw [Library.skipSpaces_append hw, ((hsolid _ _ hs).append _).skipSpaces, List.append_assoc]
    have hskip : skipSpaces (w' ++ close :: rest) = close :: rest := by
      rw [Library.skipSpaces_append hw', skipSpaces, List.dropWhile_cons_of_neg (by simp [hspace])]
    rcases hitem s a _ hs (ends_spaces hw' (hends rest)) with h | h | h
    · left
      simp [scanSeparated, h, hskip]
    · right; left
      simp [scanSeparated, h]
    · right; right
      simp [scanSeparated, h]
  | @cons w s w' a t as hw hs hw' ht ih =>
    obtain ⟨fuel, rfl⟩ := Nat.exists_eq_add_of_lt hf
    rw [Library.skipSpaces_append hw, ((hsolid _ _ hs).append _).skipSpaces, List.append_assoc,
      List.append_assoc, List.cons_append]
    have hskip : skipSpaces (w' ++ ',' :: (t ++ close :: rest)) = ',' :: (t ++ close :: rest) := by
      rw [Library.skipSpaces_append hw']
      rfl
    have hrec : Settles (scanSeparated item close (as.length + fuel)
        (skipSpaces (t ++ close :: rest))) (as, rest) := by
      rw [Separated.skipSpaces_append hsolid ht]
      exact ih (Nat.le_add_right _ _)
    have hnext : Ends (',' :: (t ++ close :: rest)) := Ends.of_cons (by decide)
    rcases hitem s a _ hs (ends_spaces hw' hnext) with h | h | h
    · have hmap := hrec.map fun p : List α × List Char ↦ (a :: p.1, p.2)
      simpa [scanSeparated, h, hskip, hcomma.symm] using hmap
    · right; left
      simp [scanSeparated, h]
    · right; right
      simp [scanSeparated, h]

end Separated

section Container

variable {Inner : List Char → Json → Prop} {inner : List Char → Except JsonError (Json × List Char)}
  (hsolid : ∀ s v, Inner s v → Solid s)
  (hinner : ∀ s v rest, Inner s v → Ends rest → Settles (inner (s ++ rest)) (v, rest))

theorem scanArr_of_solid (h : Solid (skipSpaces s)) : scanArr inner s =
    (scanSeparated inner ']' (skipSpaces s).length (skipSpaces s)).map fun p ↦ (.arr p.1, p.2) := by
  obtain ⟨c, u, hu, -, hc, -⟩ := h
  unfold scanArr
  split
  · next heq =>
    rw [hu] at heq
    cases heq
    exact absurd rfl hc
  · rfl

theorem scanObj_of_solid (h : Solid (skipSpaces s)) : scanObj inner s =
    (scanSeparated (scanMember inner) '}' (skipSpaces s).length (skipSpaces s)).map
      fun p ↦ (.obj p.1, p.2) := by
  obtain ⟨c, u, hu, -, -, hc⟩ := h
  unfold scanObj
  split
  · next heq =>
    rw [hu] at heq
    cases heq
    exact absurd rfl hc
  · rfl

theorem Member.solid {m : String × Json} (h : Member Inner t m) : Solid t := by
  cases h
  exact ⟨_, _, rfl, by decide⟩

include hsolid hinner

theorem scanMember_complete {m : String × Json} (h : Member Inner t m) (hr : Ends rest) :
    Settles (scanMember inner (t ++ rest)) (m, rest) := by
  cases h with
  | @mk k us w w' s v hk hw hw' hs =>
    have hscan := scanChars_complete hk (w ++ ':' :: (w' ++ (s ++ rest)))
    have hcolon : skipSpaces (w ++ ':' :: (w' ++ (s ++ rest))) = ':' :: (w' ++ (s ++ rest)) := by
      rw [skipSpaces_append hw]
      rfl
    have hvalue : skipSpaces (w' ++ (s ++ rest)) = s ++ rest := by
      rw [skipSpaces_append hw', ((hsolid s v hs).append rest).skipSpaces]
    have hmap := (hinner s v rest hs hr).map fun p : Json × List Char ↦ ((stringOf us, p.1), p.2)
    simpa [scanMember, hscan, hcolon, hvalue] using hmap

theorem scanContainer_complete (h : Container Inner t v) (rest : List Char) :
    (∃ u, t = '[' :: u ∧ Settles (scanArr inner (u ++ rest)) (v, rest)) ∨
      ∃ u, t = '{' :: u ∧ Settles (scanObj inner (u ++ rest)) (v, rest) := by
  cases h with
  | @emptyArr w hw =>
    refine .inl ⟨_, rfl, .inl ?_⟩
    have hskip : skipSpaces (w ++ ']' :: rest) = ']' :: rest := by
      rw [skipSpaces_append hw]
      rfl
    rw [List.append_assoc, List.singleton_append, scanArr, hskip]
    rfl
  | @emptyObj w hw =>
    refine .inr ⟨_, rfl, .inl ?_⟩
    have hskip : skipSpaces (w ++ '}' :: rest) = '}' :: rest := by
      rw [skipSpaces_append hw]
      rfl
    rw [List.append_assoc, List.singleton_append, scanObj, hskip]
    rfl
  | @arr s l hs =>
    refine .inl ⟨_, rfl, ?_⟩
    have hskip := hs.skipSpaces_append hsolid (']' :: rest)
    have hsol : Solid (skipSpaces (s ++ ']' :: rest)) := by
      rw [hskip]
      exact (hs.solid hsolid).append _
    rw [List.append_assoc, List.singleton_append, scanArr_of_solid hsol, hskip]
    have hlen : l.length ≤ (skipSpaces s ++ ']' :: rest).length := by
      rw [List.length_append]
      exact (hs.length_le hsolid).trans (Nat.le_add_right _ _)
    exact (scanSeparated_complete hsolid hinner
      ⟨by decide, by decide, fun _ ↦ Ends.of_cons (by decide)⟩ hs hlen).map
      fun p : List Json × List Char ↦ (Json.arr p.1, p.2)
  | @obj s l hs =>
    refine .inr ⟨_, rfl, ?_⟩
    have hmember : ∀ s m, Member Inner s m → Solid s := fun _ _ ↦ Member.solid
    have hskip := hs.skipSpaces_append hmember ('}' :: rest)
    have hsol : Solid (skipSpaces (s ++ '}' :: rest)) := by
      rw [hskip]
      exact (hs.solid hmember).append _
    rw [List.append_assoc, List.singleton_append, scanObj_of_solid hsol, hskip]
    have hlen : l.length ≤ (skipSpaces s ++ '}' :: rest).length := by
      rw [List.length_append]
      exact (hs.length_le hmember).trans (Nat.le_add_right _ _)
    exact (scanSeparated_complete hmember
      (fun _ _ _ ↦ scanMember_complete hsolid hinner)
      ⟨by decide, by decide, fun _ ↦ Ends.of_cons (by decide)⟩ hs hlen).map
      fun p : List (String × Json) × List Char ↦ (Json.obj p.1, p.2)

end Container

theorem scanOnce_atom {m d : ℕ} (h : ∀ c u, s = c :: u → c ≠ '[' ∧ c ≠ '{') :
    scanOnce m d s = scanAtom m s := by
  cases d with
  | zero =>
    unfold scanOnce
    split
    · exact absurd rfl (h _ _ rfl).1
    · exact absurd rfl (h _ _ rfl).2
    · rfl
  | succ d =>
    unfold scanOnce
    split
    · exact absurd rfl (h _ _ rfl).1
    · exact absurd rfl (h _ _ rfl).2
    · rfl

theorem scanOnce_complete {m d : ℕ} (h : Denotes d t v) (hr : Ends rest) (limit : ℕ) :
    Settles (scanOnce m limit (t ++ rest)) (v, rest) := by
  have hatom : ∀ {t v rest}, Atom t v → Ends rest → ∀ limit,
      Settles (scanOnce m limit (t ++ rest)) (v, rest) := by
    intro t v rest h hr limit
    obtain ⟨⟨c, u, rfl, -⟩, hopen⟩ := h.solid
    rw [scanOnce_atom]
    · exact scanAtom_complete h hr
    · rintro c' u' heq
      cases heq
      exact hopen c u rfl
  induction d generalizing t v rest limit with
  | zero => exact hatom h hr limit
  | succ d ih =>
    rcases h with h | h
    · exact hatom h hr limit
    · cases limit with
      | zero =>
        right; right
        cases h <;> rfl
      | succ limit =>
        have hinner : ∀ s v rest, Denotes d s v → Ends rest →
            Settles (scanOnce m limit (s ++ rest)) (v, rest) := fun _ _ _ h hr ↦ ih h hr limit
        rcases scanContainer_complete (fun _ _ ↦ Denotes.solid) hinner h rest
          with ⟨u, rfl, hu⟩ | ⟨u, rfl, hu⟩
        · exact hu
        · exact hu

theorem loads_complete {m d : ℕ} (hv : Denotes d t v) {w w' : List Char} (hw : Spaces w)
    (hw' : Spaces w') (limit : ℕ) : Settles (loads m limit (w ++ (t ++ w'))) v := by
  have hends : Ends w' := by
    have := ends_spaces (t := []) hw' (by simp [Ends])
    rwa [List.append_nil] at this
  have hrest : skipSpaces w' = [] := by
    have := skipSpaces_append (t := []) hw'
    rwa [List.append_nil] at this
  rw [loads, skipSpaces_append hw, (hv.solid.append w').skipSpaces]
  rcases scanOnce_complete (m := m) hv hends limit with h | h | h
  · rw [h]
    dsimp only
    rw [if_pos hrest]
    exact .inl rfl
  · rw [h]
    exact .inr (.inl rfl)
  · rw [h]
    exact .inr (.inr rfl)

end Complete

end MarketTrader.Library
