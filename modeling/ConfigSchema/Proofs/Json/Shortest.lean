import ConfigSchema.Json.Shortest
import ConfigSchema.Proofs.Json.Binary64
import ConfigSchema.Proofs.Json.Numeral

/-!
# Numbers are read back

What `shortest` chooses reads back as the magnitude that it is chosen for (`rank?_shortest`): a
neighbour is taken only when it does, and the exact expansion always does. However the decimal is
then laid out, its text is the spelling of a decimal of the same value
(`Decimal.exists_spelling`). So a number of any kind is read back from its text
(`Number.read_chars`).
-/

namespace ConfigSchema

namespace Binary64

variable {rank : Fin magnitudes} {d : Decimal}

theorem rank?_of_neighbour {exact length count : Nat}
    (h : neighbour? rank exact length count = some d) : d.rank? = some rank := by
  unfold neighbour? at h
  dsimp only at h
  split at h
  · next hbelow habove =>
    cases h
    split
    · exact of_decide_eq_true hbelow
    · exact of_decide_eq_true habove
  · next hbelow _ => cases h; exact of_decide_eq_true hbelow
  · next _ habove => cases h; exact of_decide_eq_true habove
  · cases h

theorem units_pos (h : rank.val ≠ 0) : 0 < units rank := by
  unfold units significand
  rw [Nat.shiftLeft_eq]
  refine Nat.mul_pos ?_ (Nat.two_pow_pos _)
  split
  · exact Nat.pos_of_ne_zero h
  · exact Nat.add_pos_left (by decide) _

theorem units_lt {limit : Nat} (h : scale rank ≤ limit) :
    units rank < Nat.pow 2 (53 + limit) := by
  have hsignificand : significand rank < 2 ^ 53 := by
    have hmod : rank.val % 2 ^ 52 < 2 ^ 52 := Nat.mod_lt _ (by decide)
    show (if rank.val < 2 ^ 52 then rank.val else 2 ^ 52 + rank.val % 2 ^ 52) < 2 ^ 53
    split <;> omega
  unfold units
  rw [Nat.shiftLeft_eq]
  calc significand rank * 2 ^ scale rank
      < 2 ^ 53 * 2 ^ scale rank := Nat.mul_lt_mul_of_pos_right hsignificand (Nat.two_pow_pos _)
    _ = 2 ^ (53 + scale rank) := (Nat.pow_add ..).symm
    _ ≤ Nat.pow 2 (53 + limit) := Nat.pow_le_pow_right (by decide) (Nat.add_le_add_left h 53)

/-- The exact expansion has as many digits before the point as a finite magnitude can have. -/
theorem point_exact (h : rank.val ≠ 0) :
    -324 < (⟨exactDigits rank, -1074⟩ : Decimal).point ∧
      (⟨exactDigits rank, -1074⟩ : Decimal).point < 310 := by
  have hrank : rank.val < 2047 * 2 ^ 52 := rank.isLt
  have hscale : scale rank ≤ 2045 := by
    show rank.val / 2 ^ 52 - 1 ≤ 2045
    omega
  have hpos := units_pos h
  have hlt := units_lt hscale
  show -324 < ((Nat.toDigits 10 (exactDigits rank)).length : Int) + -1074 ∧
    ((Nat.toDigits 10 (exactDigits rank)).length : Int) + -1074 < 310
  unfold exactDigits
  -- the powers are too large for all but the kernel
  generalize hpower : Nat.pow 5 1074 = power
  have hpos' : 0 < power := by rw [← hpower]; decide +kernel
  have hmany (count : Nat) (hle : Nat.pow 10 count ≤ power) :
      count < (Nat.toDigits 10 (units rank * power)).length :=
    Digits.lt_length_toDigits (Nat.le_trans hle (Nat.le_mul_of_pos_left power hpos))
  have hfew (count : Nat) (hcount : 0 < count)
      (hle : Nat.pow 2 (53 + 2045) * power ≤ Nat.pow 10 count) :
      (Nat.toDigits 10 (units rank * power)).length ≤ count :=
    Digits.length_toDigits_le hcount
      (Nat.lt_of_lt_of_le (Nat.mul_lt_mul_of_pos_right hlt hpos') hle)
  have hmany := hmany 750 (by rw [← hpower]; decide +kernel)
  have hfew := hfew 1383 (by decide) (by rw [← hpower]; decide +kernel)
  omega

theorem exactDigits_ne_zero (h : rank.val ≠ 0) : exactDigits rank ≠ 0 := by
  unfold exactDigits
  generalize 1074 = e
  exact Nat.ne_of_gt (Nat.mul_pos (units_pos h) (Nat.pow_pos (by decide)))

theorem nearestRank_exact (rank : Nat) :
    nearestRank (exactDigits rank) (Nat.pow 10 1074) = rank := by
  have hscaled (e : Nat) : nearestRank (units rank * Nat.pow 5 e) (Nat.pow 10 e) =
      nearestRank (units rank) (Nat.pow 2 e) := by
    have hten : Nat.pow 10 e = Nat.pow 5 e * Nat.pow 2 e := Nat.mul_pow 5 2 e
    rw [hten, Nat.mul_comm (units rank)]
    exact nearestRank_mul (Nat.pow_pos (by decide)) (units rank) (Nat.pow 2 e)
  have hunits := nearestRank_units rank
  unfold exactDigits
  revert hunits
  generalize 1074 = e
  intro hunits
  exact (hscaled e).trans hunits

theorem rank?_of_nearestRank {n e : Nat} (hn : n ≠ 0)
    (hlower : -324 < (⟨n, -e⟩ : Decimal).point) (hupper : (⟨n, -e⟩ : Decimal).point < 310)
    (h : nearestRank n (Nat.pow 10 e) = rank) : (⟨n, -e⟩ : Decimal).rank? = some rank := by
  rw [Decimal.rank?, if_neg (not_or.mpr ⟨hn, Int.not_le.mpr hlower⟩),
    if_neg (Int.not_le.mpr hupper)]
  have hnum : n * Nat.pow 10 (-(e : Int)).toNat = n := by
    have hzero : (-(e : Int)).toNat = 0 := by omega
    rw [hzero]
    exact Nat.mul_one n
  have hden : (- -(e : Int)).toNat = e := by omega
  simp only [hnum, hden, h, rank.isLt, dite_true]

theorem rank?_exact (rank : Fin magnitudes) :
    (⟨exactDigits rank, -1074⟩ : Decimal).rank? = some rank := by
  by_cases hzero : rank.val = 0
  · have hdigits : exactDigits rank = 0 := by
      have hunits : units 0 = 0 := rfl
      unfold exactDigits
      generalize Nat.pow 5 1074 = power
      rw [hzero, hunits, Nat.zero_mul]
    rw [Decimal.rank?, if_pos (.inl hdigits)]
    exact congrArg some (Fin.ext hzero.symm)
  · obtain ⟨hlower, hupper⟩ := point_exact hzero
    have hnearest := nearestRank_exact rank
    refine @rank?_of_nearestRank rank _ 1074 (exactDigits_ne_zero hzero) hlower hupper ?_
    generalize 1074 = e at hnearest ⊢
    exact hnearest

/-- What is chosen for a magnitude reads back as it. -/
theorem rank?_shortest (rank : Fin magnitudes) : (shortest rank).rank? = some rank := by
  unfold shortest
  dsimp only
  cases hfound : (List.range' 1 17).findSome? _ with
  | none => exact rank?_exact rank
  | some d =>
    obtain ⟨count, -, hcount⟩ := List.exists_of_findSome?_eq_some hfound
    exact rank?_of_neighbour hcount

end Binary64

/-! ### The layouts -/

namespace Numeral.Spelling

/-- The decimal that the parts denote. -/
def decimal (s : Spelling) : Decimal :=
  ⟨Nat.ofDigitChars 10 (s.whole ++ s.fraction) 0, s.exponent.getD 0 - s.fraction.length⟩

theorem value?_eq_ofDecimal? (s : Spelling) (h : s.fraction ≠ [] ∨ s.exponent ≠ none)
    (isNegative : Bool) : value? isNegative s.whole s.fraction s.exponent =
      Number.ofDecimal? isNegative s.decimal := by
  have hdouble : (s.fraction.isEmpty && s.exponent.isNone) = false := by
    rw [Bool.and_eq_false_iff]
    rcases h with h | h
    · exact .inl (List.isEmpty_eq_false_iff.mpr h)
    · exact .inr (Option.isNone_eq_false_iff.mpr (Option.isSome_iff_ne_none.mpr h))
  unfold value?
  rw [hdouble]
  rfl

end Numeral.Spelling

namespace Decimal

/-- Digits that begin with none too many. -/
structure Significant (ds : List Char) : Prop where
  ne_nil : ds ≠ []
  digits : ∀ c ∈ ds, c.isDigit = true
  leading : ds.head? ≠ some '0'

theorem exists_dropTrailingZeros (digits : List Char) :
    ∃ zeros, digits = dropTrailingZeros digits ++ List.replicate zeros '0' := by
  have hzeros (ds : List Char) : ∃ zeros,
      ds.takeWhile (· == '0') = List.replicate zeros '0' := by
    refine ⟨_, List.eq_replicate_of_mem fun c hc => ?_⟩
    simpa using List.all_eq_true.mp List.all_takeWhile c hc
  obtain ⟨zeros, hzeros⟩ := hzeros digits.reverse
  refine ⟨zeros, ?_⟩
  rw [dropTrailingZeros, ← List.reverse_inj, List.reverse_append, List.reverse_reverse,
    List.reverse_replicate, ← hzeros, List.takeWhile_append_dropWhile]

theorem significant_of_toDigits {n zeros : Nat} {ds : List Char} (hn : n ≠ 0)
    (h : Nat.toDigits 10 n = ds ++ List.replicate zeros '0') : Significant ds := by
  have hne : ds ≠ [] := by
    rintro rfl
    have hvalue := @Nat.ofDigitChars_ten_toDigits n
    rw [h, List.nil_append, Nat.ofDigitChars_replicate_zero, Nat.mul_zero] at hvalue
    exact hn hvalue.symm
  refine ⟨hne, fun c hc => ?_, fun hleading => ?_⟩
  · refine @Digits.isDigit_of_mem n c ?_
    rw [h]
    exact List.mem_append_left _ hc
  · obtain ⟨d, ds', rfl⟩ := List.exists_cons_of_ne_nil hne
    obtain ⟨c, cs, hcs, hzero⟩ := Digits.toDigits_eq_cons n
    rw [h] at hcs
    cases hcs
    exact hn (hzero (Option.some.inj hleading))

variable {ds : List Char}

theorem exists_pointed {whole fraction : List Char} (hwhole : whole ≠ [])
    (hdigits : ∀ c ∈ whole, c.isDigit = true) (hleading : whole.head? = some '0' → whole = ['0'])
    (hfraction : fraction ≠ []) (hdigits' : ∀ c ∈ fraction, c.isDigit = true) :
    ∃ s : Numeral.Spelling, s.chars = whole ++ '.' :: fraction ∧ s.fraction ≠ [] ∧
      s.decimal = ⟨Nat.ofDigitChars 10 (whole ++ fraction) 0, -fraction.length⟩ := by
  refine ⟨⟨whole, fraction, none, hwhole, hdigits, hleading, hdigits', by simp⟩, ?_, hfraction, ?_⟩
  · rw [Numeral.Spelling.chars, Numeral.Spelling.fractionChars_of_ne_nil hfraction]
    simp [Numeral.Spelling.exponentChars]
  · rw [Numeral.Spelling.decimal]
    congr 1
    exact Int.zero_sub _

theorem isDigit_of_mem_zeros (count : Nat) : ∀ c ∈ List.replicate count '0', c.isDigit = true := by
  intro c hc
  rw [(List.mem_replicate.mp hc).2]
  rfl

/-- Zeros may stand between the point and the digits. -/
theorem exists_pointed_before (hds : Significant ds) (zeros : Nat) :
    ∃ s : Numeral.Spelling, s.chars = '0' :: '.' :: List.replicate zeros '0' ++ ds ∧
      s.fraction ≠ [] ∧
      s.decimal = ⟨Nat.ofDigitChars 10 ds 0, -((zeros + ds.length : Nat) : Int)⟩ := by
  have hne : List.replicate zeros '0' ++ ds ≠ [] := by simp [hds.ne_nil]
  have hdigits := List.forall_mem_append.mpr ⟨isDigit_of_mem_zeros zeros, hds.digits⟩
  obtain ⟨s, hchars, hfraction, hdecimal⟩ :=
    @exists_pointed ['0'] _ (by simp) (by simp) (fun _ => rfl) hne hdigits
  have hvalue : Nat.ofDigitChars 10 (['0'] ++ (List.replicate zeros '0' ++ ds)) 0 =
      Nat.ofDigitChars 10 ds 0 := by
    simp [Nat.ofDigitChars_append, Nat.ofDigitChars_cons, Nat.ofDigitChars_replicate_zero]
  refine ⟨s, hchars, hfraction, ?_⟩
  rw [hdecimal, hvalue, List.length_append, List.length_replicate]

/-- Zeros may stand between the digits and the point, and one stands behind it. -/
theorem exists_pointed_after (hds : Significant ds) (zeros : Nat) :
    ∃ s : Numeral.Spelling, s.chars = ds ++ List.replicate zeros '0' ++ ['.', '0'] ∧
      s.fraction ≠ [] ∧ s.decimal = ⟨Nat.ofDigitChars 10 ds 0 * 10 ^ (zeros + 1), -1⟩ := by
  have hne : ds ++ List.replicate zeros '0' ≠ [] := by simp [hds.ne_nil]
  have hdigits := List.forall_mem_append.mpr ⟨hds.digits, isDigit_of_mem_zeros zeros⟩
  have hleading : (ds ++ List.replicate zeros '0').head? ≠ some '0' := by
    rw [List.head?_append_of_ne_nil ds hds.ne_nil]
    exact hds.leading
  obtain ⟨s, hchars, hfraction, hdecimal⟩ :=
    @exists_pointed _ ['0'] hne hdigits (fun h => absurd h hleading) (by simp) (by simp)
  have hvalue : Nat.ofDigitChars 10 (ds ++ List.replicate zeros '0' ++ ['0']) 0 =
      Nat.ofDigitChars 10 ds 0 * 10 ^ (zeros + 1) := by
    rw [List.append_assoc, ← List.replicate_succ', Nat.ofDigitChars_append,
      Nat.ofDigitChars_replicate_zero, Nat.mul_comm]
  refine ⟨s, hchars, hfraction, ?_⟩
  rw [hdecimal, hvalue]
  rfl

/-- The point may stand between the digits. -/
theorem exists_pointed_inside (hds : Significant ds) {count : Nat} (hpos : 0 < count)
    (hlt : count < ds.length) :
    ∃ s : Numeral.Spelling, s.chars = ds.take count ++ '.' :: ds.drop count ∧ s.fraction ≠ [] ∧
      s.decimal = ⟨Nat.ofDigitChars 10 ds 0, -((ds.length - count : Nat) : Int)⟩ := by
  have hdrop : ds.drop count ≠ [] := by
    rw [ne_eq, List.drop_eq_nil_iff]
    exact Nat.not_le.mpr hlt
  have htake : ds.take count ≠ [] := by
    rw [ne_eq, List.take_eq_nil_iff, not_or]
    exact ⟨Nat.ne_of_gt hpos, hds.ne_nil⟩
  have hleading : (ds.take count).head? ≠ some '0' := by
    rw [List.head?_take, if_neg (Nat.ne_of_gt hpos)]
    exact hds.leading
  obtain ⟨s, hchars, hfraction, hdecimal⟩ := exists_pointed htake
    (fun c hc => hds.digits c (List.mem_of_mem_take hc)) (fun h => absurd h hleading) hdrop
    (fun c hc => hds.digits c (List.mem_of_mem_drop hc))
  refine ⟨s, hchars, hfraction, ?_⟩
  rw [hdecimal, List.take_append_drop, List.length_drop]

/-- Written with a point, the digits keep their value. -/
theorem exists_positional (hds : Significant ds) (point : Int) :
    ∃ (s : Numeral.Spelling) (zeros : Nat), s.chars = positional ds point ∧ s.fraction ≠ [] ∧
      s.decimal = (⟨Nat.ofDigitChars 10 ds 0, point - ds.length⟩ : Decimal).scaled zeros := by
  have hunscaled {exponent : Int} (h : exponent = point - ds.length) :
      (⟨Nat.ofDigitChars 10 ds 0, exponent⟩ : Decimal) =
        (⟨Nat.ofDigitChars 10 ds 0, point - ds.length⟩ : Decimal).scaled 0 := by
    rw [scaled, Nat.pow_zero, Nat.mul_one, h]
    exact congrArg _ (Int.sub_zero _).symm
  unfold positional
  split_ifs with hsmall hlong
  · obtain ⟨s, hchars, hfraction, hdecimal⟩ := exists_pointed_before hds (-point).toNat
    exact ⟨s, 0, hchars, hfraction, hdecimal.trans (hunscaled (by omega))⟩
  · obtain ⟨s, hchars, hfraction, hdecimal⟩ := exists_pointed_after hds (point.toNat - ds.length)
    refine ⟨s, point.toNat - ds.length + 1, hchars, hfraction, ?_⟩
    rw [hdecimal, scaled]
    congr 1
    show (-1 : Int) = point - ds.length - ((point.toNat - ds.length + 1 : Nat) : Int)
    omega
  · have hpos : 0 < point.toNat := by omega
    obtain ⟨s, hchars, hfraction, hdecimal⟩ :=
      exists_pointed_inside hds hpos (Nat.lt_of_not_le hlong)
    exact ⟨s, 0, hchars, hfraction, hdecimal.trans (hunscaled (by omega))⟩

/-- Written with an exponent, the digits keep their value. -/
theorem exists_scientific (hds : Significant ds) {exponent : Int}
    (hexponent : exponent.natAbs < 0x80000000) :
    ∃ s : Numeral.Spelling, s.chars = scientific .document ds exponent ∧ s.exponent ≠ none ∧
      s.decimal = ⟨Nat.ofDigitChars 10 ds 0, exponent + 1 - ds.length⟩ := by
  obtain ⟨d, ds, rfl⟩ := List.exists_cons_of_ne_nil hds.ne_nil
  obtain ⟨hd, hdigits⟩ := List.forall_mem_cons.mp hds.digits
  refine ⟨⟨[d], ds, some exponent, by simp, by simpa using hd, by simp, hdigits, ?_⟩, ?_, by simp, ?_⟩
  · rintro e ⟨⟩
    exact hexponent
  · cases ds <;> simp [Numeral.Spelling.chars, Numeral.Spelling.fractionChars,
      Numeral.Spelling.exponentChars, Numeral.Spelling.signChars, scientific, Style.document]
  · rw [Numeral.Spelling.decimal]
    congr 1
    show exponent - (ds.length : Int) = exponent + 1 - ((ds.length + 1 : Nat) : Int)
    omega

/-- The text of a decimal in range spells a decimal of the same rank, which makes it a double. -/
theorem exists_spelling {d : Decimal} (hd : d.digits ≠ 0) (hlower : -324 < d.point)
    (hupper : d.point < 310) :
    ∃ s : Numeral.Spelling, s.chars = d.chars .document ∧ (s.fraction ≠ [] ∨ s.exponent ≠ none) ∧
      s.decimal.rank? = d.rank? := by
  obtain ⟨zeros, hzeros⟩ := exists_dropTrailingZeros (Nat.toDigits 10 d.digits)
  have hds := significant_of_toDigits hd hzeros
  unfold chars
  dsimp only
  generalize dropTrailingZeros (Nat.toDigits 10 d.digits) = ds at hzeros hds ⊢
  have hpoint : d.point = ds.length + zeros + d.exponent := by
    rw [point, hzeros, List.length_append, List.length_replicate]
    omega
  -- the decimal without the zeros at its end
  have hscaled : (⟨Nat.ofDigitChars 10 ds 0, d.point - ds.length⟩ : Decimal).scaled zeros = d := by
    have hvalue := @Nat.ofDigitChars_ten_toDigits d.digits
    rw [hzeros, Nat.ofDigitChars_append, Nat.ofDigitChars_replicate_zero, Nat.mul_comm] at hvalue
    rw [scaled]
    dsimp only
    rw [hvalue, hpoint]
    congr 1
    omega
  have hrank := rank?_scaled ⟨Nat.ofDigitChars 10 ds 0, d.point - ds.length⟩ zeros
  rw [hscaled] at hrank
  split_ifs
  · obtain ⟨s, more, hchars, hfraction, hdecimal⟩ := exists_positional hds d.point
    refine ⟨s, hchars, .inl hfraction, ?_⟩
    rw [hdecimal, rank?_scaled, hrank]
  · have hexponent : (d.point - 1).natAbs < 0x80000000 := by omega
    obtain ⟨s, hchars, hexp, hdecimal⟩ := exists_scientific hds hexponent
    refine ⟨s, hchars, .inr hexp, ?_⟩
    rw [hdecimal, Int.sub_add_cancel, hrank]

/-- A decimal that is read as a magnitude other than zero is in range. -/
theorem bounds_of_rank? {d : Decimal} {rank : Fin magnitudes} (h : d.rank? = some rank)
    (hne : rank.val ≠ 0) : d.digits ≠ 0 ∧ -324 < d.point ∧ d.point < 310 := by
  have hsmall : ¬ (d.digits = 0 ∨ d.point ≤ -324) := by
    intro hsmall
    rw [rank?, if_pos hsmall] at h
    exact hne (congrArg Fin.val (Option.some.inj h)).symm
  have hlarge : ¬ 310 ≤ d.point := by
    intro hlarge
    rw [rank?, if_neg hsmall, if_pos hlarge] at h
    cases h
  obtain ⟨hdigits, hpoint⟩ := not_or.mp hsmall
  exact ⟨hdigits, Int.not_le.mp hpoint, Int.not_le.mp hlarge⟩

end Decimal

/-! ### Numbers -/

namespace Binary64

theorem exists_spelling (x : Binary64) :
    ∃ s : Numeral.Spelling, x.chars .document = (if x.negative then ['-'] else []) ++ s.chars ∧
      Numeral.value? x.negative s.whole s.fraction s.exponent = some (.double x) := by
  unfold chars
  by_cases hzero : x.rank.val = 0
  · obtain ⟨s, hchars, hfraction, hdecimal⟩ := @Decimal.exists_pointed ['0'] ['0'] (by simp)
      (by simp) (fun _ => rfl) (by simp) (by simp)
    have hrank : zeroRank = x.rank := Fin.ext hzero.symm
    refine ⟨s, by rw [if_pos hzero, hchars]; rfl, ?_⟩
    rw [s.value?_eq_ofDecimal? (.inl hfraction), hdecimal, Number.ofDecimal?,
      Decimal.rank?, if_pos (.inl rfl), hrank]
    rfl
  · have hrank := rank?_shortest x.rank
    obtain ⟨hdigits, hlower, hupper⟩ := Decimal.bounds_of_rank? hrank hzero
    obtain ⟨s, hchars, hdouble, hdecimal⟩ := Decimal.exists_spelling hdigits hlower hupper
    refine ⟨s, by rw [if_neg hzero, hchars], ?_⟩
    rw [s.value?_eq_ofDecimal? hdouble, Number.ofDecimal?, hdecimal, hrank]
    rfl

end Binary64

namespace Number

theorem exists_integer (n : Nat) : ∃ s : Numeral.Spelling, s.chars = Nat.toDigits 10 n ∧
    s.whole = Nat.toDigits 10 n ∧ s.fraction = [] ∧ s.exponent = none := by
  have hleading : (Nat.toDigits 10 n).head? = some '0' → Nat.toDigits 10 n = ['0'] := by
    intro h
    obtain ⟨c, cs, hcs, hzero⟩ := Digits.toDigits_eq_cons n
    rw [hcs] at h
    rw [hzero (Option.some.inj h), Nat.toDigits_zero]
  exact ⟨⟨_, [], none, Nat.toDigits_ne_nil, fun _ => Digits.isDigit_of_mem, hleading, by simp,
    by simp⟩, List.append_nil _, rfl, rfl, rfl⟩

theorem exists_spelling (n : Number) : ∃ (isNegative : Bool) (s : Numeral.Spelling),
    n.chars = (if isNegative then ['-'] else []) ++ s.chars ∧
      Numeral.value? isNegative s.whole s.fraction s.exponent = some n := by
  cases n with
  | natural n =>
    obtain ⟨s, hchars, hwhole, hfraction, hexponent⟩ := exists_integer n
    refine ⟨false, s, hchars.symm, ?_⟩
    rw [hwhole, hfraction, hexponent]
    simp [Numeral.value?, ofNat?, Nat.ofDigitChars_ten_toDigits]
  | negative n =>
    obtain ⟨s, hchars, hwhole, hfraction, hexponent⟩ := exists_integer (n + 1)
    refine ⟨true, s, congrArg (List.cons '-') hchars.symm, ?_⟩
    rw [hwhole, hfraction, hexponent]
    simp [Numeral.value?, ofNegated?, Nat.ofDigitChars_ten_toDigits]
  | double x =>
    obtain ⟨s, hchars, hvalue⟩ := x.exists_spelling
    exact ⟨x.negative, s, hchars, hvalue⟩

/-- A number is read back from its text, whatever follows. -/
theorem read_chars (n : Number) {rest : List Char} (hrest : Numeral.Ends rest) :
    read (n.chars ++ rest) = .ok (n, rest) := by
  obtain ⟨isNegative, s, hchars, hvalue⟩ := n.exists_spelling
  rw [hchars]
  exact s.read_chars hrest hvalue

/-- A numeral begins with no character other than a minus and the digits. -/
theorem ne_of_start {c d : Char} (hc : c = '-' ∨ c.isDigit = true) (hminus : d ≠ '-')
    (hdigit : d.isDigit = false) : c ≠ d := by
  rintro rfl
  rcases hc with hc | hc
  · exact hminus hc
  · rw [hc] at hdigit
    cases hdigit

theorem chars_eq_cons (n : Number) :
    ∃ c cs, n.chars = c :: cs ∧ (c = '-' ∨ c.isDigit = true) := by
  obtain ⟨isNegative, s, hchars, -⟩ := n.exists_spelling
  obtain ⟨c, cs, hwhole⟩ := List.exists_cons_of_ne_nil s.whole_ne_nil
  have hc : c.isDigit = true := s.whole_digits c (hwhole ▸ List.mem_cons_self ..)
  rw [hchars, Numeral.Spelling.chars, hwhole]
  cases isNegative with
  | true => exact ⟨'-', _, rfl, .inl rfl⟩
  | false => exact ⟨c, _, rfl, .inr hc⟩

end Number

end ConfigSchema
