import ConfigSchema.Json.Binary64
import ConfigSchema.Proofs.Json.Digits

/-!
# The nearest magnitude

Which magnitude is nearest to a quotient depends on its value only (`nearestRank_congr`), so
decimals of the same value have the same rank (`Decimal.rank?_scaled`), and a magnitude is nearest
to itself (`nearestRank_units`).
-/

namespace ConfigSchema

namespace Binary64

variable {num den num' den' k : Nat}

theorem roundHalfEven_mul (hk : 0 < k) (num den : Nat) :
    roundHalfEven (k * num) (k * den) = roundHalfEven num den := by
  have hquotient : k * num / (k * den) = num / den := Nat.mul_div_mul_left num den hk
  have htwice : 2 * (k * num % (k * den)) = k * (2 * (num % den)) := by
    rw [Nat.mul_mod_mul_left, Nat.mul_left_comm]
  unfold roundHalfEven
  simp only [hquotient, htwice, Nat.mul_lt_mul_left hk]

theorem roundHalfEven_mul_self (hden : 0 < den) (q : Nat) : roundHalfEven (q * den) den = q := by
  unfold roundHalfEven
  rw [Nat.mul_div_cancel q hden, Nat.mul_mod_left]
  exact if_pos hden

theorem nearestRank_mul (hk : 0 < k) (num den : Nat) :
    nearestRank (k * num) (k * den) = nearestRank num den := by
  have hshift (n s : Nat) : (k * n) <<< s = k * n <<< s := by
    rw [Nat.shiftLeft_eq, Nat.shiftLeft_eq, Nat.mul_assoc]
  unfold nearestRank
  simp only [hshift, Nat.mul_div_mul_left _ _ hk, roundHalfEven_mul hk]

theorem nearestRank_congr (hden : 0 < den) (hden' : 0 < den') (h : num * den' = num' * den) :
    nearestRank num den = nearestRank num' den' := by
  calc nearestRank num den
      = nearestRank (den' * num) (den' * den) := (nearestRank_mul hden' num den).symm
    _ = nearestRank (den * num') (den * den') := by
      rw [Nat.mul_comm den' num, h, Nat.mul_comm num' den, Nat.mul_comm den' den]
    _ = nearestRank num' den' := nearestRank_mul hden num' den'

/-- A significand that fills its 53 bits decides where the leading bit is. -/
theorem log2_scaled {significand scale : Nat} (hle : 2 ^ 52 ≤ significand)
    (hlt : significand < 2 ^ 53) : (significand * 2 ^ scale).log2 = 52 + scale := by
  have hpos : 0 < 2 ^ scale := Nat.two_pow_pos scale
  have hne : significand * 2 ^ scale ≠ 0 := Nat.mul_ne_zero (by omega) (by omega)
  have hle := Nat.mul_le_mul_right (2 ^ scale) hle
  have hlt := Nat.mul_lt_mul_of_pos_right hlt hpos
  rw [← Nat.pow_add] at hle hlt
  rw [Nat.log2_eq_iff hne, Nat.add_right_comm]
  exact ⟨hle, hlt⟩

theorem log2_units (rank : Nat) : (units rank).log2 - 52 = scale rank := by
  unfold units scale significand
  rw [Nat.shiftLeft_eq]
  by_cases hlt : rank < fractions
  · rw [if_pos hlt, Nat.div_eq_of_lt hlt, Nat.zero_sub, Nat.pow_zero, Nat.mul_one]
    by_cases hzero : rank = 0
    · rw [hzero]
      decide
    · have hlog : rank.log2 < 52 := (Nat.log2_lt hzero).mpr hlt
      omega
  · have hmod : rank % 2 ^ 52 < 2 ^ 52 := Nat.mod_lt _ (by decide)
    rw [if_neg hlt, log2_scaled, Nat.add_sub_cancel_left]
    · exact Nat.le_add_right (2 ^ 52) _
    · show 2 ^ 52 + rank % 2 ^ 52 < 2 ^ 53
      omega

theorem scale_add_significand (rank : Nat) : scale rank * fractions + significand rank = rank := by
  unfold scale significand
  by_cases hlt : rank < fractions
  · rw [if_pos hlt, Nat.div_eq_of_lt hlt, Nat.zero_sub, Nat.zero_mul, Nat.zero_add]
  · have hdiv : 0 < rank / fractions := Nat.div_pos (Nat.not_lt.mp hlt) (by decide)
    rw [if_neg hlt, ← Nat.add_assoc, ← Nat.succ_mul, Nat.succ_eq_add_one, Nat.sub_add_cancel hdiv]
    exact Nat.div_add_mod' rank fractions

theorem nearestRank_units (rank : Nat) : nearestRank (units rank) (Nat.pow 2 1074) = rank := by
  have hunits : units rank = significand rank * 2 ^ scale rank := Nat.shiftLeft_eq ..
  unfold nearestRank
  -- the power is too large to be computed with
  generalize 1074 = e
  have hpow : 0 < Nat.pow 2 e := Nat.two_pow_pos e
  have hshift : units rank <<< e = Nat.pow 2 e * units rank := by
    rw [Nat.shiftLeft_eq, Nat.mul_comm]
    rfl
  rw [hshift, Nat.mul_div_cancel_left _ hpow, log2_units]
  dsimp only
  rw [Nat.shiftLeft_eq, roundHalfEven_mul hpow, hunits, roundHalfEven_mul_self (Nat.two_pow_pos _),
    scale_add_significand]

end Binary64

namespace Decimal

/-- The same value, with more zeros at the end of the digits. -/
def scaled (d : Decimal) (zeros : Nat) : Decimal :=
  ⟨d.digits * 10 ^ zeros, d.exponent - zeros⟩

theorem point_scaled {d : Decimal} (hd : d.digits ≠ 0) (zeros : Nat) :
    (d.scaled zeros).point = d.point := by
  show ((Nat.toDigits 10 (d.digits * 10 ^ zeros)).length : Int) + (d.exponent - zeros) =
    (Nat.toDigits 10 d.digits).length + d.exponent
  rw [Digits.toDigits_mul_pow hd, List.length_append, List.length_replicate]
  omega

theorem rank?_scaled (d : Decimal) (zeros : Nat) : (d.scaled zeros).rank? = d.rank? := by
  by_cases hd : d.digits = 0
  · have hzero : (d.scaled zeros).digits = 0 := by rw [scaled, hd, Nat.zero_mul]
    rw [rank?, rank?, if_pos (.inl hzero), if_pos (.inl hd)]
  · have hpos : 0 < 10 ^ zeros := Nat.pow_pos (by decide)
    have hne : (d.scaled zeros).digits ≠ 0 := Nat.mul_ne_zero hd (by omega)
    have hpower : ∀ e : Nat, 0 < Nat.pow 10 e := fun e => Nat.pow_pos (by decide)
    have hexponents : zeros + (d.exponent - zeros).toNat + (-d.exponent).toNat =
        d.exponent.toNat + (-(d.exponent - zeros)).toNat := by omega
    have hrank : Binary64.nearestRank
        ((d.scaled zeros).digits * Nat.pow 10 (d.scaled zeros).exponent.toNat)
        (Nat.pow 10 (-(d.scaled zeros).exponent).toNat) =
        Binary64.nearestRank (d.digits * Nat.pow 10 d.exponent.toNat)
        (Nat.pow 10 (-d.exponent).toNat) := by
      refine Binary64.nearestRank_congr (hpower _) (hpower _) ?_
      show d.digits * 10 ^ zeros * 10 ^ _ * 10 ^ _ = d.digits * 10 ^ _ * 10 ^ _
      rw [Nat.mul_assoc, Nat.mul_assoc, Nat.mul_assoc, ← Nat.pow_add, ← Nat.pow_add, ← Nat.pow_add,
        ← Nat.add_assoc]
      exact congrArg (fun e => d.digits * 10 ^ e) hexponents
    unfold rank?
    rw [point_scaled hd]
    simp only [hd, hne, hrank]

end Decimal

end ConfigSchema
