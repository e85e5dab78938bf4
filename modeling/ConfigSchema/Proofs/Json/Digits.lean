import Mathlib.Algebra.Group.Nat.Defs

/-!
# Decimal digits of a number

The digits of a number begin with a zero only when the number is zero, and they spell the number, so
a reader that refuses superfluous zeros takes them and finds the number again. Digits that begin
with no zero are those of the number that they spell.
-/

namespace ConfigSchema

namespace Digits

variable {n : Nat}

theorem isDigit_of_mem {c : Char} (hc : c ∈ Nat.toDigits 10 n) : c.isDigit = true :=
  Nat.isDigit_of_mem_toDigits (by decide) (by decide) hc

theorem all_isDigit_toDigits : (Nat.toDigits 10 n).all Char.isDigit = true :=
  List.all_eq_true.mpr fun _ => isDigit_of_mem

theorem toDigits_eq_cons (n : Nat) : ∃ c cs, Nat.toDigits 10 n = c :: cs ∧ (c = '0' → n = 0) := by
  induction n using Nat.strongRecOn with
  | ind n ih =>
    rw [Nat.toDigits_eq_if (by decide)]
    split
    · refine ⟨_, [], rfl, ?_⟩
      intro h
      exact Nat.digitChar_eq_zero.mp h
    · have hlt : n / 10 < n := by omega
      obtain ⟨c, cs, hcs, hzero⟩ := ih (n / 10) hlt
      refine ⟨c, cs ++ [(n % 10).digitChar], by rw [hcs]; rfl, ?_⟩
      intro h
      have := hzero h
      omega

theorem toDigits_mul_pow (hn : n ≠ 0) (zeros : Nat) :
    Nat.toDigits 10 (n * 10 ^ zeros) = Nat.toDigits 10 n ++ List.replicate zeros '0' := by
  induction zeros with
  | zero => simp
  | succ zeros ih =>
    have hpos : 0 < n * 10 ^ zeros := Nat.mul_pos (Nat.pos_of_ne_zero hn) (Nat.pow_pos (by decide))
    have hnext : n * 10 ^ (zeros + 1) = 10 * (n * 10 ^ zeros) + 0 := by
      rw [Nat.pow_succ, Nat.add_zero, Nat.mul_comm 10, Nat.mul_assoc]
    rw [hnext, ← Nat.toDigits_append_toDigits (by decide) hpos (by decide), ih, List.append_assoc,
      List.replicate_succ']
    rfl

theorem exists_digitChar {c : Char} (hc : c.isDigit = true) : ∃ d < 10, c = Nat.digitChar d := by
  obtain ⟨hlower, hupper⟩ := Char.isDigit_iff_toNat.mp hc
  have hzero : '0'.toNat = 48 := rfl
  have hnine : '9'.toNat = 57 := rfl
  have hlt : c.toNat - 48 < 10 := by omega
  refine ⟨c.toNat - 48, hlt, Char.toNat_inj.mp ?_⟩
  rw [Nat.toNat_digitChar_of_lt_ten hlt]
  omega

/-- Digits behind those of a number that is not zero. -/
theorem toDigits_ofDigitChars {ds : List Char} (hn : 0 < n) (hds : ∀ c ∈ ds, c.isDigit = true) :
    Nat.toDigits 10 (Nat.ofDigitChars 10 ds n) = Nat.toDigits 10 n ++ ds := by
  induction ds generalizing n with
  | nil => exact (List.append_nil _).symm
  | cons c ds ih =>
    obtain ⟨hc, hrest⟩ := List.forall_mem_cons.mp hds
    obtain ⟨d, hd, rfl⟩ := exists_digitChar hc
    rw [Nat.ofDigitChars_cons_digitChar_of_lt_ten hd, ih (by omega) hrest,
      ← Nat.toDigits_append_toDigits (by decide) hn hd, Nat.toDigits_of_lt_base hd,
      List.append_assoc]
    rfl

theorem toDigits_ofDigitChars_cons {c : Char} {ds : List Char} (hc : c ≠ '0')
    (hds : ∀ d ∈ c :: ds, d.isDigit = true) :
    Nat.toDigits 10 (Nat.ofDigitChars 10 (c :: ds) 0) = c :: ds := by
  obtain ⟨hdigit, hrest⟩ := List.forall_mem_cons.mp hds
  obtain ⟨d, hd, rfl⟩ := exists_digitChar hdigit
  have hpos : 0 < d := Nat.pos_of_ne_zero fun hzero => hc (by rw [hzero]; rfl)
  rw [Nat.ofDigitChars_cons_digitChar_of_lt_ten hd, toDigits_ofDigitChars (by omega) hrest,
    Nat.mul_zero, Nat.zero_add, Nat.toDigits_of_lt_base hd]
  rfl

theorem lt_length_toDigits {count : Nat} (h : Nat.pow 10 count ≤ n) :
    count < (Nat.toDigits 10 n).length := by
  cases count with
  | zero => exact Nat.length_toDigits_pos
  | succ count =>
    refine Nat.lt_of_not_le fun hle => ?_
    have hlt := (Nat.length_toDigits_le_iff (by decide) (Nat.succ_pos count)).mp hle
    exact absurd h (Nat.not_le.mpr hlt)

theorem length_toDigits_le {count : Nat} (hcount : 0 < count) (h : n < Nat.pow 10 count) :
    (Nat.toDigits 10 n).length ≤ count :=
  (Nat.length_toDigits_le_iff (by decide) hcount).mpr h

end Digits

end ConfigSchema
