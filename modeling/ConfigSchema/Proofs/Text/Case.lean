import ConfigSchema.Text.Case
import Mathlib

/-!
# Small letters stay small

No range of `lowerRanges` holds an image of a range. So the small form of a character consists of
characters that are small already (`lowerChar_of_mem`), and none of the characters in front of the
small letters of ASCII is in the small form of another character (`eq_of_mem_lowerChar`). In ASCII
the small form is one character, `Char.toLower` (`lowerChar_of_ascii`).
-/

namespace ConfigSchema

namespace CaseRange

variable {r s : CaseRange} {code image : Nat}

def lastImage (r : CaseRange) : Nat := r.image + (r.last - r.first)

/-- Whether the ranges show by their bounds that no image of `r` belongs to `s`: the images all lie
in front of `s` or behind it, or `s` goes in steps of two and they fall between its characters. -/
def avoids (r s : CaseRange) : Bool :=
  r.lastImage.blt s.first || s.last.blt r.image ||
    (s.step == 2 && (r.step == 2 || r.first == r.last) && r.image % 2 != s.first % 2)

theorem image?_eq_some_iff : r.image? code = some image ↔
    (r.first ≤ code ∧ code ≤ r.last ∧ (code - r.first) % r.step = 0) ∧
      r.image + (code - r.first) = image := by
  rw [image?, Option.ite_none_right_eq_some, Option.some_inj]

theorem bounds_of_image? (h : r.image? code = some image) :
    r.image ≤ image ∧ image ≤ r.lastImage := by
  obtain ⟨⟨hfirst, hlast, -⟩, rfl⟩ := image?_eq_some_iff.mp h
  unfold lastImage
  omega

theorem image?_of_avoids (hr : r.avoids s = true) (h : r.image? code = some image) :
    s.image? image = none := by
  obtain ⟨hfirst, hlast⟩ := bounds_of_image? h
  obtain ⟨⟨hle, hge, hstep⟩, himage⟩ := image?_eq_some_iff.mp h
  rw [image?, ite_eq_right_iff]
  rintro ⟨hsfirst, hslast, hsstep⟩
  simp only [avoids, Bool.or_eq_true, Bool.and_eq_true, Nat.blt_eq, beq_iff_eq, bne_iff_ne] at hr
  obtain (hr | hr) | ⟨⟨hstwo, hr⟩, hparity⟩ := hr
  · omega
  · omega
  -- the images are all odd or all even, and the characters of `s` the other way round
  · rw [hstwo] at hsstep
    obtain hrtwo | hsingle := hr
    · rw [hrtwo] at hstep
      omega
    · omega

end CaseRange

/-! ### The table of small letters -/

theorem avoids_lowerRanges : ∀ r ∈ lowerRanges, lowerRanges.all r.avoids = true := by
  decide +kernel

/-- The images are characters. They lie behind the capitals of ASCII, and none of them is the
capital whose small form is not in the table. -/
theorem images_lowerRanges : ∀ r ∈ lowerRanges, 0x60 < r.image ∧
    (r.lastImage < 0x130 ∨ 0x130 < r.image) ∧
      (r.lastImage < 0xD800 ∨ 0xDFFF < r.image ∧ r.lastImage < 0x110000) := by
  decide +kernel

/-- The capitals of ASCII are one range, and the others lie behind ASCII. -/
theorem ascii_lowerRanges :
    ∀ r ∈ lowerRanges, r = ⟨0x41, 0x5A, 1, 0x61⟩ ∨ 0x80 ≤ r.first := by
  decide +kernel

variable {c d : Char}

theorem lowerChar_cases (c : Char) : lowerChar c = ['i', '\u0307'] ∨
    (∃ r ∈ lowerRanges, ∃ code, r.image? c.toNat = some code ∧ lowerChar c = [Char.ofNat code]) ∨
      lowerChar c = [c] := by
  unfold lowerChar
  split
  · exact .inl rfl
  · split
    · next code h =>
      obtain ⟨r, hr, hcode⟩ := List.exists_of_findSome?_eq_some h
      exact .inr (.inl ⟨r, hr, code, hcode, rfl⟩)
    · exact .inr (.inr rfl)

theorem lowerChar_of_forall (hc : c.toNat ≠ 0x130)
    (h : ∀ r ∈ lowerRanges, r.image? c.toNat = none) : lowerChar c = [c] := by
  rw [lowerChar, if_neg hc, List.findSome?_eq_none_iff.mpr h]

theorem toNat_ofNat_image {r : CaseRange} (hr : r ∈ lowerRanges) {code image : Nat}
    (h : r.image? code = some image) : (Char.ofNat image).toNat = image := by
  obtain ⟨-, -, hvalid⟩ := images_lowerRanges r hr
  obtain ⟨hfirst, hlast⟩ := CaseRange.bounds_of_image? h
  rw [Char.toNat_ofNat, if_pos]
  unfold Nat.isValidChar
  omega

/-- The small form of a character is made of characters that are their own small form. -/
theorem lowerChar_of_mem (h : d ∈ lowerChar c) : lowerChar d = [d] := by
  obtain hc | ⟨r, hr, code, hcode, hc⟩ | hc := lowerChar_cases c
  · rw [hc, List.mem_pair] at h
    obtain rfl | rfl := h
    · decide +kernel
    · decide +kernel
  · rw [hc, List.mem_singleton] at h
    obtain ⟨-, hdotted, -⟩ := images_lowerRanges r hr
    obtain ⟨hfirst, hlast⟩ := CaseRange.bounds_of_image? hcode
    have himage : d.toNat = code := h ▸ toNat_ofNat_image hr hcode
    refine lowerChar_of_forall (by omega) fun s hs => ?_
    have havoids : r.avoids s = true := List.all_eq_true.mp (avoids_lowerRanges r hr) s hs
    exact himage ▸ CaseRange.image?_of_avoids havoids hcode
  · rw [hc, List.mem_singleton] at h
    rw [h, hc]

theorem eq_of_mem_lowerChar (h : d ∈ lowerChar c) (hd : d.toNat ≤ 0x60) : d = c := by
  obtain hc | ⟨r, hr, code, hcode, hc⟩ | hc := lowerChar_cases c
  · rw [hc, List.mem_pair] at h
    obtain rfl | rfl := h
    · exact absurd hd (by decide)
    · exact absurd hd (by decide)
  · rw [hc, List.mem_singleton] at h
    obtain ⟨hletter, -⟩ := images_lowerRanges r hr
    obtain ⟨hfirst, -⟩ := CaseRange.bounds_of_image? hcode
    have himage : d.toNat = code := h ▸ toNat_ofNat_image hr hcode
    omega
  · rwa [hc, List.mem_singleton] at h

/-! ### ASCII -/

theorem isUpper_iff_toNat : c.isUpper = true ↔ 0x41 ≤ c.toNat ∧ c.toNat ≤ 0x5A := by
  simp [Char.isUpper, UInt32.le_iff_toNat_le]

theorem lowerChar_of_isUpper (hc : c.isUpper = true) : lowerChar c = [c.toLower] := by
  obtain ⟨hfirst, hlast⟩ := isUpper_iff_toNat.mp hc
  obtain ⟨rest, hrest⟩ : ∃ rest, lowerRanges = ⟨0x41, 0x5A, 1, 0x61⟩ :: rest := ⟨_, rfl⟩
  have himage : CaseRange.image? ⟨0x41, 0x5A, 1, 0x61⟩ c.toNat = some (c.toNat + 32) :=
    CaseRange.image?_eq_some_iff.mpr ⟨⟨hfirst, hlast, Nat.mod_one _⟩, by dsimp only; omega⟩
  rw [lowerChar, if_neg (by omega), hrest, List.findSome?_cons, himage,
    Char.toLower_eq_of_isUpper hc]

theorem lowerChar_of_ascii (hc : c.toNat < 0x80) : lowerChar c = [c.toLower] := by
  by_cases hupper : c.isUpper = true
  · exact lowerChar_of_isUpper hupper
  · rw [Char.toLower_eq_of_not_isUpper hupper]
    rw [isUpper_iff_toNat] at hupper
    refine lowerChar_of_forall (by omega) fun r hr => ?_
    rw [CaseRange.image?, ite_eq_right_iff]
    rintro ⟨hfirst, hlast, -⟩
    obtain rfl | hr := ascii_lowerRanges r hr
    · exact absurd ⟨hfirst, hlast⟩ hupper
    · omega

theorem isUpper_of_lowerChar (hd : lowerChar d = [d]) : d.isUpper = false := by
  by_cases h : d.isUpper = true
  · have hlower : d.toLower = d := List.singleton_inj.mp ((lowerChar_of_isUpper h).symm.trans hd)
    rw [← hlower]
    exact Char.isUpper_toLower_eq_false d
  · exact Bool.eq_false_of_not_eq_true h

end ConfigSchema
