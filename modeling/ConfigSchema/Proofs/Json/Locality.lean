import ConfigSchema.Proofs.Json.RoundTrip
import Mathlib.Data.List.TakeWhile

/-!
# What follows a scalar does not matter

A scalar that has been read from the beginning of a text is read from its own characters in front of
anything else as well (`local_readScalar`). Only a numeral could be longer: nothing may follow it
that it would go on with (`Numeral.Over`).
-/

namespace ConfigSchema

theorem head_dropWhile {p : Char → Bool} (cs : List Char) :
    ∀ c ∈ (cs.dropWhile p).head?, p c = false := by
  intro c hc
  have := List.head?_dropWhile_not p cs
  rw [hc] at this
  exact this

namespace Numeral

/-- If `cs` ends with a numeral, then this does not go on in `rest`: no digit follows, no exponent
unless there is one already, and no point unless there is a point or an exponent. -/
def Over (cs rest : List Char) : Prop :=
  (∃ d ∈ cs.getLast?, d.isDigit = true) → ∀ c ∈ rest.head?, c.isDigit = false ∧
    ('e' ∈ cs ∨ 'E' ∈ cs ∨ (c ≠ 'e' ∧ c ≠ 'E') ∧ ('.' ∈ cs ∨ c ≠ '.'))

end Numeral

open Numeral

/-- What `f` reads from the beginning of a text it reads from the characters that it takes, wherever
the numeral that they may end with is over. -/
def Local {ε α : Type} (f : List Char → Except ε (α × List Char)) : Prop :=
  ∀ ⦃cs rest : List Char⦄ ⦃a : α⦄, f cs = .ok (a, rest) → ∃ taken, taken ≠ [] ∧ cs = taken ++ rest ∧
    Over taken rest ∧ ∀ rest, Over taken rest → f (taken ++ rest) = .ok (a, rest)

namespace Numeral

variable {cs ds rest rest' : List Char} {n : Number} {isNegative significant : Bool}

/-! ### Where a numeral is over -/

theorem over_congr (h : rest.head? = rest'.head?) : Over cs rest ↔ Over cs rest' := by
  rw [Over, Over, h]

theorem over_of_getLast? (h : ∀ d ∈ cs.getLast?, d.isDigit = false) : Over cs rest := by
  rintro ⟨d, hlast, hd⟩
  rw [h d hlast] at hd
  cases hd

theorem over_append_left {front : List Char} (hfront : 'e' ∉ front ∧ 'E' ∉ front ∧ '.' ∉ front)
    (hne : cs ≠ []) : Over (front ++ cs) rest ↔ Over cs rest := by
  simp [Over, List.getLast?_append_of_ne_nil front hne, hfront]

/-- No digit comes next. -/
def NoDigit (cs : List Char) : Prop := ∀ c ∈ cs.head?, c.isDigit = false

theorem not_mem_of_digits {c : Char} (hds : ∀ c ∈ ds, c.isDigit = true) (hc : c.isDigit = false) :
    c ∉ ds := by
  intro h
  rw [hds c h] at hc
  cases hc

theorem exists_digit_getLast? (hne : ds ≠ []) (hds : ∀ c ∈ ds, c.isDigit = true)
    (front : List Char) : ∃ d ∈ (front ++ ds).getLast?, d.isDigit = true := by
  rw [List.getLast?_append_of_ne_nil front hne, List.getLast?_eq_some_getLast hne]
  exact ⟨_, rfl, hds _ (List.getLast_mem hne)⟩

theorem over_exponent_iff {front sign : List Char} {letter : Char}
    (hletter : letter = 'e' ∨ letter = 'E') (hne : ds ≠ []) (hds : ∀ c ∈ ds, c.isDigit = true) :
    Over (front ++ letter :: (sign ++ ds)) rest ↔ NoDigit rest := by
  have hlast := exists_digit_getLast? hne hds (front ++ letter :: sign)
  rw [List.append_assoc, List.cons_append] at hlast
  rw [Over, imp_iff_right hlast]
  rcases hletter with rfl | rfl <;> simp [NoDigit]

theorem over_fraction_iff {whole : List Char} (hwhole : ∀ c ∈ whole, c.isDigit = true)
    (hne : ds ≠ []) (hds : ∀ c ∈ ds, c.isDigit = true) :
    Over (whole ++ '.' :: ds) rest ↔ NoDigit rest ∧ ∀ c ∈ rest.head?, c ≠ 'e' ∧ c ≠ 'E' := by
  have hlast := exists_digit_getLast? hne hds (whole ++ ['.'])
  rw [List.append_assoc, List.singleton_append] at hlast
  rw [Over, imp_iff_right hlast]
  simp [NoDigit, not_mem_of_digits hwhole, not_mem_of_digits hds, forall_and]

theorem over_whole_iff (hne : ds ≠ []) (hds : ∀ c ∈ ds, c.isDigit = true) :
    Over ds rest ↔
      NoDigit rest ∧ (∀ c ∈ rest.head?, c ≠ 'e' ∧ c ≠ 'E') ∧ ∀ c ∈ rest.head?, c ≠ '.' := by
  have hlast := exists_digit_getLast? hne hds []
  rw [List.nil_append] at hlast
  rw [Over, imp_iff_right hlast]
  simp [NoDigit, not_mem_of_digits hds, forall_and]

/-! ### Digits -/

theorem readDigits_eq_ok (h : readDigits cs = .ok (ds, rest)) :
    cs = ds ++ rest ∧ ds ≠ [] ∧ (∀ c ∈ ds, c.isDigit = true) ∧ NoDigit rest := by
  unfold readDigits at h
  split at h
  · cases h
  · next hne =>
    cases h
    exact ⟨List.takeWhile_append_dropWhile.symm, hne, fun c hc => List.mem_takeWhile_imp hc,
      head_dropWhile cs⟩

theorem readWhole_eq_ok (h : readWhole cs = .ok (ds, rest)) :
    cs = ds ++ rest ∧ ds ≠ [] ∧ (∀ c ∈ ds, c.isDigit = true) ∧
      (ds.head? = some '0' → ds = ['0']) ∧ NoDigit rest := by
  unfold readWhole at h
  split at h
  · next rest' =>
    split at h
    · next hnone =>
      cases h
      refine ⟨rfl, by simp, by simp, fun _ => rfl, fun c hc => ?_⟩
      obtain ⟨rest, rfl⟩ := List.head?_eq_some_iff.mp hc
      by_contra hdigit
      simp [hdigit] at hnone
    · cases h
  · next hzero =>
    obtain ⟨rfl, hne, hds, hrest⟩ := readDigits_eq_ok h
    refine ⟨rfl, hne, hds, fun hhead => ?_, hrest⟩
    obtain ⟨d, ds, rfl⟩ := List.exists_cons_of_ne_nil hne
    cases hhead
    exact absurd rfl (hzero _)

theorem readFraction_eq_ok (h : readFraction cs = .ok (ds, rest)) :
    cs = Spelling.fractionChars ds ++ rest ∧ (∀ c ∈ ds, c.isDigit = true) ∧
      (ds ≠ [] → NoDigit rest) ∧ (ds = [] → ∀ c ∈ rest.head?, c ≠ '.') := by
  unfold readFraction at h
  split at h
  · obtain ⟨rfl, hne, hds, hrest⟩ := readDigits_eq_ok h
    refine ⟨?_, hds, fun _ => hrest, fun hnil => absurd hnil hne⟩
    rw [Spelling.fractionChars_of_ne_nil hne]
    rfl
  · next hpoint =>
    cases h
    refine ⟨rfl, by simp, fun hne => absurd rfl hne, fun _ c hc => ?_⟩
    rintro rfl
    obtain ⟨rest, hrest⟩ := List.head?_eq_some_iff.mp hc
    exact hpoint rest hrest

/-! ### Exponents -/

theorem readMagnitude_append_eq_ok {bounded : Bool} {soFar m : Nat}
    (hds : ∀ c ∈ ds, c.isDigit = true) (hrest : NoDigit rest)
    (h : readMagnitude bounded soFar (ds ++ rest) = .ok (m, rest')) :
    rest' = rest ∧ ∀ rest, NoDigit rest →
      readMagnitude bounded soFar (ds ++ rest) = .ok (m, rest) := by
  induction ds generalizing soFar with
  | nil =>
    have hend {rest : List Char} (hrest : NoDigit rest) :
        readMagnitude bounded soFar rest = .ok (soFar, rest) := by
      cases rest with
      | nil => rfl
      | cons c rest => rw [readMagnitude, if_neg (by simpa using hrest c rfl)]
    rw [List.nil_append, hend hrest] at h
    cases h
    exact ⟨rfl, fun rest => hend⟩
  | cons d ds ih =>
    obtain ⟨hd, hds⟩ := List.forall_mem_cons.mp hds
    simp only [List.cons_append, readMagnitude, if_pos hd] at h ⊢
    split at h
    · next hlt => simpa only [if_pos hlt] using ih hds h
    · next hlt =>
      simp only [if_neg hlt]
      cases bounded with
      | true => cases h
      | false =>
        simp only [Bool.false_eq_true, if_false] at h ⊢
        cases h
        refine ⟨(takeWhile_isDigit_append hds hrest).2, fun rest hrest => ?_⟩
        rw [(takeWhile_isDigit_append hds hrest).2]

theorem readSigned_plain (hplus : cs.head? ≠ some '+') (hminus : cs.head? ≠ some '-') :
    readSigned significant cs = readDigits cs >>= fun _ =>
      readMagnitude significant 0 cs >>= fun r => .ok ((r.1 : Int), r.2) := by
  unfold readSigned
  split
  next isNegative digits heq =>
    split at heq
    · exact absurd rfl hplus
    · exact absurd rfl hminus
    · cases heq
      cases significant <;> rfl

/-- The sign of an exponent, if there is one, and the digits after it. -/
theorem exists_sign (cs : List Char) : ∃ (isNegative : Bool) (sign digits : List Char),
    cs = sign ++ digits ∧ ∀ digits', digits'.head? = digits.head? →
      ∀ significant, readSigned significant (sign ++ digits') = readDigits digits' >>= fun _ =>
        readMagnitude (significant && !isNegative) 0 digits' >>= fun r =>
          .ok (if isNegative then -(r.1 : Int) else r.1, r.2) := by
  by_cases hplus : cs.head? = some '+'
  · obtain ⟨digits, rfl⟩ := List.head?_eq_some_iff.mp hplus
    refine ⟨false, ['+'], digits, rfl, fun digits' _ significant => ?_⟩
    simpa using readSigned_plus significant digits'
  · by_cases hminus : cs.head? = some '-'
    · obtain ⟨digits, rfl⟩ := List.head?_eq_some_iff.mp hminus
      refine ⟨true, ['-'], digits, rfl, fun digits' _ significant => ?_⟩
      simpa using readSigned_minus significant digits'
    · refine ⟨false, [], cs, rfl, fun digits' hhead significant => ?_⟩
      rw [← hhead] at hplus hminus
      simpa using readSigned_plain hplus hminus

theorem readSigned_eq_ok {e : Int} (h : readSigned significant cs = .ok (e, rest)) :
    ∃ sign ds, cs = sign ++ (ds ++ rest) ∧ ds ≠ [] ∧ (∀ c ∈ ds, c.isDigit = true) ∧ NoDigit rest ∧
      ∀ rest, NoDigit rest → readSigned significant (sign ++ (ds ++ rest)) = .ok (e, rest) := by
  obtain ⟨isNegative, sign, digits, rfl, hsigned⟩ := exists_sign cs
  rw [hsigned digits rfl] at h
  obtain ⟨⟨ds, rest₁⟩, hdigits, h⟩ := Result.bind_eq_ok_iff.mp h
  obtain ⟨⟨m, rest₂⟩, hmagnitude, h⟩ := Result.bind_eq_ok_iff.mp h
  obtain ⟨rfl, rfl⟩ := Prod.mk.inj (Except.ok.inj h)
  obtain ⟨rfl, hne, hds, hrest⟩ := readDigits_eq_ok hdigits
  obtain ⟨rfl, hlocal⟩ := readMagnitude_append_eq_ok hds hrest hmagnitude
  refine ⟨sign, ds, rfl, hne, hds, hrest, fun rest hrest => ?_⟩
  have hhead : (ds ++ rest).head? = (ds ++ rest₂).head? := by
    obtain ⟨d, ds, rfl⟩ := List.exists_cons_of_ne_nil hne
    rfl
  rw [hsigned _ hhead, readDigits_append hne hds hrest, Result.ok_bind, hlocal rest hrest,
    Result.ok_bind]

theorem readExponent_eq_ok {exponent : Option Int}
    (h : readExponent significant cs = .ok (exponent, rest)) :
    exponent = none ∧ cs = rest ∧ (∀ c ∈ rest.head?, c ≠ 'e' ∧ c ≠ 'E') ∨
    ∃ letter sign ds, (letter = 'e' ∨ letter = 'E') ∧ cs = letter :: (sign ++ (ds ++ rest)) ∧
      ds ≠ [] ∧ (∀ c ∈ ds, c.isDigit = true) ∧ NoDigit rest ∧ ∀ rest, NoDigit rest →
        readExponent significant (letter :: (sign ++ (ds ++ rest))) = .ok (exponent, rest) := by
  cases cs with
  | nil =>
    cases h
    exact .inl ⟨rfl, rfl, by simp⟩
  | cons c cs =>
    by_cases hletter : c = 'e' ∨ c = 'E'
    · rw [readExponent, if_pos hletter] at h
      obtain ⟨⟨e, rest'⟩, hsigned, h⟩ := Result.map_eq_ok_iff.mp h
      cases h
      obtain ⟨sign, ds, rfl, hne, hds, hrest, hsigned⟩ := readSigned_eq_ok hsigned
      refine .inr ⟨c, sign, ds, hletter, rfl, hne, hds, hrest, fun rest hrest => ?_⟩
      rw [readExponent, if_pos hletter, hsigned rest hrest]
      rfl
    · rw [readExponent, if_neg hletter] at h
      cases h
      refine .inl ⟨rfl, rfl, ?_⟩
      rintro d ⟨⟩
      exact not_or.mp hletter

/-! ### Numerals -/

theorem readUnsigned_eq_ok (h : readUnsigned isNegative cs = .ok (n, rest)) :
    ∃ whole rest₁ fraction rest₂ exponent, readWhole cs = .ok (whole, rest₁) ∧
      readFraction rest₁ = .ok (fraction, rest₂) ∧
      readExponent ((whole ++ fraction).any (· != '0')) rest₂ = .ok (exponent, rest) ∧
      value? isNegative whole fraction exponent = some n := by
  obtain ⟨⟨whole, rest₁⟩, hwhole, h⟩ := Result.bind_eq_ok_iff.mp h
  obtain ⟨⟨fraction, rest₂⟩, hfraction, h⟩ := Result.bind_eq_ok_iff.mp h
  obtain ⟨⟨exponent, rest₃⟩, hexponent, h⟩ := Result.bind_eq_ok_iff.mp h
  dsimp only at h hexponent
  split at h
  · next m hvalue =>
    obtain ⟨rfl, rfl⟩ := Prod.mk.inj (Except.ok.inj h)
    exact ⟨whole, rest₁, fraction, rest₂, exponent, hwhole, hfraction, hexponent, hvalue⟩
  · cases h

theorem readExponent_none (hletter : ∀ c ∈ rest.head?, c ≠ 'e' ∧ c ≠ 'E') :
    readExponent significant rest = .ok (none, rest) := by
  cases rest with
  | nil => rfl
  | cons c rest => rw [readExponent, if_neg (not_or.mpr (hletter c rfl))]

theorem local_readUnsigned : Local (readUnsigned isNegative) := by
  intro cs rest n h
  obtain ⟨whole, rest₁, fraction, rest₂, exponent, h₁, h₂, h₃, hvalue⟩ := readUnsigned_eq_ok h
  obtain ⟨rfl, hne, hwhole, hleading, hdigit₁⟩ := readWhole_eq_ok h₁
  obtain ⟨rfl, hfraction, hdigit₂, hpoint⟩ := readFraction_eq_ok h₂
  obtain ⟨rfl, rfl, hletter⟩ | ⟨letter, sign, ds, hletter, rfl, hne', hds, hdigit, hlocal⟩ :=
    readExponent_eq_ok h₃
  · by_cases hnil : fraction = []
    · subst hnil
      have hiff (rest : List Char) := @over_whole_iff whole rest hne hwhole
      refine ⟨whole, hne, rfl, (hiff _).mpr ⟨hdigit₁, hletter, hpoint rfl⟩, fun rest hover => ?_⟩
      obtain ⟨hdigit, hletter, hpoint⟩ := (hiff rest).mp hover
      exact readUnsigned_append hne hwhole hleading hfraction hdigit (fun _ => hpoint)
        (readExponent_none hletter) hvalue
    · have hiff (rest : List Char) := @over_fraction_iff fraction rest whole hwhole hnil hfraction
      rw [Spelling.fractionChars_of_ne_nil hnil]
      refine ⟨whole ++ '.' :: fraction, by simp, by simp,
        (hiff _).mpr ⟨hdigit₂ hnil, hletter⟩, fun rest hover => ?_⟩
      obtain ⟨hdigit, hletter⟩ := (hiff rest).mp hover
      rw [← Spelling.fractionChars_of_ne_nil hnil, List.append_assoc]
      exact readUnsigned_append hne hwhole hleading hfraction hdigit (fun h => absurd h hnil)
        (readExponent_none hletter) hvalue
  · have hiff (rest : List Char) := @over_exponent_iff ds rest
      (whole ++ Spelling.fractionChars fraction) sign letter hletter hne' hds
    have hassoc (rest : List Char) :
        whole ++ Spelling.fractionChars fraction ++ letter :: (sign ++ ds) ++ rest =
          whole ++ (Spelling.fractionChars fraction ++ letter :: (sign ++ (ds ++ rest))) := by simp
    refine ⟨_, by simp, (hassoc rest).symm, (hiff rest).mpr hdigit, fun rest hover => ?_⟩
    have hmark : letter.isDigit = false ∧ letter ≠ '.' := by
      rcases hletter with rfl | rfl <;> decide
    rw [hassoc]
    refine readUnsigned_append hne hwhole hleading hfraction ?_ ?_
      (hlocal rest ((hiff rest).mp hover)) hvalue
    · rintro c ⟨⟩
      exact hmark.1
    · rintro - c ⟨⟩
      exact hmark.2

end Numeral

theorem Number.read_of_head_ne {cs : List Char} (h : cs.head? ≠ some '-') :
    read cs = readUnsigned false cs := by
  unfold read
  split
  · exact absurd rfl h
  · rfl

theorem Number.local_read : Local read := by
  intro cs rest n h
  by_cases hminus : cs.head? = some '-'
  · obtain ⟨cs, rfl⟩ := List.head?_eq_some_iff.mp hminus
    obtain ⟨taken, hne, rfl, hover, hlocal⟩ := local_readUnsigned h
    have hiff (rest : List Char) : Over ('-' :: taken) rest ↔ Over taken rest :=
      @over_append_left taken rest ['-'] (by decide) hne
    exact ⟨'-' :: taken, by simp, rfl, (hiff rest).mpr hover,
      fun rest hover => hlocal rest ((hiff rest).mp hover)⟩
  · rw [read_of_head_ne hminus] at h
    obtain ⟨taken, hne, rfl, hover, hlocal⟩ := local_readUnsigned h
    refine ⟨taken, hne, rfl, hover, fun rest hover => ?_⟩
    rw [List.head?_append_of_ne_nil taken hne] at hminus
    rw [read_of_head_ne (by rwa [List.head?_append_of_ne_nil taken hne]), hlocal rest hover]

/-! ### Quoted text -/

namespace Quoted

variable {cs rest : List Char} {c : Char} {unit : Nat}

theorem exists_taken_of_readUnit (h : readUnit cs = .ok (unit, rest)) :
    ∃ taken, cs = taken ++ rest ∧ ∀ rest, readUnit (taken ++ rest) = .ok (unit, rest) := by
  unfold readUnit at h
  split at h
  · next a b c d rest' =>
    cases hunit : hexUnit? a b c d with
    | none =>
      rw [hunit] at h
      cases h
    | some m =>
      rw [hunit] at h
      obtain ⟨rfl, rfl⟩ := Prod.mk.inj (Except.ok.inj h)
      refine ⟨[a, b, c, d], rfl, fun rest => ?_⟩
      show readUnit (a :: b :: c :: d :: rest) = _
      rw [readUnit, hunit]
  · split at h <;> cases h

theorem exists_taken_of_readTrailing {leading : Nat} (h : readTrailing leading cs = .ok (c, rest)) :
    ∃ taken, cs = taken ++ rest ∧ ∀ rest, readTrailing leading (taken ++ rest) = .ok (c, rest) := by
  unfold readTrailing at h
  split at h
  · cases h
  · cases h
  · obtain ⟨⟨unit, rest'⟩, hunit, h⟩ := Result.bind_eq_ok_iff.mp h
    dsimp only at h
    split at h
    · next htrailing =>
      obtain ⟨rfl, rfl⟩ := Prod.mk.inj (Except.ok.inj h)
      obtain ⟨taken, rfl, hlocal⟩ := exists_taken_of_readUnit hunit
      refine ⟨'\\' :: 'u' :: taken, rfl, fun rest => ?_⟩
      rw [List.cons_append, List.cons_append, readTrailing, hlocal, Result.ok_bind]
      dsimp only
      rw [if_pos htrailing]
      rfl
    · cases h
  · cases h
  · cases h

theorem exists_taken_of_readCodePoint (h : readCodePoint cs = .ok (c, rest)) :
    ∃ taken, cs = taken ++ rest ∧ ∀ rest, readCodePoint (taken ++ rest) = .ok (c, rest) := by
  obtain ⟨⟨unit, rest'⟩, hunit, hrest⟩ := Result.bind_eq_ok_iff.mp h
  obtain ⟨taken, rfl, hlocal⟩ := exists_taken_of_readUnit hunit
  dsimp only at hrest
  split at hrest
  · cases hrest
  · next htrailing =>
    split at hrest
    · next hleading =>
      obtain ⟨taken', rfl, hlocal'⟩ := exists_taken_of_readTrailing hrest
      refine ⟨taken ++ taken', by simp, fun rest => ?_⟩
      rw [List.append_assoc, readCodePoint, hlocal, Result.ok_bind]
      dsimp only
      rw [if_neg htrailing, if_pos hleading, hlocal']
    · next hleading =>
      obtain ⟨rfl, rfl⟩ := Prod.mk.inj (Except.ok.inj hrest)
      refine ⟨taken, rfl, fun rest => ?_⟩
      rw [readCodePoint, hlocal, Result.ok_bind]
      dsimp only
      rw [if_neg htrailing, if_neg hleading]
      rfl

theorem exists_taken_of_readEscape (h : readEscape cs = .ok (c, rest)) :
    ∃ taken, cs = taken ++ rest ∧ ∀ rest, readEscape (taken ++ rest) = .ok (c, rest) := by
  unfold readEscape at h
  split at h
  · cases h
  · obtain ⟨taken, rfl, hlocal⟩ := exists_taken_of_readCodePoint h
    exact ⟨'u' :: taken, rfl, hlocal⟩
  · next letter rest' hletter =>
    split at h
    · next d hnamed =>
      obtain ⟨rfl, rfl⟩ := Prod.mk.inj (Except.ok.inj h)
      refine ⟨[letter], rfl, fun rest => ?_⟩
      rw [List.singleton_append, readEscape, hnamed]
      exact hletter
    · cases h

theorem exists_content_of_readFrom {done : List Char} {s : String}
    (h : readFrom done cs = .ok (s, rest)) : ∃ content, cs = content ++ '"' :: rest ∧
      ∀ rest, readFrom done (content ++ '"' :: rest) = .ok (s, rest) := by
  fun_induction readFrom done cs with
  | case1 => cases h
  | case2 done rest' =>
    obtain ⟨rfl, rfl⟩ := Prod.mk.inj (Except.ok.inj h)
    refine ⟨[], rfl, fun rest => ?_⟩
    rw [List.nil_append, readFrom]
  | case3 => cases h
  | case4 done escaped c rest' hescape ih =>
    obtain ⟨content, rfl, hlocal⟩ := ih h
    obtain ⟨taken, rfl, htaken⟩ := exists_taken_of_readEscape hescape
    refine ⟨'\\' :: (taken ++ content), by simp, fun rest => ?_⟩
    rw [List.cons_append, List.append_assoc, readFrom_escaped (htaken _), hlocal]
  | case5 => cases h
  | case6 done c rest' hquote hbackslash hcontrol ih =>
    obtain ⟨content, rfl, hlocal⟩ := ih h
    refine ⟨c :: content, rfl, fun rest => ?_⟩
    rw [List.cons_append, readFrom_plain hquote hbackslash hcontrol, hlocal]

end Quoted

/-! ### Scalars and keys -/

variable {cs rest : List Char} {n : Node}

theorem readWord_eq_ok_iff {word : List Char} :
    readWord word cs = .ok rest ↔ cs = word ++ rest := by
  induction word generalizing cs with
  | nil => simp [readWord]
  | cons w word ih =>
    cases cs with
    | nil => simp [readWord]
    | cons c cs =>
      rw [readWord]
      split
      · next hc => rw [ih, hc, List.cons_append, List.cons.injEq, and_iff_right rfl]
      · next hc => exact iff_of_false (by simp) fun h => hc (List.cons.inj h).1

theorem exists_taken_of_word {first : Char} {word : List Char} {v : Node}
    (hread : ∀ rest, readScalar (first :: rest) = (readWord word rest).map (v, ·))
    (hlast : ∀ d ∈ (first :: word).getLast?, d.isDigit = false)
    (h : (readWord word cs).map (v, ·) = .ok (n, rest)) :
    ∃ taken, taken ≠ [] ∧ first :: cs = taken ++ rest ∧ Over taken rest ∧
      ∀ rest, Over taken rest → readScalar (taken ++ rest) = .ok (n, rest) := by
  obtain ⟨rest', hword, he⟩ := Result.map_eq_ok_iff.mp h
  obtain ⟨rfl, rfl⟩ := Prod.mk.inj he
  obtain rfl := readWord_eq_ok_iff.mp hword
  refine ⟨first :: word, by simp, rfl, over_of_getLast? hlast, fun rest _ => ?_⟩
  rw [List.cons_append, hread, readWord_eq_ok_iff.mpr rfl]
  rfl

theorem local_readScalar : Local readScalar := by
  intro cs rest n h
  unfold readScalar at h
  split at h
  · exact exists_taken_of_word (fun _ => rfl) (by rintro d ⟨⟩; rfl) h
  · exact exists_taken_of_word (fun _ => rfl) (by rintro d ⟨⟩; rfl) h
  · exact exists_taken_of_word (fun _ => rfl) (by rintro d ⟨⟩; rfl) h
  · obtain ⟨⟨s, rest'⟩, hread, he⟩ := Result.map_eq_ok_iff.mp h
    obtain ⟨rfl, rfl⟩ := Prod.mk.inj he
    obtain ⟨content, rfl, hlocal⟩ := Quoted.exists_content_of_readFrom hread
    have hlast : ∀ d ∈ ('"' :: (content ++ ['"'])).getLast?, d.isDigit = false := by
      rw [← List.cons_append, List.getLast?_concat]
      rintro d ⟨⟩
      rfl
    refine ⟨'"' :: (content ++ ['"']), by simp, by simp, over_of_getLast? hlast, fun rest _ => ?_⟩
    have hcontent : Quoted.read (content ++ '"' :: rest) = .ok (s, rest) := hlocal rest
    rw [List.cons_append, List.append_assoc, List.singleton_append, readScalar, hcontent]
    rfl
  · next c rest' _ _ _ _ =>
    split at h
    · next hc =>
      obtain ⟨⟨m, rest''⟩, hread, he⟩ := Result.map_eq_ok_iff.mp h
      obtain ⟨rfl, rfl⟩ := Prod.mk.inj he
      obtain ⟨taken, hne, heq, hover, hlocal⟩ := Number.local_read hread
      obtain ⟨d, taken, rfl⟩ := List.exists_cons_of_ne_nil hne
      obtain ⟨rfl, -⟩ := List.cons.inj heq
      refine ⟨c :: taken, hne, heq, hover, fun rest hover => ?_⟩
      rw [List.cons_append, Node.readScalar_number hc, ← List.cons_append, hlocal rest hover]
      rfl
    · cases h
  · cases h

theorem skipBlanks_append {blanks : List Char} (hblanks : ∀ b ∈ blanks, isBlank b = true)
    (rest : List Char) : skipBlanks (blanks ++ rest) = skipBlanks rest :=
  List.dropWhile_append_of_pos hblanks

theorem exists_blanks {c : Char} (h : skipBlanks cs = c :: rest) :
    ∃ blanks, (∀ b ∈ blanks, isBlank b = true) ∧ cs = blanks ++ c :: rest ∧
      ∀ rest, skipBlanks (blanks ++ c :: rest) = c :: rest := by
  have hc : isBlank c = false := head_dropWhile cs c (by rw [← skipBlanks, h]; rfl)
  have hblanks : ∀ b ∈ cs.takeWhile isBlank, isBlank b = true :=
    fun b hb => List.mem_takeWhile_imp hb
  refine ⟨cs.takeWhile isBlank, hblanks, ?_, fun rest => ?_⟩
  · rw [← h]
    exact List.takeWhile_append_dropWhile.symm
  · rw [skipBlanks_append hblanks, skipBlanks_cons hc]

namespace Reader

theorem exists_taken_of_readKey {below : List Frame} {key : String}
    (h : readKey below cs = .ok (key, rest)) :
    ∃ taken, taken ≠ [] ∧ cs = taken ++ rest ∧
      ∀ rest, readKey below (taken ++ rest) = .ok (key, rest) := by
  unfold readKey at h
  split at h
  · next rest₁ =>
    split at h
    · cases h
    · next key' rest₂ hread =>
      split at h
      · cases h
      · next rest₃ hcolon =>
        obtain ⟨rfl, rfl⟩ := Prod.mk.inj (Except.ok.inj h)
        obtain ⟨blanks, -, rfl, hblanks⟩ := exists_blanks hcolon
        obtain ⟨content, rfl, hlocal⟩ := Quoted.exists_content_of_readFrom hread
        refine ⟨'"' :: (content ++ '"' :: (blanks ++ [':'])), by simp, by simp, fun rest => ?_⟩
        have hcontent : Quoted.read (content ++ '"' :: (blanks ++ ':' :: rest)) =
          .ok (key', blanks ++ ':' :: rest) := hlocal _
        simp only [List.cons_append, List.append_assoc, List.nil_append]
        rw [readKey, hcontent]
        simp only [hblanks]
      · cases h
  · cases h

end Reader

end ConfigSchema
