import ConfigSchema.Json.Numeral
import ConfigSchema.Proofs.Json.Digits
import ConfigSchema.Proofs.Result

/-!
# Numerals are read back

A `Spelling` is what JSON allows as the parts of a numeral. Whatever follows it, as long as it is
not a further character of a numeral, the parts are found again (`Spelling.readUnsigned_chars`), so
the number that is read is the one that they denote.
-/

namespace ConfigSchema

namespace Numeral

/-- Nothing that could belong to a numeral comes next. -/
def Ends (cs : List Char) : Prop :=
  ∀ c ∈ cs.head?, c.isDigit = false ∧ c ≠ '.' ∧ c ≠ 'e' ∧ c ≠ 'E'

theorem Ends.cons {c : Char} {cs : List Char}
    (hc : c.isDigit = false ∧ c ≠ '.' ∧ c ≠ 'e' ∧ c ≠ 'E') : Ends (c :: cs) := by
  intro d hd
  cases hd
  exact hc

/-- The parts of a numeral without its sign. The exponent is one that the reader can hold. -/
structure Spelling where
  whole : List Char
  fraction : List Char
  exponent : Option Int
  whole_ne_nil : whole ≠ []
  whole_digits : ∀ c ∈ whole, c.isDigit = true
  leading : whole.head? = some '0' → whole = ['0']
  fraction_digits : ∀ c ∈ fraction, c.isDigit = true
  exponent_lt : ∀ e ∈ exponent, e.natAbs < 0x80000000

namespace Spelling

/-- A fraction with its point; without digits there is none. -/
def fractionChars : List Char → List Char
  | [] => []
  | c :: cs => '.' :: c :: cs

def signChars (exponent : Int) : List Char := if exponent < 0 then ['-'] else ['+']

theorem fractionChars_of_ne_nil {ds : List Char} (h : ds ≠ []) : fractionChars ds = '.' :: ds := by
  obtain ⟨d, ds, rfl⟩ := List.exists_cons_of_ne_nil h
  rfl

def exponentChars : Option Int → List Char
  | none => []
  | some e => 'e' :: signChars e ++ Nat.toDigits 10 e.natAbs

def chars (s : Spelling) : List Char :=
  s.whole ++ (fractionChars s.fraction ++ exponentChars s.exponent)

end Spelling

variable {ds rest : List Char}

theorem takeWhile_isDigit_append (hds : ∀ c ∈ ds, c.isDigit = true)
    (hrest : ∀ c ∈ rest.head?, c.isDigit = false) :
    (ds ++ rest).takeWhile Char.isDigit = ds ∧ (ds ++ rest).dropWhile Char.isDigit = rest := by
  rw [List.takeWhile_append_of_pos hds, List.dropWhile_append_of_pos hds]
  cases rest with
  | nil => simp
  | cons c rest =>
    have hc : ¬ c.isDigit = true := by simpa using hrest c rfl
    rw [List.takeWhile_cons_of_neg hc, List.dropWhile_cons_of_neg hc, List.append_nil]
    exact ⟨rfl, rfl⟩

theorem readDigits_append (hne : ds ≠ []) (hds : ∀ c ∈ ds, c.isDigit = true)
    (hrest : ∀ c ∈ rest.head?, c.isDigit = false) : readDigits (ds ++ rest) = .ok (ds, rest) := by
  obtain ⟨htake, hdrop⟩ := takeWhile_isDigit_append hds hrest
  obtain ⟨d, ds, rfl⟩ := List.exists_cons_of_ne_nil hne
  rw [readDigits, htake, hdrop]

theorem readMagnitude_append {bounded : Bool} {soFar : Nat} (hds : ∀ c ∈ ds, c.isDigit = true)
    (hrest : ∀ c ∈ rest.head?, c.isDigit = false)
    (hlt : Nat.ofDigitChars 10 ds soFar < 0x80000000) :
    readMagnitude bounded soFar (ds ++ rest) = .ok (Nat.ofDigitChars 10 ds soFar, rest) := by
  induction ds generalizing soFar with
  | nil =>
    cases rest with
    | nil => rfl
    | cons c rest =>
      have hc : c.isDigit = false := hrest c rfl
      rw [List.nil_append, readMagnitude, hc]
      rfl
  | cons d ds ih =>
    obtain ⟨hd, hds⟩ := List.forall_mem_cons.mp hds
    rw [Nat.ofDigitChars_cons, Nat.mul_comm] at hlt ⊢
    -- the digits still to come only add to the exponent
    have hle : soFar * 10 + (d.toNat - '0'.toNat) < 0x80000000 := by
      rw [Nat.ofDigitChars_eq_ofDigitChars_zero] at hlt
      have := Nat.le_mul_of_pos_left (soFar * 10 + (d.toNat - '0'.toNat))
        (Nat.pow_pos (n := ds.length) (by decide : 0 < 10))
      omega
    rw [List.cons_append, readMagnitude, if_pos hd, if_pos hle, ih hds hlt]

theorem readSigned_plus (significant : Bool) (cs : List Char) :
    readSigned significant ('+' :: cs) = readDigits cs >>= fun _ =>
      readMagnitude significant 0 cs >>= fun r => .ok ((r.1 : Int), r.2) := by
  cases significant <;> rfl

theorem readSigned_minus (significant : Bool) (cs : List Char) :
    readSigned significant ('-' :: cs) = readDigits cs >>= fun _ =>
      readMagnitude false 0 cs >>= fun r => .ok (-(r.1 : Int), r.2) := by
  cases significant <;> rfl

theorem readSigned_append {significant : Bool} {e : Int} (he : e.natAbs < 0x80000000)
    (hrest : ∀ c ∈ rest.head?, c.isDigit = false) :
    readSigned significant (Spelling.signChars e ++ Nat.toDigits 10 e.natAbs ++ rest) =
      .ok (e, rest) := by
  have hds : ∀ c ∈ Nat.toDigits 10 e.natAbs, c.isDigit = true := fun _ => Digits.isDigit_of_mem
  have hdigits := readDigits_append Nat.toDigits_ne_nil hds hrest
  have hmagnitude (bounded : Bool) : readMagnitude bounded 0 (Nat.toDigits 10 e.natAbs ++ rest) =
      .ok (e.natAbs, rest) := by
    rw [readMagnitude_append hds hrest, Nat.ofDigitChars_ten_toDigits]
    rw [Nat.ofDigitChars_ten_toDigits]
    exact he
  rw [List.append_assoc]
  rcases Int.lt_or_le e 0 with hneg | hneg
  · have hsign : Spelling.signChars e = ['-'] := if_pos hneg
    have hvalue : -(e.natAbs : Int) = e := by omega
    rw [hsign, List.singleton_append, readSigned_minus, hdigits, Result.ok_bind, hmagnitude,
      Result.ok_bind, hvalue]
  · have hsign : Spelling.signChars e = ['+'] := if_neg (Int.not_lt.mpr hneg)
    have hvalue : (e.natAbs : Int) = e := by omega
    rw [hsign, List.singleton_append, readSigned_plus, hdigits, Result.ok_bind, hmagnitude,
      Result.ok_bind, hvalue]

theorem readWhole_append (hne : ds ≠ []) (hds : ∀ c ∈ ds, c.isDigit = true)
    (hleading : ds.head? = some '0' → ds = ['0'])
    (hrest : ∀ c ∈ rest.head?, c.isDigit = false) : readWhole (ds ++ rest) = .ok (ds, rest) := by
  have hdigits := readDigits_append hne hds hrest
  obtain ⟨d, ds, rfl⟩ := List.exists_cons_of_ne_nil hne
  by_cases hzero : d = '0'
  · cases hzero
    cases hleading rfl
    have hnone := (@takeWhile_isDigit_append [] _ (by simp) hrest).1
    rw [List.nil_append] at hnone
    simp [readWhole, hnone]
  · rw [List.cons_append, readWhole, ← List.cons_append, hdigits]
    intro _ h
    exact hzero (List.cons.inj h).1

theorem readFraction_append (hds : ∀ c ∈ ds, c.isDigit = true)
    (hrest : ∀ c ∈ rest.head?, c.isDigit = false) (hpoint : ds = [] → ∀ c ∈ rest.head?, c ≠ '.') :
    readFraction (Spelling.fractionChars ds ++ rest) = .ok (ds, rest) := by
  cases ds with
  | nil =>
    show readFraction rest = _
    unfold readFraction
    split
    · exact absurd rfl (hpoint rfl '.' rfl)
    · rfl
  | cons d ds => exact readDigits_append (List.cons_ne_nil d ds) hds hrest

theorem readExponent_append {significant : Bool} {exponent : Option Int}
    (he : ∀ e ∈ exponent, e.natAbs < 0x80000000) (hrest : Ends rest) :
    readExponent significant (Spelling.exponentChars exponent ++ rest) = .ok (exponent, rest) := by
  cases exponent with
  | none =>
    show readExponent significant rest = _
    cases rest with
    | nil => rfl
    | cons c rest =>
      obtain ⟨-, -, hlower, hupper⟩ := hrest c rfl
      rw [readExponent, if_neg (not_or.mpr ⟨hlower, hupper⟩)]
  | some e =>
    have hsigned := @readSigned_append rest significant e (he e rfl) fun c hc => (hrest c hc).1
    show readExponent significant ('e' :: (Spelling.signChars e ++ _ ++ rest)) = _
    rw [readExponent, if_pos (.inl rfl), hsigned]
    rfl

theorem head_exponentChars {exponent : Option Int} (hrest : Ends rest) :
    ∀ c ∈ (Spelling.exponentChars exponent ++ rest).head?, c.isDigit = false ∧ c ≠ '.' := by
  intro c hc
  cases exponent with
  | none => exact ⟨(hrest c hc).1, (hrest c hc).2.1⟩
  | some e =>
    cases hc
    decide

theorem head_fractionChars (hrest : ∀ c ∈ rest.head?, c.isDigit = false) :
    ∀ c ∈ (Spelling.fractionChars ds ++ rest).head?, c.isDigit = false := by
  intro c hc
  cases ds with
  | nil => exact hrest c hc
  | cons d ds =>
    cases hc
    decide

theorem readUnsigned_append {whole fraction rest' : List Char} {exponent : Option Int} {n : Number}
    {isNegative : Bool} (hne : whole ≠ []) (hwhole : ∀ c ∈ whole, c.isDigit = true)
    (hleading : whole.head? = some '0' → whole = ['0'])
    (hfraction : ∀ c ∈ fraction, c.isDigit = true) (hrest : ∀ c ∈ rest.head?, c.isDigit = false)
    (hpoint : fraction = [] → ∀ c ∈ rest.head?, c ≠ '.')
    (hexponent : readExponent ((whole ++ fraction).any (· != '0')) rest = .ok (exponent, rest'))
    (hvalue : value? isNegative whole fraction exponent = some n) :
    readUnsigned isNegative (whole ++ (Spelling.fractionChars fraction ++ rest)) =
      .ok (n, rest') := by
  rw [readUnsigned, readWhole_append hne hwhole hleading (head_fractionChars hrest), Result.ok_bind]
  dsimp only
  rw [readFraction_append hfraction hrest hpoint, Result.ok_bind]
  dsimp only
  rw [hexponent, Result.ok_bind]
  dsimp only
  rw [hvalue]
  rfl

namespace Spelling

variable {n : Number} {isNegative : Bool}

theorem readUnsigned_chars (s : Spelling) (hrest : Ends rest)
    (hvalue : value? isNegative s.whole s.fraction s.exponent = some n) :
    readUnsigned isNegative (s.chars ++ rest) = .ok (n, rest) := by
  have hhead := @head_exponentChars rest s.exponent hrest
  rw [chars, List.append_assoc, List.append_assoc]
  exact readUnsigned_append s.whole_ne_nil s.whole_digits s.leading s.fraction_digits
    (fun c hc => (hhead c hc).1) (fun _ c hc => (hhead c hc).2)
    (readExponent_append s.exponent_lt hrest) hvalue

/-- A numeral is read as the number that its parts denote. -/
theorem read_chars (s : Spelling) (hrest : Ends rest)
    (hvalue : value? isNegative s.whole s.fraction s.exponent = some n) :
    Number.read ((if isNegative then ['-'] else []) ++ s.chars ++ rest) = .ok (n, rest) := by
  have hread := s.readUnsigned_chars hrest hvalue
  cases isNegative with
  | true => exact hread
  | false =>
    show Number.read (s.chars ++ rest) = _
    obtain ⟨c, cs, hwhole⟩ := List.exists_cons_of_ne_nil s.whole_ne_nil
    have hc : c.isDigit = true := s.whole_digits c (hwhole ▸ List.mem_cons_self ..)
    rw [chars, hwhole, List.cons_append, List.cons_append] at hread ⊢
    rw [Number.read, hread]
    rintro rest' h
    cases (List.cons.inj h).1
    cases hc

end Spelling

end Numeral

end ConfigSchema
