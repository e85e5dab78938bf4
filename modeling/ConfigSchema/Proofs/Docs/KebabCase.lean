import ConfigSchema.Docs.Naming
import ConfigSchema.Proofs.Text.Case

/-!
# Kebab case

A text is in kebab case if its letters are small and it has no underscore. Kebab case leads to such
texts only and leaves them as they are (`kebab_eq_self_iff`), so it is a projection.

An ASCII character has one image. `Spread` says where it stands, namely as far behind the place of
the character as there are capitals up to it, not counting a leading one: each of them has a dash in
front of its image. What is left without these dashes is the identifier in small letters.

Both are shown character by character: `kebabChars_concat` says what one more character adds to the
end, so that nothing in front of it moves.
-/

namespace ConfigSchema

namespace Naming

variable {c d x : Char} {cs out : List Char} {i place : Nat} {identifier : String}

/-! ### One more character -/

def kebabChars : List Char → List Char
  | [] => []
  | c :: rest => kebabChar c ++ kebabRest rest

theorem toList_kebab (identifier : String) :
    (kebab identifier).toList = kebabChars identifier.toList := by
  unfold kebab
  split
  · next h =>
    rw [h]
    rfl
  · next h =>
    rw [h, String.toList_ofList]
    rfl

/-- What stands in front of the image of a character that follows others. -/
def dashBefore (before : List Char) (c : Char) : List Char :=
  if before ≠ [] ∧ c.isUpper = true then ['-'] else []

theorem kebabChars_concat (cs : List Char) (c : Char) :
    kebabChars (cs ++ [c]) = kebabChars cs ++ dashBefore cs c ++ kebabChar c := by
  unfold dashBefore
  cases cs with
  | nil => simp [kebabChars, kebabRest]
  | cons b cs =>
    by_cases hc : c.isUpper = true
    · simp [kebabChars, kebabRest, hc]
    · simp [kebabChars, kebabRest, hc]

/-! ### Texts in kebab case -/

def IsKebabChar (c : Char) : Prop := c ≠ '_' ∧ lowerChar c = [c]

def IsKebab (text : String) : Prop := ∀ c ∈ text.toList, IsKebabChar c

theorem isKebabChar_dash : IsKebabChar '-' := ⟨by decide, lowerChar_of_ascii (by decide)⟩

theorem IsKebabChar.kebabChar_eq (hc : IsKebabChar c) : kebabChar c = [c] := by
  rw [kebabChar, if_neg hc.1, hc.2]

theorem IsKebabChar.dashBefore_eq (hc : IsKebabChar c) : dashBefore cs c = [] := by
  rw [dashBefore, isUpper_of_lowerChar hc.2]
  exact if_neg fun h => Bool.false_ne_true h.2

theorem isKebabChar_of_mem_kebabChar (h : d ∈ kebabChar c) : IsKebabChar d := by
  unfold kebabChar at h
  split at h
  · rw [List.mem_singleton.mp h]
    exact isKebabChar_dash
  · next hc =>
    refine ⟨fun hd => hc ?_, lowerChar_of_mem h⟩
    rw [← eq_of_mem_lowerChar h (by rw [hd]; decide), hd]

theorem eq_of_mem_dashBefore (h : d ∈ dashBefore cs c) : d = '-' := by
  unfold dashBefore at h
  split at h
  · exact List.mem_singleton.mp h
  · cases h

theorem isKebabChar_of_mem_kebabChars (h : d ∈ kebabChars cs) : IsKebabChar d := by
  induction cs using List.reverseRecOn with
  | nil => cases h
  | append_singleton cs c ih =>
    rw [kebabChars_concat, List.mem_append, List.mem_append] at h
    obtain (h | h) | h := h
    · exact ih h
    · rw [eq_of_mem_dashBefore h]
      exact isKebabChar_dash
    · exact isKebabChar_of_mem_kebabChar h

theorem kebabChars_of_forall (h : ∀ c ∈ cs, IsKebabChar c) : kebabChars cs = cs := by
  induction cs using List.reverseRecOn with
  | nil => rfl
  | append_singleton cs c ih =>
    obtain ⟨hcs, hc⟩ := List.forall_mem_append.mp h
    have hc : IsKebabChar c := hc c List.mem_cons_self
    rw [kebabChars_concat, ih hcs, hc.dashBefore_eq, hc.kebabChar_eq, List.append_nil]

theorem isKebab_kebab (identifier : String) : IsKebab (kebab identifier) := by
  intro d hd
  rw [toList_kebab] at hd
  exact isKebabChar_of_mem_kebabChars hd

/-- The texts that kebab case leaves as they are. -/
theorem kebab_eq_self_iff : kebab identifier = identifier ↔ IsKebab identifier := by
  constructor
  · intro h
    exact h ▸ isKebab_kebab identifier
  · intro h
    rw [← String.toList_inj, toList_kebab]
    exact kebabChars_of_forall h

/-! ### Places in ASCII -/

/-- An ASCII character in kebab case. -/
def asciiImage (c : Char) : Char := if c = '_' then '-' else c.toLower

/-- How many dashes the characters bring along: one for each capital but a leading one. -/
def dashCount (cs : List Char) : Nat := cs.tail.countP Char.isUpper

/-- The character at `i` is `c`, and its image stands at `place`, moved by the dashes that the
characters up to it bring along. -/
def ImageAt (cs : List Char) (i : Nat) (c : Char) (place : Nat) : Prop :=
  cs[i]? = some c ∧ place = i + dashCount (cs.take (i + 1))

/-- The image of a capital that does not lead comes directly behind `place`. -/
def Inserted (cs : List Char) (place : Nat) : Prop :=
  ∃ i c, ImageAt cs i c (place + 1) ∧ 0 < i ∧ c.isUpper = true

theorem inserted_iff : Inserted cs place ↔ ∃ i < cs.length, 0 < i ∧
    cs[i]?.any Char.isUpper = true ∧ place + 1 = i + dashCount (cs.take (i + 1)) := by
  constructor
  · rintro ⟨i, c, ⟨hc, hplace⟩, hi, hupper⟩
    exact ⟨i, (List.getElem?_eq_some_iff.mp hc).1, hi, by rw [hc]; exact hupper, hplace⟩
  · rintro ⟨i, -, hi, hupper, hplace⟩
    obtain ⟨c, hc, hupper⟩ := (Option.any_eq_true _ _).mp hupper
    exact ⟨i, c, ⟨hc, hplace⟩, hi, hupper⟩

instance : DecidablePred (Inserted cs) := fun _ => decidable_of_iff' _ inserted_iff

/-- The characters of `out` but those at the places of inserted dashes. -/
def withoutInserted (cs out : List Char) : List Char :=
  (out.zipIdx.filter fun p => ¬ Inserted cs p.2).map Prod.fst

/-- `out` has the image of every character of `cs` and the inserted dashes. There is no other dash
in it, and nothing but the images is left without the inserted ones. -/
structure Spread (cs out : List Char) : Prop where
  length : out.length = cs.length + dashCount cs
  image : ∀ i c place, ImageAt cs i c place → out[place]? = some (asciiImage c)
  dash_iff : ∀ place, out[place]? = some '-' ↔
    (∃ i c, ImageAt cs i c place ∧ (c = '-' ∨ c = '_')) ∨ Inserted cs place
  rest : withoutInserted cs out = cs.map asciiImage

theorem asciiImage_eq_dash_iff : asciiImage c = '-' ↔ c = '-' ∨ c = '_' := by
  unfold asciiImage
  split
  · next hc => simp [hc]
  · next hc =>
    by_cases hupper : c.isUpper = true
    · have hlower : c.toLower.isLower = true := by
        rw [Char.isLower_toLower_eq_isAlpha, Char.isAlpha, hupper, Bool.true_or]
      constructor
      · intro h
        rw [h] at hlower
        cases hlower
      · rintro (rfl | rfl) <;> cases hupper
    · rw [Char.toLower_eq_of_not_isUpper hupper]
      simp [hc]

theorem getElem?_concat_eq_some_iff :
    (cs ++ [c])[i]? = some x ↔ cs[i]? = some x ∨ i = cs.length ∧ x = c := by
  rw [List.getElem?_append]
  split
  · next h => simp [Nat.ne_of_lt h]
  · next h =>
    rw [List.getElem?_eq_none (Nat.le_of_not_lt h), List.getElem?_singleton]
    split
    · have hi : i = cs.length := by omega
      simp [hi, eq_comm]
    · have hi : i ≠ cs.length := by omega
      simp [hi]

theorem getElem?_append_dashBefore_iff : (out ++ dashBefore cs c)[place]? = some '-' ↔
    out[place]? = some '-' ∨ (cs ≠ [] ∧ c.isUpper = true) ∧ place = out.length := by
  unfold dashBefore
  split
  · next h => simp [getElem?_concat_eq_some_iff, h]
  · next h => simp [h]

theorem dashCount_concat : dashCount (cs ++ [c]) = dashCount cs + (dashBefore cs c).length := by
  unfold dashCount dashBefore
  cases cs with
  | nil => rfl
  | cons b cs =>
    rw [List.cons_append, List.tail_cons, List.tail_cons, List.countP_append, List.countP_singleton]
    by_cases hc : c.isUpper = true
    · rw [if_pos hc, if_pos ⟨List.cons_ne_nil _ _, hc⟩]
      rfl
    · rw [if_neg hc, if_neg fun h => hc h.2]
      rfl

theorem ImageAt.lt (h : ImageAt cs i c place) : place < cs.length + dashCount cs := by
  obtain ⟨hc, rfl⟩ := h
  have hi := (List.getElem?_eq_some_iff.mp hc).1
  have hcount : dashCount (cs.take (i + 1)) ≤ dashCount cs :=
    (List.take_sublist _ _).tail.countP_le
  omega

theorem imageAt_concat : ImageAt (cs ++ [c]) i x place ↔ ImageAt cs i x place ∨
    (i = cs.length ∧ x = c) ∧ place = cs.length + dashCount (cs ++ [c]) := by
  unfold ImageAt
  rw [getElem?_concat_eq_some_iff, or_and_right]
  refine or_congr (and_congr_right fun hx => ?_) (and_congr_right fun h => ?_)
  · have hi := (List.getElem?_eq_some_iff.mp hx).1
    rw [List.take_append_of_le_length hi]
  · rw [h.1, List.take_of_length_le (by simp)]

theorem exists_imageAt_concat {p : Char → Prop} :
    (∃ i x, ImageAt (cs ++ [c]) i x place ∧ p x) ↔
      (∃ i x, ImageAt cs i x place ∧ p x) ∨ place = cs.length + dashCount (cs ++ [c]) ∧ p c := by
  simp only [imageAt_concat, or_and_right, exists_or]
  refine or_congr_right ⟨?_, ?_⟩
  · rintro ⟨i, x, ⟨⟨-, rfl⟩, hplace⟩, hx⟩
    exact ⟨hplace, hx⟩
  · rintro ⟨hplace, hc⟩
    exact ⟨_, _, ⟨⟨rfl, rfl⟩, hplace⟩, hc⟩

theorem inserted_concat : Inserted (cs ++ [c]) place ↔
    Inserted cs place ∨ (cs ≠ [] ∧ c.isUpper = true) ∧ place = cs.length + dashCount cs := by
  have hcount (h : cs ≠ [] ∧ c.isUpper = true) :
      cs.length + dashCount (cs ++ [c]) = cs.length + dashCount cs + 1 := by
    rw [dashCount_concat, dashBefore, if_pos h]
    rfl
  constructor
  · rintro ⟨i, x, himage, hi, hupper⟩
    obtain himage | ⟨⟨rfl, rfl⟩, hplace⟩ := imageAt_concat.mp himage
    · exact .inl ⟨i, x, himage, hi, hupper⟩
    · have hc : cs ≠ [] ∧ x.isUpper = true := ⟨List.length_pos_iff.mp hi, hupper⟩
      rw [hcount hc] at hplace
      exact .inr ⟨hc, Nat.succ_inj.mp hplace⟩
  · rintro (⟨i, x, himage, hi, hupper⟩ | ⟨hc, rfl⟩)
    · exact ⟨i, x, imageAt_concat.mpr (.inl himage), hi, hupper⟩
    · exact ⟨_, c, imageAt_concat.mpr (.inr ⟨⟨rfl, rfl⟩, (hcount hc).symm⟩),
        List.length_pos_iff.mpr hc.1, hc.2⟩

theorem Inserted.lt (h : Inserted cs place) : place + 1 < cs.length + dashCount cs := by
  obtain ⟨i, c, himage, -, -⟩ := h
  exact himage.lt

theorem withoutInserted_concat (h : out.length = cs.length + dashCount cs) :
    withoutInserted (cs ++ [c]) (out ++ dashBefore cs c ++ [x]) = withoutInserted cs out ++ [x] := by
  have hout : (out.zipIdx.filter fun p => ¬ Inserted (cs ++ [c]) p.2) =
      out.zipIdx.filter fun p => ¬ Inserted cs p.2 := by
    refine List.filter_congr fun p hp => ?_
    have hlt := List.snd_lt_of_mem_zipIdx hp
    rw [decide_eq_decide, not_iff_not, inserted_concat, or_iff_left]
    omega
  have hdash : (((dashBefore cs c).zipIdx out.length).filter fun p =>
      ¬ Inserted (cs ++ [c]) p.2) = [] := by
    refine List.filter_eq_nil_iff.mpr fun p hp => ?_
    rw [decide_eq_true_eq, not_not, inserted_concat]
    unfold dashBefore at hp
    split at hp
    · next hc =>
      rw [List.mem_singleton.mp hp]
      exact .inr ⟨hc, h⟩
    · cases hp
  -- the image itself is the last character, so no image comes behind it
  have hlast : ([(x, (out ++ dashBefore cs c).length)].filter fun p =>
      ¬ Inserted (cs ++ [c]) p.2) = [(x, (out ++ dashBefore cs c).length)] := by
    refine List.filter_cons_of_pos (decide_eq_true fun hinserted => ?_)
    have hlt := hinserted.lt
    rw [dashCount_concat] at hlt
    simp only [List.length_append, List.length_singleton] at hlt
    omega
  rw [withoutInserted, List.zipIdx_append, List.zipIdx_append, List.filter_append,
    List.filter_append, Nat.zero_add, Nat.zero_add, List.zipIdx_singleton, hout, hdash, hlast,
    List.append_nil, List.map_append]
  rfl

theorem Spread.concat (h : Spread cs out) (c : Char) :
    Spread (cs ++ [c]) (out ++ dashBefore cs c ++ [asciiImage c]) := by
  have hlength : cs.length + dashCount (cs ++ [c]) = (out ++ dashBefore cs c).length := by
    rw [dashCount_concat, List.length_append, h.length, Nat.add_assoc]
  constructor
  · rw [List.length_append, ← hlength]
    simp only [List.length_append, List.length_singleton]
    omega
  -- images in front of the new one have not moved
  · intro i x place himage
    obtain himage | ⟨⟨-, rfl⟩, hplace⟩ := imageAt_concat.mp himage
    · rw [List.append_assoc, List.getElem?_append_left (h.length ▸ himage.lt)]
      exact h.image i x place himage
    · rw [hplace, hlength, List.getElem?_concat_length]
  · intro place
    rw [getElem?_concat_eq_some_iff, getElem?_append_dashBefore_iff, h.dash_iff, inserted_concat,
      exists_imageAt_concat, hlength, h.length, eq_comm (a := '-'), asciiImage_eq_dash_iff]
    exact (or_congr_left or_assoc).trans or_right_comm
  · rw [withoutInserted_concat h.length, h.rest, List.map_append]
    rfl

theorem spread_nil : Spread [] [] where
  length := rfl
  image := by
    rintro i c place ⟨hc, -⟩
    cases hc
  dash_iff place := by simp [Inserted, ImageAt]
  rest := rfl

theorem kebabChar_of_ascii (hc : c.toNat < 0x80) : kebabChar c = [asciiImage c] := by
  unfold kebabChar asciiImage
  split
  · rfl
  · exact lowerChar_of_ascii hc

theorem spread_kebabChars (h : ∀ c ∈ cs, c.toNat < 0x80) : Spread cs (kebabChars cs) := by
  induction cs using List.reverseRecOn with
  | nil => exact spread_nil
  | append_singleton cs c ih =>
    obtain ⟨hcs, hc⟩ := List.forall_mem_append.mp h
    rw [kebabChars_concat, kebabChar_of_ascii (hc c List.mem_cons_self)]
    exact (ih hcs).concat c

/-- Kebab case is a projection: it has no capitals of ASCII and no underscores, and nothing changes
if it is applied again. An identifier in ASCII is only spread by dashes in front of its capitals. -/
theorem kebab_projection (identifier : String) :
    (∀ c ∈ (kebab identifier).toList, c.isUpper = false ∧ c ≠ '_') ∧
      kebab (kebab identifier) = kebab identifier ∧
        ((∀ c ∈ identifier.toList, c.toNat < 0x80) →
          Spread identifier.toList (kebab identifier).toList) := by
  have hkebab := isKebab_kebab identifier
  refine ⟨fun c hc => ?_, kebab_eq_self_iff.mpr hkebab, fun hascii => ?_⟩
  · obtain ⟨hne, hsmall⟩ := hkebab c hc
    exact ⟨isUpper_of_lowerChar hsmall, hne⟩
  · rw [toList_kebab]
    exact spread_kebabChars hascii

/-- A leading capital, two acronyms, and an underscore in front of a capital. -/
theorem kebab_projection_acronyms :
    (∀ c ∈ "PyPI_URLs-2".toList, c.toNat < 0x80) ∧
      kebab "PyPI_URLs-2" = "py-p-i--u-r-ls-2" ∧
      Spread "PyPI_URLs-2".toList "py-p-i--u-r-ls-2".toList ∧
      withoutInserted "PyPI_URLs-2".toList "py-p-i--u-r-ls-2".toList = "pypi-urls-2".toList := by
  have hascii : ∀ c ∈ "PyPI_URLs-2".toList, c.toNat < 0x80 := by simp
  have hkebab : kebab "PyPI_URLs-2" = "py-p-i--u-r-ls-2" := by decide +kernel
  have hspread := (kebab_projection "PyPI_URLs-2").2.2 hascii
  rw [hkebab] at hspread
  exact ⟨hascii, hkebab, hspread, hspread.rest.trans (by decide +kernel)⟩

end Naming

end ConfigSchema
