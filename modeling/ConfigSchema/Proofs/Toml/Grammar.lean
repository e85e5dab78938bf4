import ConfigSchema.Json.Quoted

/-!
# Strings and keys of TOML

The part of TOML's grammar that a snippet needs: basic strings, keys, dotted keys and the headers of
tables, as relations between what is written and what it stands for. None of them is ambiguous, also
in front of further text: whatever is written stands for one thing only (`BasicString.unique`,
`SimpleKey.unique`, `TableHeader.unique`).
-/

namespace ConfigSchema

namespace Toml

/-! ### Basic strings -/

def IsControl (c : Char) : Prop :=
  c.toNat ≤ 0x8 ∨ 0xA ≤ c.toNat ∧ c.toNat ≤ 0x1F ∨ c.toNat = 0x7F

/-- A character that stands for itself in a basic string. -/
def IsRaw (c : Char) : Prop := c ≠ '"' ∧ c ≠ '\\' ∧ ¬ IsControl c

/-- The character that a one-letter escape stands for. -/
def escaped? : Char → Option Char
  | 'b' => some '\x08'
  | 't' => some '\t'
  | 'n' => some '\n'
  | 'f' => some '\x0c'
  | 'r' => some '\r'
  | '"' => some '"'
  | '\\' => some '\\'
  | _ => none

/-- How many hexadecimal digits the escape of a code point has after its letter. -/
def digitCount? : Char → Option Nat
  | 'u' => some 4
  | 'U' => some 8
  | _ => none

/-- The number that hexadecimal digits spell. -/
def hexValue? (digits : List Char) : Option Nat :=
  digits.foldlM (fun n d => (Quoted.hexDigit? d).map (n * 16 + ·)) 0

/-- How one character is written in a basic string. -/
inductive Spells : List Char → Char → Prop
  | raw {c : Char} (h : IsRaw c) : Spells [c] c
  | letter {letter c : Char} (h : escaped? letter = some c) : Spells ['\\', letter] c
  | codePoint {letter : Char} {digits : List Char} {c : Char}
      (hlength : digitCount? letter = some digits.length)
      (h : hexValue? digits = some c.toNat) : Spells ('\\' :: letter :: digits) c

/-- What stands between the quotes of a basic string, and its characters. -/
inductive Content : List Char → List Char → Prop
  | nil : Content [] []
  | cons {w ws : List Char} {c : Char} {cs : List Char} (hc : Spells w c) (h : Content ws cs) :
      Content (w ++ ws) (c :: cs)

/-- `written` is a basic string that stands for `text`. -/
def BasicString (written : List Char) (text : String) : Prop :=
  ∃ content, Content content text.toList ∧ written = '"' :: (content ++ ['"'])

/-! ### Keys -/

def IsBareChar (c : Char) : Prop := c.isAlphanum = true ∨ c = '-' ∨ c = '_'

instance : DecidablePred IsBareChar := fun _ => inferInstanceAs (Decidable (_ ∨ _))

/-- A key that may be written without quotes. -/
def IsBareKey (key : String) : Prop := key ≠ "" ∧ ∀ c ∈ key.toList, IsBareChar c

/-- A character that may stand between the apostrophes of a literal string, which has no escapes. -/
def IsLiteralChar (c : Char) : Prop := c ≠ '\x27' ∧ ¬ IsControl c

/-- `written` is a key without points. -/
inductive SimpleKey : List Char → String → Prop
  | bare {key : String} (h : IsBareKey key) : SimpleKey key.toList key
  | basic {written : List Char} {key : String} (h : BasicString written key) : SimpleKey written key
  | literal {key : String} (h : ∀ c ∈ key.toList, IsLiteralChar c) :
      SimpleKey ('\x27' :: (key.toList ++ ['\x27'])) key

def IsBlank (c : Char) : Prop := c = ' ' ∨ c = '\t'

instance : DecidablePred IsBlank := fun _ => inferInstanceAs (Decidable (_ ∨ _))

/-- Keys joined by points, around which there may be blanks. -/
inductive DottedKey : List Char → List String → Prop
  | single {w : List Char} {key : String} (h : SimpleKey w key) : DottedKey w [key]
  | cons {w before after ws : List Char} {key : String} {keys : List String} (h : SimpleKey w key)
      (hbefore : ∀ c ∈ before, IsBlank c) (hafter : ∀ c ∈ after, IsBlank c)
      (hkeys : DottedKey ws keys) : DottedKey (w ++ (before ++ '.' :: (after ++ ws))) (key :: keys)

/-- `line` is the header of the table that the keys lead to. -/
def TableHeader (line : List Char) (keys : List String) : Prop :=
  ∃ before written after, (∀ c ∈ before, IsBlank c) ∧ (∀ c ∈ after, IsBlank c) ∧
    DottedKey written keys ∧ line = '[' :: (before ++ (written ++ (after ++ [']'])))

/-! ### What is written stands for one thing -/

section

variable {r r' w w' ws ws' cs cs' : List Char} {c c' : Char}

/-- Two texts that both go on in front of a first character without the property have the same
beginning with it. -/
theorem append_inj_of_forall {P : Char → Prop} (hw : ∀ c ∈ w, P c) (hw' : ∀ c ∈ w', P c)
    (hr : ∀ c ∈ r.head?, ¬ P c) (hr' : ∀ c ∈ r'.head?, ¬ P c) (h : w ++ r = w' ++ r') :
    w = w' ∧ r = r' := by
  induction w generalizing w' with
  | nil =>
    cases w' with
    | nil => exact ⟨rfl, h⟩
    | cons c' w' =>
      rw [List.nil_append] at h
      exact absurd (hw' c' (List.mem_cons_self ..)) (hr c' (by rw [h]; rfl))
  | cons c w ih =>
    obtain ⟨hc, hw⟩ := List.forall_mem_cons.mp hw
    cases w' with
    | nil =>
      rw [List.nil_append] at h
      exact absurd hc (hr' c (by rw [← h]; rfl))
    | cons c' w' =>
      obtain ⟨rfl, htail⟩ := List.cons.inj h
      obtain ⟨rfl, hr⟩ := ih hw (List.forall_mem_cons.mp hw').2 htail
      exact ⟨rfl, hr⟩

theorem digitCount?_of_escaped? {letter : Char} (h : escaped? letter = some c) :
    digitCount? letter = none := by
  unfold escaped? at h
  split at h
  all_goals first
    | rfl
    | cases h

theorem Spells.exists_cons (h : Spells w c) : ∃ d ds, w = d :: ds ∧ d ≠ '"' := by
  cases h with
  | raw h => exact ⟨c, [], rfl, h.1⟩
  | letter => exact ⟨'\\', _, rfl, by decide⟩
  | codePoint => exact ⟨'\\', _, rfl, by decide⟩

/-- The first characters of a spelling say how long it is. -/
theorem Spells.append_inj (h : Spells w c) (h' : Spells w' c') (heq : w ++ r = w' ++ r') :
    c = c' ∧ r = r' := by
  cases h with
  | raw h =>
    cases h' with
    | raw => exact List.cons.inj heq
    | letter => exact absurd (List.cons.inj heq).1 h.2.1
    | codePoint => exact absurd (List.cons.inj heq).1 h.2.1
  | letter h =>
    cases h' with
    | raw h' => exact absurd (List.cons.inj heq).1.symm h'.2.1
    | letter h' =>
      obtain ⟨rfl, hr⟩ := List.cons.inj (List.cons.inj heq).2
      exact ⟨Option.some.inj (h.symm.trans h'), hr⟩
    | codePoint hlength =>
      obtain ⟨rfl, -⟩ := List.cons.inj (List.cons.inj heq).2
      rw [digitCount?_of_escaped? h] at hlength
      cases hlength
  | codePoint hlength h =>
    cases h' with
    | raw h' => exact absurd (List.cons.inj heq).1.symm h'.2.1
    | letter h' =>
      obtain ⟨rfl, -⟩ := List.cons.inj (List.cons.inj heq).2
      rw [digitCount?_of_escaped? h'] at hlength
      cases hlength
    | codePoint hlength' h' =>
      obtain ⟨rfl, hdigits⟩ := List.cons.inj (List.cons.inj heq).2
      obtain ⟨rfl, hr⟩ := List.append_inj hdigits (Option.some.inj (hlength.symm.trans hlength'))
      exact ⟨Char.toNat_inj.mp (Option.some.inj (h.symm.trans h')), hr⟩

/-- A basic string ends with the first quote that is not escaped. -/
theorem Content.append_inj (h : Content w cs) (h' : Content w' cs')
    (heq : w ++ '"' :: r = w' ++ '"' :: r') : cs = cs' ∧ r = r' := by
  induction h generalizing w' cs' with
  | nil =>
    cases h' with
    | nil => exact ⟨rfl, (List.cons.inj heq).2⟩
    | cons hc' _ =>
      obtain ⟨d, ds, rfl, hd⟩ := hc'.exists_cons
      exact absurd (List.cons.inj heq).1.symm hd
  | cons hc _ ih =>
    cases h' with
    | nil =>
      obtain ⟨d, ds, rfl, hd⟩ := hc.exists_cons
      exact absurd (List.cons.inj heq).1 hd
    | cons hc' hcs' =>
      rw [List.append_assoc, List.append_assoc] at heq
      obtain ⟨rfl, heq⟩ := hc.append_inj hc' heq
      obtain ⟨rfl, hr⟩ := ih hcs' heq
      exact ⟨rfl, hr⟩

variable {key key' : String} {keys keys' : List String}

theorem BasicString.append_inj (h : BasicString w key) (h' : BasicString w' key')
    (heq : w ++ r = w' ++ r') : key = key' ∧ r = r' := by
  obtain ⟨content, hcontent, rfl⟩ := h
  obtain ⟨content', hcontent', rfl⟩ := h'
  have heq : content ++ '"' :: r = content' ++ '"' :: r' := by simpa using heq
  obtain ⟨hkey, hr⟩ := hcontent.append_inj hcontent' heq
  exact ⟨String.toList_injective hkey, hr⟩

theorem BasicString.unique (h : BasicString w key) (h' : BasicString w key') : key = key' := by
  have heq : w ++ [] = w ++ [] := rfl
  exact (h.append_inj h' heq).1

/-! A bare key begins with a character of its own, and the other keys with what encloses them. -/

theorem IsBareKey.exists_cons (h : IsBareKey key) :
    ∃ d ds, key.toList = d :: ds ∧ d ≠ '"' ∧ d ≠ '\x27' := by
  obtain ⟨d, ds, hkey⟩ := List.exists_cons_of_ne_nil (mt String.toList_eq_nil_iff.mp h.1)
  have hd : IsBareChar d := h.2 d (hkey ▸ List.mem_cons_self ..)
  refine ⟨d, ds, hkey, ?_, ?_⟩
  · rintro rfl
    exact absurd hd (by decide)
  · rintro rfl
    exact absurd hd (by decide)

theorem SimpleKey.basicString (h : SimpleKey w key) (hquote : w.head? = some '"') :
    BasicString w key := by
  cases h with
  | bare h =>
    obtain ⟨d, ds, hkey, hd, -⟩ := h.exists_cons
    rw [hkey] at hquote
    exact absurd (Option.some.inj hquote) hd
  | basic h => exact h
  | literal => cases hquote

/-- A simple key is over where no character of a bare key follows. -/
theorem SimpleKey.append_inj (h : SimpleKey w key) (h' : SimpleKey w' key')
    (hr : ∀ c ∈ r.head?, ¬ IsBareChar c) (hr' : ∀ c ∈ r'.head?, ¬ IsBareChar c)
    (heq : w ++ r = w' ++ r') : key = key' ∧ r = r' := by
  cases h with
  | bare h =>
    obtain ⟨d, ds, hkey, hquote, hmark⟩ := h.exists_cons
    cases h' with
    | bare h' =>
      obtain ⟨hw, hr⟩ := append_inj_of_forall h.2 h'.2 hr hr' heq
      exact ⟨String.toList_injective hw, hr⟩
    | basic h' =>
      obtain ⟨_, -, rfl⟩ := h'
      rw [hkey] at heq
      exact absurd (List.cons.inj heq).1 hquote
    | literal =>
      rw [hkey] at heq
      exact absurd (List.cons.inj heq).1 hmark
  | basic h =>
    cases h' with
    | bare h' =>
      obtain ⟨d, ds, hkey, hquote, -⟩ := h'.exists_cons
      obtain ⟨_, -, rfl⟩ := h
      rw [hkey] at heq
      exact absurd (List.cons.inj heq).1.symm hquote
    | basic h' => exact h.append_inj h' heq
    | literal =>
      obtain ⟨_, -, rfl⟩ := h
      cases (List.cons.inj heq).1
  | literal h =>
    cases h' with
    | bare h' =>
      obtain ⟨d, ds, hkey, -, hmark⟩ := h'.exists_cons
      rw [hkey] at heq
      exact absurd (List.cons.inj heq).1.symm hmark
    | basic h' =>
      obtain ⟨_, -, rfl⟩ := h'
      cases (List.cons.inj heq).1
    | literal h' =>
      have hend (r : List Char) : ∀ c ∈ ('\x27' :: r).head?, ¬ c ≠ '\x27' := by
        rintro c ⟨⟩
        exact fun hne => hne rfl
      have heq : key.toList ++ '\x27' :: r = key'.toList ++ '\x27' :: r' := by simpa using heq
      obtain ⟨hkey, hr⟩ := append_inj_of_forall (fun c hc => (h c hc).1) (fun c hc => (h' c hc).1)
        (hend r) (hend r') heq
      exact ⟨String.toList_injective hkey, (List.cons.inj hr).2⟩

theorem SimpleKey.unique (h : SimpleKey w key) (h' : SimpleKey w key') : key = key' := by
  have heq : w ++ [] = w ++ [] := rfl
  exact (h.append_inj h' (by simp) (by simp) heq).1

/-! Between the keys of a dotted key, and behind the last one, come blanks and a mark. -/

section

variable {before before' after after' : List Char} {mark mark' : Char}

theorem append_inj_of_blanks (hbefore : ∀ c ∈ before, IsBlank c)
    (hbefore' : ∀ c ∈ before', IsBlank c) (hmark : ¬ IsBlank mark) (hmark' : ¬ IsBlank mark')
    (heq : before ++ mark :: r = before' ++ mark' :: r') : mark = mark' ∧ r = r' := by
  have hhead {mark : Char} (hmark : ¬ IsBlank mark) (r : List Char) :
      ∀ c ∈ (mark :: r).head?, ¬ IsBlank c := by
    rintro c ⟨⟩
    exact hmark
  obtain ⟨-, hr⟩ := append_inj_of_forall hbefore hbefore' (hhead hmark r) (hhead hmark' r') heq
  exact List.cons.inj hr

theorem not_isBareChar_of_blanks (hbefore : ∀ c ∈ before, IsBlank c) (hmark : ¬ IsBareChar mark) :
    ∀ c ∈ (before ++ mark :: r).head?, ¬ IsBareChar c := by
  intro c hc
  cases before with
  | nil => cases hc; exact hmark
  | cons b before =>
    cases hc
    rcases hbefore c (List.mem_cons_self ..) with rfl | rfl <;> decide

theorem SimpleKey.exists_cons (h : SimpleKey w key) : ∃ d ds, w = d :: ds ∧ ¬ IsBlank d := by
  cases h with
  | bare h =>
    obtain ⟨d, ds, hkey, -⟩ := h.exists_cons
    refine ⟨d, ds, hkey, ?_⟩
    have hd : IsBareChar d := h.2 d (hkey ▸ List.mem_cons_self ..)
    rintro (rfl | rfl) <;> exact absurd hd (by decide)
  | basic h =>
    obtain ⟨_, -, rfl⟩ := h
    exact ⟨'"', _, rfl, by decide⟩
  | literal => exact ⟨'\x27', _, rfl, by decide⟩

theorem DottedKey.exists_cons (h : DottedKey w keys) : ∃ d ds, w = d :: ds ∧ ¬ IsBlank d := by
  cases h with
  | single h => exact h.exists_cons
  | cons h =>
    obtain ⟨d, ds, rfl, hd⟩ := h.exists_cons
    exact ⟨d, _, rfl, hd⟩

/-- The brackets of a header end its dotted key. -/
theorem DottedKey.unique (h : DottedKey w keys) (h' : DottedKey w' keys')
    (hafter : ∀ c ∈ after, IsBlank c) (hafter' : ∀ c ∈ after', IsBlank c)
    (heq : w ++ (after ++ ']' :: r) = w' ++ (after' ++ ']' :: r')) : keys = keys' := by
  have hpoint : ¬ IsBareChar '.' := by decide
  have hbracket : ¬ IsBareChar ']' := by decide
  induction h generalizing w' keys' with
  | single h =>
    cases h' with
    | single h' =>
      obtain ⟨rfl, -⟩ := h.append_inj h' (not_isBareChar_of_blanks hafter hbracket)
        (not_isBareChar_of_blanks hafter' hbracket) heq
      rfl
    | cons h' hbefore' _ _ =>
      simp only [List.append_assoc, List.cons_append] at heq
      obtain ⟨-, heq⟩ := h.append_inj h' (not_isBareChar_of_blanks hafter hbracket)
        (not_isBareChar_of_blanks hbefore' hpoint) heq
      exact absurd (append_inj_of_blanks hafter hbefore' (by decide) (by decide) heq).1 (by decide)
  | cons h hbefore hbetween hkeys ih =>
    cases h' with
    | single h' =>
      simp only [List.append_assoc, List.cons_append] at heq
      obtain ⟨-, heq⟩ := h.append_inj h' (not_isBareChar_of_blanks hbefore hpoint)
        (not_isBareChar_of_blanks hafter' hbracket) heq
      exact absurd (append_inj_of_blanks hbefore hafter' (by decide) (by decide) heq).1 (by decide)
    | cons h' hbefore' hbetween' hkeys' =>
      simp only [List.append_assoc, List.cons_append] at heq
      obtain ⟨rfl, heq⟩ := h.append_inj h' (not_isBareChar_of_blanks hbefore hpoint)
        (not_isBareChar_of_blanks hbefore' hpoint) heq
      obtain ⟨-, heq⟩ := append_inj_of_blanks hbefore hbefore' (by decide) (by decide) heq
      obtain ⟨d, ds, rfl, hd⟩ := hkeys.exists_cons
      obtain ⟨d', ds', rfl, hd'⟩ := hkeys'.exists_cons
      obtain ⟨rfl, hrest⟩ := append_inj_of_blanks hbetween hbetween' hd hd' heq
      rw [ih hkeys' (congrArg (List.cons d) hrest)]

theorem TableHeader.unique (h : TableHeader w keys) (h' : TableHeader w keys') : keys = keys' := by
  obtain ⟨before, written, after, hbefore, hafter, hkeys, rfl⟩ := h
  obtain ⟨before', written', after', hbefore', hafter', hkeys', heq⟩ := h'
  obtain ⟨d, ds, rfl, hd⟩ := hkeys.exists_cons
  obtain ⟨d', ds', rfl, hd'⟩ := hkeys'.exists_cons
  obtain ⟨rfl, hrest⟩ := append_inj_of_blanks hbefore hbefore' hd hd' (List.cons.inj heq).2
  exact hkeys.unique hkeys' hafter hafter' (congrArg (List.cons d) hrest)

end

end

end Toml

end ConfigSchema
