import ConfigSchema.Docs.Toml
import ConfigSchema.Proofs.Json.Quoted
import ConfigSchema.Proofs.Toml.Grammar

/-!
# Quoted text in TOML

A text is quoted with the escapes of JSON, and each of them is one of TOML's that stands for the
same character (`spells_escape`). The one character that JSON leaves as it is and TOML does not
allow is U+007F, so a quoted text is a basic string for itself exactly if it is without that
character (`basicString_quote_iff`), and so is a key (`simpleKey_key_iff`).
-/

namespace ConfigSchema

namespace Toml

variable {c c' : Char} {w ws cs cs' : List Char}

theorem hexValue?_control (hc : c.toNat < 0x20) : hexValue?
    ['0', '0', Nat.digitChar (c.toNat / 16), Nat.digitChar (c.toNat % 16)] = some c.toNat := by
  have hhigh := Quoted.hexDigit?_digitChar (c.toNat / 16) (by omega)
  have hlow := Quoted.hexDigit?_digitChar (c.toNat % 16) (by omega)
  have hzero : Quoted.hexDigit? '0' = some 0 := by decide
  simp only [hexValue?, List.foldlM_cons, List.foldlM_nil, hhigh, hlow, hzero, Option.map_some,
    bind, Option.bind_some, pure, Option.some.injEq]
  omega

theorem spells_escape (hc : c ≠ '\x7f') : Spells (Quoted.escape c) c := by
  unfold Quoted.escape
  split_ifs with hquote hbackslash hbreak hreturn htab hback hfeed hcontrol
  · rw [hquote]; exact .letter rfl
  · rw [hbackslash]; exact .letter rfl
  · rw [hbreak]; exact .letter rfl
  · rw [hreturn]; exact .letter rfl
  · rw [htab]; exact .letter rfl
  · rw [hback]; exact .letter rfl
  · rw [hfeed]; exact .letter rfl
  · exact .codePoint rfl (hexValue?_control hcontrol)
  · refine .raw ⟨hquote, hbackslash, ?_⟩
    have hdelete : c.toNat ≠ 0x7F := fun h => hc (Char.toNat_inj.mp h)
    rintro (h | h | h) <;> omega

/-- No character is written with U+007F at the beginning. -/
theorem Spells.ne_delete (h : Spells (c :: w) c') : c ≠ '\x7f' := by
  rintro rfl
  cases h with
  | raw h => exact h.2.2 (.inr (.inr rfl))

theorem content_cases (h : Content w cs) : w = [] ∧ cs = [] ∨
    ∃ first rest c cs', w = first ++ rest ∧ cs = c :: cs' ∧ Spells first c ∧ Content rest cs' := by
  cases h with
  | nil => exact .inl ⟨rfl, rfl⟩
  | cons hc h => exact .inr ⟨_, _, _, _, rfl, rfl, hc, h⟩

theorem not_content_delete : ¬ Content ('\x7f' :: w) cs := by
  intro h
  obtain ⟨hnil, -⟩ | ⟨first, rest, c, cs', heq, -, hc, -⟩ := content_cases h
  · cases hnil
  · obtain ⟨d, ds, rfl, -⟩ := hc.exists_cons
    exact hc.ne_delete (List.cons.inj heq).1.symm

/-- The escapes are read as the characters that they were written for. -/
theorem content_flatMap_escape_iff :
    Content (cs.flatMap Quoted.escape) cs' ↔ cs' = cs ∧ '\x7f' ∉ cs := by
  induction cs generalizing cs' with
  | nil =>
    constructor
    · intro h
      have hnil : Content [] [] := .nil
      exact ⟨(h.append_inj (r := []) hnil rfl).1, List.not_mem_nil⟩
    · rintro ⟨rfl, -⟩
      exact .nil
  | cons c cs ih =>
    rw [List.flatMap_cons]
    by_cases hdelete : c = '\x7f'
    · have hescape : Quoted.escape '\x7f' = ['\x7f'] := by decide
      rw [hdelete, hescape, List.singleton_append]
      exact iff_of_false not_content_delete (by simp)
    · have hspells := spells_escape hdelete
      constructor
      · intro h
        obtain ⟨hnil, -⟩ | ⟨first, rest, c', cs', heq, rfl, hc', h⟩ := content_cases h
        · obtain ⟨d, ds, hd, -⟩ := hspells.exists_cons
          rw [hd] at hnil
          cases hnil
        · obtain ⟨rfl, rfl⟩ := hspells.append_inj hc' heq
          obtain ⟨rfl, hcs⟩ := ih.mp h
          exact ⟨rfl, by simpa using ⟨Ne.symm hdelete, hcs⟩⟩
      · rintro ⟨rfl, hnot⟩
        exact .cons hspells (ih.mpr ⟨rfl, fun h => hnot (List.mem_cons_of_mem c h)⟩)

theorem basicString_encode_iff {s t : String} :
    BasicString (Quoted.encode s.toList) t ↔ t = s ∧ '\x7f' ∉ s.toList := by
  have hencode : Quoted.encode s.toList = '"' :: (s.toList.flatMap Quoted.escape ++ ['"']) := rfl
  rw [hencode, BasicString]
  constructor
  · rintro ⟨content, hcontent, heq⟩
    rw [← List.append_cancel_right (List.cons.inj heq).2] at hcontent
    obtain ⟨ht, hs⟩ := content_flatMap_escape_iff.mp hcontent
    exact ⟨String.toList_injective ht, hs⟩
  · rintro ⟨rfl, hs⟩
    exact ⟨_, content_flatMap_escape_iff.mpr ⟨rfl, hs⟩, rfl⟩

/-- A quoted text is a basic string for that text and for no other, unless it has the character
U+007F: then it is no basic string at all. -/
theorem basicString_quote_iff (s t : String) :
    BasicString (quote s).toList t ↔ t = s ∧ '\x7f' ∉ s.toList := by
  rw [quote, String.toList_ofList, basicString_encode_iff]

/-- The control character U+007F is quoted without an escape. -/
theorem not_basicString_quote : ¬ ∀ s : String, BasicString (quote s).toList s := by
  intro h
  have hdelete := h "\x7f"
  rw [quote, String.toList_ofList] at hdelete
  exact (basicString_encode_iff.mp hdelete).2 (by decide)

/-! ### Keys -/

theorem isBare_iff {key : String} : isBare key = true ↔ IsBareKey key := by
  simp [isBare, IsBareKey, IsBareChar, or_assoc]

/-- A key is written as itself, with the same exception. -/
theorem simpleKey_key_iff {k name : String} :
    SimpleKey (key k).toList name ↔ name = k ∧ '\x7f' ∉ k.toList := by
  by_cases hbare : isBare k
  · have hk := isBare_iff.mp hbare
    have hdelete : '\x7f' ∉ k.toList := fun h => absurd (hk.2 _ h) (by decide)
    rw [key, if_pos hbare]
    constructor
    · intro h
      exact ⟨h.unique (.bare hk), hdelete⟩
    · rintro ⟨rfl, -⟩
      exact .bare hk
  · rw [key, if_neg hbare, quote, String.toList_ofList, ← basicString_encode_iff]
    exact ⟨fun h => h.basicString rfl, .basic⟩

end Toml

end ConfigSchema
