import ConfigSchema.Json.Quoted
import Mathlib.Tactic.SplitIfs

/-!
# Quoted text is read back

Each character is read back from its escape, whatever follows (`readFrom_escape`), and so is a whole
text from its characters (`read_encoded`).
-/

namespace ConfigSchema

namespace Quoted

variable {done cs rest : List Char} {c : Char}

theorem readFrom_escaped (h : readEscape cs = .ok (c, rest)) :
    readFrom done ('\\' :: cs) = readFrom (c :: done) rest := by
  rw [readFrom]
  split
  · next hstop => rw [h] at hstop; cases hstop
  · next hok => rw [h] at hok; cases hok; rfl

theorem readFrom_plain (hquote : c ≠ '"') (hbackslash : c ≠ '\\') (hcontrol : ¬ c.toNat < 0x20) :
    readFrom done (c :: rest) = readFrom (c :: done) rest := by
  rw [readFrom]
  · rw [if_neg hcontrol]
  · intro h; exact hquote h
  · intro h; exact hbackslash h

theorem hexDigit?_digitChar : ∀ n < 16, hexDigit? (Nat.digitChar n) = some n := by decide

theorem readCodePoint_control (hcontrol : c.toNat < 0x20) : readCodePoint
    ('0' :: '0' :: Nat.digitChar (c.toNat / 16) :: Nat.digitChar (c.toNat % 16) :: rest) =
      .ok (c, rest) := by
  have hhigh := hexDigit?_digitChar (c.toNat / 16) (by omega)
  have hlow := hexDigit?_digitChar (c.toNat % 16) (by omega)
  have hunit : hexUnit? '0' '0' (Nat.digitChar (c.toNat / 16)) (Nat.digitChar (c.toNat % 16)) =
      some c.toNat := by
    have hzero : hexDigit? '0' = some 0 := by decide
    simp only [hexUnit?, hhigh, hlow, hzero, bind, Option.bind, pure]
    congr 1
    omega
  have htrailing : ¬ IsTrailing c.toNat := fun h => by
    have := h.1
    omega
  have hleading : ¬ IsLeading c.toNat := fun h => by
    have := h.1
    omega
  simp [readCodePoint, readUnit, hunit, htrailing, hleading, bind, Except.bind, pure, Except.pure,
    Char.ofNat_toNat]

theorem readFrom_escape (c : Char) :
    readFrom done (escape c ++ rest) = readFrom (c :: done) rest := by
  unfold escape
  split_ifs with hquote hbackslash hbreak hreturn htab hback hfeed hcontrol
  · rw [hquote]; exact readFrom_escaped rfl
  · rw [hbackslash]; exact readFrom_escaped rfl
  · rw [hbreak]; exact readFrom_escaped rfl
  · rw [hreturn]; exact readFrom_escaped rfl
  · rw [htab]; exact readFrom_escaped rfl
  · rw [hback]; exact readFrom_escaped rfl
  · rw [hfeed]; exact readFrom_escaped rfl
  · exact readFrom_escaped (readCodePoint_control hcontrol)
  · exact readFrom_plain hquote hbackslash hcontrol

theorem readFrom_flatMap_escape :
    readFrom done (cs.flatMap escape ++ '"' :: rest) =
      .ok (String.ofList (done.reverse ++ cs), rest) := by
  induction cs generalizing done with
  | nil =>
    rw [List.flatMap_nil, List.nil_append, readFrom, List.append_nil]
  | cons c cs ih =>
    rw [List.flatMap_cons, List.append_assoc, readFrom_escape, ih]
    simp

theorem encode_append (cs rest : List Char) :
    encode cs ++ rest = '"' :: (cs.flatMap escape ++ '"' :: rest) := by
  simp [encode]

theorem read_encoded (s : String) :
    read (s.toList.flatMap escape ++ '"' :: rest) = .ok (s, rest) := by
  rw [read, readFrom_flatMap_escape, List.reverse_nil, List.nil_append, String.ofList_toList]

end Quoted

end ConfigSchema
