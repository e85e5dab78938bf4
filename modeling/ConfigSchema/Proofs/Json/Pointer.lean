import ConfigSchema.Json.Pointer
import ConfigSchema.Proofs.Json.Digits

/-!
# Pointers made of tokens

`Pointer.ofTokens` writes the tokens of a path one after the other, as they are collected on the way
down. The tokens of that pointer are the path again (`tokens?_ofTokens`), so it names the value at
the end of the path (`at?_ofTokens`), and an index in decimal names the item at that index.
-/

namespace ConfigSchema

namespace Pointer

def ofTokens (tokens : List String) : String := tokens.foldl child ""

theorem child_ofTokens (tokens : List String) (token : String) :
    child (ofTokens tokens) token = ofTokens (tokens ++ [token]) := by
  rw [ofTokens, ofTokens, List.foldl_append]
  rfl

/-- The tokens as they stand in a pointer. -/
def spell (tokens : List String) : List Char :=
  tokens.flatMap fun token => '/' :: escape token.toList

theorem toList_foldl_child (location : String) (tokens : List String) :
    (tokens.foldl child location).toList = location.toList ++ spell tokens := by
  induction tokens generalizing location with
  | nil => simp [spell]
  | cons token tokens ih =>
    rw [List.foldl_cons, ih, child, String.toList_ofList]
    simp [spell]

theorem foldl_child (location : String) (tokens : List String) :
    tokens.foldl child location = location ++ ofTokens tokens := by
  refine String.toList_injective ?_
  rw [toList_foldl_child, String.toList_append, ofTokens, toList_foldl_child]
  rfl

theorem slash_not_mem_escape (token : List Char) : '/' ∉ escape token := by
  intro h
  obtain ⟨c, -, hc⟩ := List.mem_flatMap.mp h
  split at hc
  · simp at hc
  · split at hc
    · simp at hc
    · next hne => exact hne (List.mem_singleton.mp hc).symm

theorem split_of_not_mem {cs : List Char} (h : '/' ∉ cs) : split cs = [cs] := by
  induction cs with
  | nil => rfl
  | cons c cs ih =>
    obtain ⟨hc, hcs⟩ := not_or.mp (mt List.mem_cons.mpr h)
    rw [split, if_neg (Ne.symm hc), ih hcs]

theorem split_ne_nil (cs : List Char) : split cs ≠ [] := by
  cases cs with
  | nil => simp [split]
  | cons c cs =>
    rw [split]
    split
    · simp
    · split <;> simp

/-- A slash ends one piece and begins another. -/
theorem split_append_slash (cs rest : List Char) :
    split (cs ++ '/' :: rest) = split cs ++ split rest := by
  induction cs with
  | nil => rfl
  | cons c cs ih =>
    rw [List.cons_append, split, split, ih]
    by_cases hc : c = '/'
    · rw [if_pos hc, if_pos hc]; rfl
    · rw [if_neg hc, if_neg hc]
      cases hsplit : split cs with
      | nil => exact absurd hsplit (split_ne_nil cs)
      | cons piece pieces => rfl

theorem split_append {cs : List Char} (h : '/' ∉ cs) (rest : List Char) :
    split (cs ++ '/' :: rest) = cs :: split rest := by
  rw [split_append_slash, split_of_not_mem h]
  rfl

theorem split_spell (token : String) (tokens : List String) :
    split (escape token.toList ++ spell tokens) =
      (token :: tokens).map fun token => escape token.toList := by
  induction tokens generalizing token with
  | nil =>
    rw [spell, List.flatMap_nil, List.append_nil, split_of_not_mem (slash_not_mem_escape _)]
    rfl
  | cons next tokens ih =>
    have hspell : spell (next :: tokens) = '/' :: (escape next.toList ++ spell tokens) := by
      simp [spell]
    rw [hspell, split_append (slash_not_mem_escape _), ih]
    rfl

theorem tokens?_ofTokens (tokens : List String) :
    tokens? (ofTokens tokens).toList = some tokens := by
  rw [ofTokens, toList_foldl_child]
  cases tokens with
  | nil => rfl
  | cons token tokens =>
    have hspell : spell (token :: tokens) = '/' :: (escape token.toList ++ spell tokens) := by
      simp [spell]
    rw [hspell]
    show some ((split (escape token.toList ++ spell tokens)).map _) = _
    rw [split_spell, List.map_map]
    simp [Function.comp_def, unescape_escape]

theorem index?_toString (i : Nat) : index? (toString i) = some i := by
  obtain ⟨c, cs, hcs, hzero⟩ := Digits.toDigits_eq_cons i
  have hdigits := @Digits.all_isDigit_toDigits i
  have hvalue := @Nat.ofDigitChars_ten_toDigits i
  rw [hcs] at hdigits hvalue
  rw [index?, Nat.toString_eq_ofList_toDigits, String.toList_ofList, hcs]
  split
  · next h =>
    rw [h] at hvalue
    exact congrArg some hvalue
  · next h => cases h
  · next rest hne h =>
    cases h
    rw [hzero rfl] at hcs
    cases hcs
    exact absurd rfl hne
  · rw [if_pos hdigits, hvalue]

theorem index?_eq_some_iff {token : String} {i : Nat} :
    index? token = some i ↔ token = toString i := by
  constructor
  · intro h
    refine String.toList_injective ?_
    rw [Nat.toString_eq_ofList_toDigits, String.toList_ofList]
    unfold index? at h
    split at h
    · next hzero =>
      cases h
      exact hzero
    · cases h
    · cases h
    · next hnil hleading =>
      split at h
      · next hdigits =>
        cases h
        have hdigits := List.all_eq_true.mp hdigits
        cases hcs : token.toList with
        | nil => exact absurd hcs hnil
        | cons c cs =>
          rw [hcs] at hdigits
          refine (Digits.toDigits_ofDigitChars_cons ?_ hdigits).symm
          rintro rfl
          exact hleading cs hcs
      · cases h
  · rintro rfl
    exact index?_toString i

theorem ofTokens_inj {tokens tokens' : List String} :
    ofTokens tokens = ofTokens tokens' ↔ tokens = tokens' := by
  refine ⟨fun h => ?_, congrArg ofTokens⟩
  have htokens := tokens?_ofTokens tokens
  rw [h, tokens?_ofTokens] at htokens
  exact (Option.some.inj htokens).symm

end Pointer

namespace Node

theorem follow_append (n : Node) (path path' : List String) :
    n.follow (path ++ path') = (n.follow path).bind fun part => part.follow path' := by
  induction path generalizing n with
  | nil => rfl
  | cons token path ih =>
    show (n.child? token).bind _ = ((n.child? token).bind _).bind _
    rw [Option.bind_assoc]
    exact Option.bind_congr fun part _ => ih part

theorem at?_ofTokens (n : Node) (path : List String) :
    n.at? (Pointer.ofTokens path) = n.follow path := by
  rw [at?, Pointer.tokens?_ofTokens]
  rfl

theorem child?_index {xs : List Node} {i : Nat} : (array xs).child? (toString i) = xs[i]? := by
  rw [child?, Pointer.index?_toString]
  rfl

end Node

end ConfigSchema
