import ConfigSchema.Proofs.Toml.Literal

/-!
# The lines of a snippet

Keys and literals are written without a line break, so an assignment is one line of the text of a
snippet, and it says which value belongs to which key. The text stands for its assignments and no
others (`Snippet.shows_text_iff`).
-/

namespace ConfigSchema

variable {text : String} {texts : List String}

/-- The lines of a text. -/
def linesOf (text : String) : List String := (text.toList.splitOn '\n').map String.ofList

theorem linesOf_append (first rest : String) :
    linesOf (first ++ "\n" ++ rest) = linesOf first ++ linesOf rest := by
  have htext : (first ++ "\n" ++ rest).toList = first.toList ++ '\n' :: rest.toList := by
    rw [String.toList_append, String.toList_append, List.append_assoc]
    rfl
  have hsplit := List.splitOnP_append_cons first.toList rest.toList (p := fun c => c == '\n')
    (beq_self_eq_true '\n')
  rw [linesOf, htext, List.splitOn, hsplit, List.map_append]
  rfl

theorem linesOf_of_not_mem (h : '\n' ∉ text.toList) : linesOf text = [text] := by
  have hsplit : text.toList.splitOn '\n' = [text.toList] := by
    refine List.splitOnP_eq_singleton fun c hc => beq_eq_false_iff_ne.mpr ?_
    rintro rfl
    exact h hc
  rw [linesOf, hsplit, List.map_singleton, String.ofList_toList]

theorem linesOf_intercalate (hne : texts ≠ []) :
    linesOf ("\n".intercalate texts) = texts.flatMap linesOf := by
  induction texts with
  | nil => exact absurd rfl hne
  | cons first rest ih =>
    by_cases hnil : rest = []
    · rw [hnil, String.intercalate_singleton, List.flatMap_singleton]
    · rw [String.intercalate_cons_of_ne_nil hnil, linesOf_append, ih hnil, List.flatMap_cons]

/-! ### What is written on one line -/

theorem Quoted.not_mem_encode (cs : List Char) : '\n' ∉ encode cs := by
  have hdigit {n : Nat} (hn : n < 16) : '\n' ≠ Nat.digitChar n := by
    intro h
    have hread := hexDigit?_digitChar n hn
    rw [← h] at hread
    cases hread
  have hescape (c : Char) : '\n' ∉ escape c := by
    unfold escape
    split_ifs with _ _ hbreak _ _ _ _ hcontrol
    all_goals try decide
    · have hhigh := hdigit (n := c.toNat / 16) (by omega)
      have hlow := hdigit (n := c.toNat % 16) (by omega)
      simp [hhigh, hlow]
    · simpa using Ne.symm hbreak
  simp [encode, hescape]

theorem Numeral.Spelling.not_mem_chars (s : Numeral.Spelling) : '\n' ∉ s.chars := by
  have hdigits {ds : List Char} (hds : ∀ c ∈ ds, c.isDigit = true) : '\n' ∉ ds := fun h =>
    absurd (hds _ h) (by decide)
  have hfraction : '\n' ∉ fractionChars s.fraction := by
    cases hs : s.fraction with
    | nil => exact List.not_mem_nil
    | cons d ds =>
      have hds := hdigits s.fraction_digits
      rw [hs] at hds
      exact List.not_mem_cons_of_ne_of_not_mem (by decide) hds
  have hexponent : '\n' ∉ exponentChars s.exponent := by
    cases s.exponent with
    | none => exact List.not_mem_nil
    | some e =>
      have hsign : '\n' ∉ signChars e := by
        unfold signChars
        split <;> decide
      have he := hdigits fun c (hc : c ∈ Nat.toDigits 10 e.natAbs) => Digits.isDigit_of_mem hc
      simpa [exponentChars] using ⟨hsign, he⟩
  simpa [chars] using ⟨hdigits s.whole_digits, hfraction, hexponent⟩

theorem Number.not_mem_chars (n : Number) : '\n' ∉ n.chars := by
  obtain ⟨isNegative, s, hchars, -⟩ := n.exists_spelling
  rw [hchars, List.mem_append, not_or]
  exact ⟨by cases isNegative <;> decide, s.not_mem_chars⟩

namespace Toml

theorem not_mem_key (k : String) : '\n' ∉ (key k).toList := by
  unfold key
  split_ifs with hbare
  · intro h
    exact absurd ((isBare_iff.mp hbare).2 _ h) (by decide)
  · rw [quote, String.toList_ofList]
    exact Quoted.not_mem_encode _

theorem not_mem_further {α : Type} {write : α → List Char} {xs : List α}
    (h : ∀ x ∈ xs, '\n' ∉ write x) : '\n' ∉ further (xs.map write) := by
  simpa [further] using h

theorem not_mem_entry {e : String × Node} (h : '\n' ∉ (literal e.2).toList) :
    '\n' ∉ (entry e).toList := by
  simpa [entry] using ⟨not_mem_key e.1, h⟩

theorem not_mem_literal (v : Node) : '\n' ∉ (literal v).toList := by
  induction v using Node.induct with
  | scalar v ho ha =>
    cases v with
    | null => decide
    | bool b => cases b <;> decide
    | number n => simpa [literal] using n.not_mem_chars
    | string s => simpa [literal, quote] using Quoted.not_mem_encode s.toList
    | array => cases ha
    | object => cases ho
  | array xs ih =>
    cases xs with
    | nil => decide
    | cons x xs =>
      obtain ⟨hx, hxs⟩ := List.forall_mem_cons.mp ih
      have hrest := not_mem_further hxs
      rw [toList_literal_array]
      simpa using ⟨hx, hrest⟩
  | object fs ih =>
    cases fs with
    | nil => decide
    | cons e fs =>
      have hentries : ∀ e' ∈ e :: fs, '\n' ∉ (entry e').toList := fun e' he' =>
        not_mem_entry (ih e'.1 e'.2 he')
      obtain ⟨he, hfs⟩ := List.forall_mem_cons.mp hentries
      have hrest := not_mem_further hfs
      rw [toList_literal_object]
      simpa using ⟨he, hrest⟩

theorem linesOf_entry (e : String × Node) : linesOf (entry e) = [entry e] :=
  linesOf_of_not_mem (not_mem_entry (not_mem_literal e.2))

theorem entry_inj {e e' : String × Node} : entry e = entry e' ↔ e = e' := by
  refine ⟨fun h => ?_, congrArg entry⟩
  have hend : Numeral.Ends [] := fun _ h => by cases h
  exact (delimited_entry (delimited_literal e.2) hend hend
    (congrArg (fun s => s.toList ++ []) h)).1

end Toml

namespace Snippet

variable {table : String} {assignments : Fields Node}

/-- The lines between those of the fence. A table other than the document itself has a header. -/
def shownLines (table : String) (assignments : Fields Node) : List String :=
  (if table = "" then [] else linesOf ("[" ++ table ++ "]")) ++
    if assignments = [] then [""] else assignments.map Toml.entry

/-- The text has one line for each assignment in the table, in their order, and a fence around
them. -/
def Shows (text table : String) (assignments : Fields Node) : Prop :=
  linesOf text = "```toml" :: shownLines table assignments ++ ["```"]

theorem linesOf_assignments (assignments : Fields Node) :
    linesOf ("\n".intercalate (assignments.map Toml.entry)) =
      if assignments = [] then [""] else assignments.map Toml.entry := by
  split_ifs with hnil
  · rw [hnil]
    rfl
  · rw [linesOf_intercalate (by simpa using hnil), List.flatMap_map, List.map_eq_flatMap]
    exact List.flatMap_congr fun e _ => Toml.linesOf_entry e

theorem shows_text (s : Snippet) : Shows s.text s.table s.assignments := by
  have hfence (middle : String) :
      linesOf ("```toml\n" ++ middle ++ "\n```") = "```toml" :: linesOf middle ++ ["```"] := by
    have hbreaks : "```toml\n" ++ middle ++ "\n```" =
        "```toml" ++ "\n" ++ middle ++ "\n" ++ "```" := by
      rw [@String.append_assoc _ "\n" "```"]
      rfl
    rw [hbreaks, linesOf_append, linesOf_append]
    rfl
  have hheader : "[" ++ s.table ++ "]\n" = "[" ++ s.table ++ "]" ++ "\n" := by
    rw [@String.append_assoc _ "]" "\n"]
    rfl
  rw [Shows, shownLines, ← linesOf_assignments, text]
  by_cases htable : s.table = ""
  · rw [if_pos htable, if_pos (String.isEmpty_iff.mpr htable), String.append_empty, hfence]
    rfl
  · rw [if_neg htable, if_neg (mt String.isEmpty_iff.mp htable), ← linesOf_append, ← hheader,
      ← hfence, @String.append_assoc "```toml\n"]
    rfl

/-- An assignment is no empty line. -/
theorem map_entry_ne : assignments.map Toml.entry ≠ [""] := by
  intro h
  have hmem : "" ∈ assignments.map Toml.entry := h ▸ List.mem_singleton_self ""
  obtain ⟨e, -, he⟩ := List.mem_map.mp hmem
  have hchars := congrArg String.toList he
  simp [Toml.entry] at hchars

theorem shownLines_inj {others : Fields Node} :
    shownLines table assignments = shownLines table others ↔ assignments = others := by
  refine ⟨fun h => ?_, congrArg (shownLines table)⟩
  have hlines := List.append_cancel_left h
  split_ifs at hlines with hleft hright hright
  · exact hleft.trans hright.symm
  · exact absurd hlines.symm map_entry_ne
  · exact absurd hlines map_entry_ne
  · exact List.map_injective_iff.mpr (fun _ _ => Toml.entry_inj.mp) hlines

/-- The text of a snippet stands for its assignments and no others. -/
theorem shows_text_iff {others : Fields Node} :
    Shows (Snippet.text ⟨table, assignments⟩) table others ↔ others = assignments := by
  have htext : linesOf (Snippet.text ⟨table, assignments⟩) = _ := shows_text ⟨table, assignments⟩
  rw [Shows, htext, List.cons_append, List.cons_append, List.cons.injEq, List.append_cancel_right_eq,
    shownLines_inj]
  exact (and_iff_right rfl).trans eq_comm

end Snippet

end ConfigSchema
