import ConfigSchema.Input
import ConfigSchema.Json.Printer
import ConfigSchema.Json.Readable
import ConfigSchema.Json.Steps
import ConfigSchema.Proofs.Json.Fields
import ConfigSchema.Proofs.Json.Quoted
import ConfigSchema.Proofs.Json.Shortest

/-!
# Documents are read back

Where the printer writes a readable value, in either layout, the reader finds that value and goes on
with what follows it (`Node.readsBack`), so the text of a document is read as that document
(`Node.parse_pretty`, `Node.parseWhole_compact`). The induction is on the document, and inside it on
the items or entries that are still to come; each step of the reader on printed text is stated on
its own.
-/

namespace ConfigSchema

theorem Layout.skipBlanks_lineBreak (l : Layout) (depth : Nat) (cs : List Char) :
    skipBlanks (l.lineBreak depth ++ cs) = skipBlanks cs := by
  cases l with
  | compact => rfl
  | indented =>
    refine List.dropWhile_append_of_pos fun c hc => ?_
    rcases List.mem_cons.mp hc with rfl | hc
    · rfl
    · rw [(List.mem_replicate.mp hc).2]
      rfl

/-! ### Keys -/

namespace Reader

variable {below : List Frame} {cs : List Char}

theorem readKey_encode {l : Layout} (key : String) :
    ∃ rest, readKey below (Quoted.encode key.toList ++ (l.colon ++ cs)) = .ok (key, rest) ∧
      skipBlanks rest = skipBlanks cs := by
  have hread (rest : List Char) : readKey below (Quoted.encode key.toList ++ ':' :: rest) =
      .ok (key, rest) := by
    have hquoted := @Quoted.read_encoded (':' :: rest) key
    rw [Quoted.encode_append, readKey, hquoted]
    simp only [skipBlanks_cons (show isBlank ':' = false from rfl)]
  cases l with
  | compact => exact ⟨cs, hread cs, rfl⟩
  | indented => exact ⟨' ' :: cs, hread (' ' :: cs), rfl⟩

/-- A printed key and its colon take the reader to the value. -/
theorem entry_encode {l : Layout} {done : Object} (key : String) :
    entry done below (Quoted.encode key.toList ++ (l.colon ++ cs)) =
      value (.entries done key :: below) cs := by
  obtain ⟨rest, hread, hrest⟩ := @readKey_encode below cs l key
  rw [entry_key hread, value_congr hrest]

end Reader

/-! ### The text of a value -/

namespace Node

variable {l : Layout} {depth : Nat} {n : Node}

theorem chars_eq_cons (n : Node) (l : Layout) (depth : Nat) :
    ∃ c cs, n.chars l depth = c :: cs ∧ isBlank c = false ∧ c ≠ ']' ∧ c ≠ '\x7d' := by
  cases n with
  | null => exact ⟨'n', _, rfl, by decide⟩
  | bool b => cases b <;> exact ⟨_, _, rfl, by decide⟩
  | number n =>
    obtain ⟨c, cs, hcs, hc⟩ := n.chars_eq_cons
    have hne {d : Char} (hminus : d ≠ '-') (hdigit : d.isDigit = false) : c ≠ d :=
      Number.ne_of_start hc hminus hdigit
    have hblank : isBlank c = false := by
      simp only [isBlank, beq_eq_false_iff_ne, Bool.or_eq_false_iff]
      exact ⟨⟨⟨hne (by decide) rfl, hne (by decide) rfl⟩, hne (by decide) rfl⟩,
        hne (by decide) rfl⟩
    exact ⟨c, cs, hcs, hblank, hne (by decide) rfl, hne (by decide) rfl⟩
  | string s => exact ⟨'"', _, rfl, by decide⟩
  | array xs => cases xs <;> exact ⟨'[', _, rfl, by decide⟩
  | object fs =>
    cases fs with
    | nil => exact ⟨'\x7b', _, rfl, by decide⟩
    | cons e fs => exact ⟨'\x7b', _, rfl, by decide⟩

theorem skipBlanks_chars (n : Node) (rest : List Char) :
    skipBlanks (n.chars l depth ++ rest) = n.chars l depth ++ rest := by
  obtain ⟨c, cs, hcs, hblank, -⟩ := n.chars_eq_cons l depth
  rw [hcs, List.cons_append, skipBlanks_cons hblank]

/-! What follows an item or an entry is a comma, a line break or a closing bracket. -/

theorem ends_lineBreak {rest : List Char} {close : Char} (hclose : Numeral.Ends (close :: rest)) :
    Numeral.Ends (l.lineBreak depth ++ close :: rest) := by
  cases l with
  | compact => exact hclose
  | indented => exact .cons (by decide)

theorem ends_charsItems (l : Layout) (depth : Nat) (xs : List Node) (rest : List Char) :
    Numeral.Ends (charsItems l (depth + 1) xs ++ (l.lineBreak depth ++ ']' :: rest)) := by
  cases xs with
  | nil => exact ends_lineBreak (.cons (by decide))
  | cons x xs => exact .cons (by decide)

theorem ends_charsFields (l : Layout) (depth : Nat) (fs : Object) (rest : List Char) :
    Numeral.Ends (charsFields l (depth + 1) fs ++ (l.lineBreak depth ++ '\x7d' :: rest)) := by
  cases fs with
  | nil => exact ends_lineBreak (.cons (by decide))
  | cons e fs => exact .cons (by decide)

/-! ### Values are read back -/

/-- Wherever the value is printed and can be read, the reader takes it and goes on behind it. -/
def ReadsBack (l : Layout) (n : Node) : Prop :=
  ∀ (depth : Nat) (stack : List Frame) (rest : List Char), n.Readable stack.length →
    Numeral.Ends rest → Reader.value stack (n.chars l depth ++ rest) = Reader.resume n stack rest

theorem readScalar_number {c : Char} (hc : c = '-' ∨ c.isDigit = true) (cs : List Char) :
    readScalar (c :: cs) = (Number.read (c :: cs)).map fun r => (.number r.1, r.2) := by
  have hnull : c ≠ 'n' := Number.ne_of_start hc (by decide) rfl
  have htrue : c ≠ 't' := Number.ne_of_start hc (by decide) rfl
  have hfalse : c ≠ 'f' := Number.ne_of_start hc (by decide) rfl
  have hquote : c ≠ '"' := Number.ne_of_start hc (by decide) rfl
  unfold readScalar
  grind

theorem readsBack_number (n : Number) : (number n).ReadsBack l := by
  intro depth stack rest _ hrest
  obtain ⟨c, cs, hcs, hc⟩ := n.chars_eq_cons
  have hread := n.read_chars hrest
  have hskip := @skipBlanks_chars l depth (number n) rest
  rw [chars, hcs, List.cons_append] at hskip ⊢
  rw [hcs, List.cons_append] at hread
  refine Reader.value_scalar hskip ?_ ?_ ?_
  · exact Number.ne_of_start hc (by decide) rfl
  · exact Number.ne_of_start hc (by decide) rfl
  · rw [readScalar_number hc, hread]
    rfl

theorem readsBack_string (s : String) : (string s).ReadsBack l := by
  intro depth stack rest _ _
  have hquoted := @Quoted.read_encoded rest s
  rw [chars, Quoted.encode_append]
  refine Reader.value_scalar (skipBlanks_cons rfl) (by decide) (by decide) ?_
  rw [readScalar, hquoted]
  rfl

theorem readsBack_scalar (n : Node) (ho : n.object? = none) (ha : n.array? = none) :
    n.ReadsBack l := by
  cases n with
  | null =>
    exact fun _ _ _ _ _ => Reader.value_scalar (skipBlanks_cons rfl) (by decide) (by decide) rfl
  | bool b =>
    cases b <;>
      exact fun _ _ _ _ _ => Reader.value_scalar (skipBlanks_cons rfl) (by decide) (by decide) rfl
  | number n => exact readsBack_number n
  | string s => exact readsBack_string s
  | array => cases ha
  | object => cases ho

/-! ### Lists and objects -/

section

variable {below stack : List Frame} {rest : List Char}

theorem value_openList (hstack : stack.length < maxDepth) (x : Node) (more : List Char) :
    Reader.value stack ('[' :: (l.lineBreak depth ++ (x.chars l depth ++ more))) =
      Reader.value (.items [] :: stack) (x.chars l depth ++ more) := by
  have hskip := @skipBlanks_chars l depth x more
  obtain ⟨c, cs, hcs, -, hc, -⟩ := x.chars_eq_cons l depth
  rw [← l.skipBlanks_lineBreak depth, hcs] at hskip
  rw [hcs]
  exact Reader.value_list (skipBlanks_cons rfl) hskip hc hstack

theorem resume_nextItem {done : List Node} (x y : Node) (more : List Char) :
    Reader.resume x (.items done :: below)
        (',' :: (l.lineBreak depth ++ (y.chars l depth ++ more))) =
      Reader.value (.items (x :: done) :: below) (y.chars l depth ++ more) := by
  have hskip := @skipBlanks_chars l depth y more
  obtain ⟨c, cs, hcs, -, hc, -⟩ := y.chars_eq_cons l depth
  rw [← l.skipBlanks_lineBreak depth, hcs] at hskip
  rw [hcs]
  exact Reader.resume_items_next (skipBlanks_cons rfl) hskip hc

theorem value_openObject (hstack : stack.length < maxDepth) (key : String) (more : List Char) :
    Reader.value stack ('\x7b' :: (l.lineBreak depth ++ (Quoted.encode key.toList ++ more))) =
      Reader.entry [] stack (Quoted.encode key.toList ++ more) := by
  rw [Quoted.encode_append]
  refine Reader.value_object (skipBlanks_cons rfl) ?_ (by decide) hstack
  rw [l.skipBlanks_lineBreak, skipBlanks_cons rfl]

theorem resume_nextEntry {done : Object} {key : String} (v : Node) (next : String)
    (more : List Char) : Reader.resume v (.entries done key :: below)
        (',' :: (l.lineBreak depth ++ (Quoted.encode next.toList ++ more))) =
      Reader.entry (Fields.insert done key v) below (Quoted.encode next.toList ++ more) := by
  rw [Quoted.encode_append]
  refine Reader.resume_entries_next (skipBlanks_cons rfl) ?_ (by decide)
  rw [l.skipBlanks_lineBreak, skipBlanks_cons rfl]

/-- The rest of a list is read to its end. -/
theorem resume_charsItems {xs : List Node} (hxs : ∀ x ∈ xs, x.ReadsBack l)
    (hreadable : ∀ x ∈ xs, x.Readable (below.length + 1)) (x : Node) (done : List Node) :
    Reader.resume x (.items done :: below)
        (charsItems l (depth + 1) xs ++ (l.lineBreak depth ++ ']' :: rest)) =
      Reader.resume (.array (done.reverse ++ x :: xs)) below rest := by
  induction xs generalizing x done with
  | nil =>
    have hclose : skipBlanks (l.lineBreak depth ++ ']' :: rest) = ']' :: rest := by
      rw [l.skipBlanks_lineBreak, skipBlanks_cons rfl]
    rw [charsItems, List.nil_append, Reader.resume_items_close hclose, List.reverse_cons]
  | cons y ys ih =>
    obtain ⟨hy, hys⟩ := List.forall_mem_cons.mp hxs
    obtain ⟨hreadable, hreadables⟩ := List.forall_mem_cons.mp hreadable
    have hread := hy (depth + 1) (.items (x :: done) :: below) _ hreadable
      (ends_charsItems l depth ys rest)
    rw [charsItems]
    simp only [List.cons_append, List.append_assoc]
    rw [resume_nextItem, hread, ih hys hreadables]
    simp

/-- The rest of an object is read to its end, and no key of it is one that has been read before. -/
theorem resume_charsFields {fs : Object} (hfs : ∀ k v, (k, v) ∈ fs → v.ReadsBack l)
    (hreadable : ∀ k v, (k, v) ∈ fs → v.Readable (below.length + 1)) (key : String) (v : Node)
    (done : Object) (hkeys : Fields.Distinct (done ++ (key, v) :: fs)) :
    Reader.resume v (.entries done key :: below)
        (charsFields l (depth + 1) fs ++ (l.lineBreak depth ++ '\x7d' :: rest)) =
      Reader.resume (.object (done ++ (key, v) :: fs)) below rest := by
  induction fs generalizing key v done with
  | nil =>
    have hclose : skipBlanks (l.lineBreak depth ++ '\x7d' :: rest) = '\x7d' :: rest := by
      rw [l.skipBlanks_lineBreak, skipBlanks_cons rfl]
    rw [charsFields, List.nil_append, Reader.resume_entries_close hclose,
      Fields.insert_of_distinct_append hkeys]
  | cons e fs ih =>
    obtain ⟨next, w⟩ := e
    obtain ⟨hw, hfs⟩ := Fields.forall_mem_cons.mp hfs
    obtain ⟨hreadable, hreadables⟩ := Fields.forall_mem_cons.mp hreadable
    have hread := hw (depth + 1) (.entries (done ++ [(key, v)]) next :: below) _ hreadable
      (ends_charsFields l depth fs rest)
    have hkeys' : Fields.Distinct (done ++ [(key, v)] ++ (next, w) :: fs) := by simpa using hkeys
    rw [charsFields]
    simp only [List.cons_append, List.append_assoc]
    rw [resume_nextEntry, Reader.entry_encode, Fields.insert_of_distinct_append hkeys, hread,
      ih hfs hreadables _ _ _ hkeys']
    simp

end

theorem readsBack_array {xs : List Node} (hxs : ∀ x ∈ xs, x.ReadsBack l) :
    (array xs).ReadsBack l := by
  intro depth stack rest hreadable _
  obtain ⟨hroom, hreadable⟩ := readable_array_iff.mp hreadable
  cases xs with
  | nil => exact Reader.value_emptyList (skipBlanks_cons rfl) (skipBlanks_cons rfl) hroom
  | cons x xs =>
    obtain ⟨hx, hxs⟩ := List.forall_mem_cons.mp hxs
    obtain ⟨hreadable, hreadables⟩ := List.forall_mem_cons.mp hreadable
    have hread := hx (depth + 1) (.items [] :: stack) _ hreadable (ends_charsItems l depth xs rest)
    rw [chars]
    simp only [List.cons_append, List.append_assoc, List.nil_append]
    rw [value_openList hroom, hread, resume_charsItems hxs hreadables]
    rfl

theorem readsBack_object {fs : Object} (hfs : ∀ k v, (k, v) ∈ fs → v.ReadsBack l) :
    (object fs).ReadsBack l := by
  intro depth stack rest hreadable _
  obtain ⟨hroom, hkeys, hreadable⟩ := readable_object_iff.mp hreadable
  cases fs with
  | nil => exact Reader.value_emptyObject (skipBlanks_cons rfl) (skipBlanks_cons rfl) hroom
  | cons e fs =>
    obtain ⟨key, v⟩ := e
    obtain ⟨hv, hfs⟩ := Fields.forall_mem_cons.mp hfs
    obtain ⟨hreadable, hreadables⟩ := Fields.forall_mem_cons.mp hreadable
    have hread := hv (depth + 1) (.entries [] key :: stack) _ hreadable
      (ends_charsFields l depth fs rest)
    rw [chars]
    simp only [List.cons_append, List.append_assoc, List.nil_append]
    rw [value_openObject hroom, Reader.entry_encode, hread,
      resume_charsFields hfs hreadables _ _ _ hkeys]
    rfl

theorem readsBack (n : Node) : n.ReadsBack l := by
  induction n using Node.induct with
  | scalar n ho ha => exact readsBack_scalar n ho ha
  | array xs ih => exact readsBack_array ih
  | object fs ih => exact readsBack_object ih

theorem read_chars {rest : List Char} (hn : n.Readable 0) (hrest : Numeral.Ends rest) :
    read (n.chars l 0 ++ rest) = .ok (n, rest) := by
  rw [read, readsBack n 0 [] rest hn hrest, Reader.resume]

theorem parse_pretty (hn : n.Readable 0) : parse n.pretty = .ok n := by
  have hread := @read_chars .indented n ['\n'] hn (.cons (by decide))
  rw [parse, ofStart, pretty, String.toList_ofList, hread]
  rfl

theorem parseWhole_compact (hn : n.Readable 0) : parseWhole n.compact = .ok n := by
  have hread := @read_chars .compact n [] hn nofun
  rw [List.append_nil] at hread
  rw [parseWhole, ofText, compact, String.toList_ofList, hread]
  rfl

end Node

end ConfigSchema
