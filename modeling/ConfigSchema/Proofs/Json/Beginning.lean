import ConfigSchema.Input
import ConfigSchema.Proofs.Json.Locality
import ConfigSchema.Json.Steps

/-!
# Reading the beginning of a text

A step of the reader takes some characters and looks at most at the next one
(`Reader.Step.exists_taken`). So a reading depends on the characters that it takes and on nothing
behind them, unless a numeral could go on there (`Reader.exists_reads`), and what is read from the
beginning of a text is the value of the text as a whole or of a document in front of something else
(`Node.parse_beginning`).
-/

namespace ConfigSchema

open Numeral

namespace Reader

variable {st st' : State} {cs rest : List Char} {r : Node × List Char}

/-- How many containers are open. -/
def State.depth : State → Nat
  | .value stack => stack.length
  | .entry _ below => below.length + 1
  | .resume _ stack => stack.length

theorem not_mem_blanks {blanks : List Char} (hblanks : ∀ b ∈ blanks, isBlank b = true) {c : Char}
    (hc : isBlank c = false) : c ∉ blanks := by
  intro h
  rw [hblanks c h] at hc
  cases hc

/-- After a mark, the blanks in front of the next character are taken too. -/
theorem exists_taken_of_marks {mark next : Char} {cs' : List Char}
    (h : skipBlanks cs = mark :: rest) (hrest : skipBlanks rest = next :: cs') :
    ∃ taken, taken ≠ [] ∧ cs = taken ++ next :: cs' ∧ ∀ cs', ∃ rest,
      skipBlanks (taken ++ next :: cs') = mark :: rest ∧ skipBlanks rest = next :: cs' := by
  obtain ⟨blanks, -, rfl, hmark⟩ := exists_blanks h
  obtain ⟨blanks', -, rfl, hnext⟩ := exists_blanks hrest
  refine ⟨blanks ++ mark :: blanks', by simp, by simp, fun cs' => ⟨_, ?_, hnext cs'⟩⟩
  rw [List.append_assoc]
  exact hmark _

namespace Step

/-- A step takes `taken`. It looks no further than the next character; if it ends the reading not
even so far, unless what it takes is a numeral. -/
structure Takes (st : State) (taken : List Char) (st' : State) (rest : List Char) : Prop where
  ne_nil : taken ≠ []
  closes : st'.depth < st.depth → ∀ d ∈ taken.getLast?, d.isDigit = false
  ends : st'.depth = 0 → (∃ v, st' = .resume v []) ∧ Over taken rest
  step : ∀ rest', rest'.head? = rest.head? ∨ st'.depth = 0 ∧ Over taken rest' →
    Step st (taken ++ rest') st' rest'

/-- A step that closes a container takes the text up to the bracket. -/
theorem takes_of_close {front : List Char} {bracket : Char} {v : Node} {stack : List Frame}
    (hbracket : bracket.isDigit = false)
    (hstep : ∀ rest, Step st (front ++ bracket :: rest) (.resume v stack) rest) :
    ∃ taken, front ++ bracket :: rest = taken ++ rest ∧
      Takes st taken (.resume v stack) rest := by
  have hdigit : ∀ d ∈ (front ++ [bracket]).getLast?, d.isDigit = false := by
    rw [List.getLast?_concat]
    rintro d ⟨⟩
    exact hbracket
  refine ⟨front ++ [bracket], by simp, by simp, fun _ => hdigit, fun hdepth => ⟨⟨v, ?_⟩,
    over_of_getLast? hdigit⟩, fun rest' _ => ?_⟩
  · rw [List.length_eq_zero_iff.mp hdepth]
  · rw [List.append_assoc]
    exact hstep rest'

/-- A step into a container, or to the next part of one, takes the text up to the next character
that is no blank. -/
theorem takes_of_open {mark next : Char} {cs' : List Char} (h : skipBlanks cs = mark :: rest)
    (hrest : skipBlanks rest = next :: cs') (hst : st.depth ≤ st'.depth) (hdepth : 0 < st'.depth)
    (hstep : ∀ {cs rest cs' : List Char}, skipBlanks cs = mark :: rest →
      skipBlanks rest = next :: cs' → Step st cs st' (next :: cs')) :
    ∃ taken, cs = taken ++ next :: cs' ∧ Takes st taken st' (next :: cs') := by
  obtain ⟨taken, hne, rfl, hmarks⟩ := exists_taken_of_marks h hrest
  refine ⟨taken, rfl, hne, fun h => absurd h (Nat.not_lt.mpr hst),
    fun h => absurd h (Nat.ne_of_gt hdepth), fun rest' h => ?_⟩
  have hhead := h.resolve_right fun h => Nat.ne_of_gt hdepth h.1
  obtain ⟨cs'', rfl⟩ := List.head?_eq_some_iff.mp hhead
  obtain ⟨rest, h, hrest⟩ := hmarks cs''
  exact hstep h hrest

theorem takes_of_scalar {stack : List Frame} {c : Char} {cs' : List Char} {n : Node}
    (h : skipBlanks cs = c :: cs') (hlist : c ≠ '[') (hobject : c ≠ '{')
    (hscalar : readScalar (c :: cs') = .ok (n, rest)) :
    ∃ taken, cs = taken ++ rest ∧ Takes (.value stack) taken (.resume n stack) rest := by
  obtain ⟨blanks, hblanks, rfl, hskip⟩ := exists_blanks h
  obtain ⟨scalar, hne, heq, hover, hread⟩ := local_readScalar hscalar
  have hiff (rest : List Char) : Over (blanks ++ scalar) rest ↔ Over scalar rest :=
    over_append_left ⟨not_mem_blanks hblanks rfl, not_mem_blanks hblanks rfl,
      not_mem_blanks hblanks rfl⟩ hne
  refine ⟨blanks ++ scalar, by rw [heq, List.append_assoc], by simp [hne],
    fun h => absurd h (Nat.lt_irrefl _), fun hdepth => ⟨⟨n, ?_⟩, (hiff rest).mpr hover⟩,
    fun rest' h => ?_⟩
  · rw [List.length_eq_zero_iff.mp hdepth]
  · have hover' : Over scalar rest' := by
      rcases h with hhead | ⟨-, hover'⟩
      · exact (over_congr hhead).mpr hover
      · exact (hiff rest').mp hover'
    obtain ⟨d, scalar, rfl⟩ := List.exists_cons_of_ne_nil hne
    obtain ⟨rfl, -⟩ := List.cons.inj heq
    rw [List.append_assoc, List.cons_append]
    exact .scalar (hskip _) hlist hobject (hread rest' hover')

theorem exists_taken (h : Step st cs st' rest) :
    ∃ taken, cs = taken ++ rest ∧ Takes st taken st' rest := by
  cases h with
  | scalar h hlist hobject hscalar => exact takes_of_scalar h hlist hobject hscalar
  | emptyList hstack h hrest =>
    obtain ⟨taken, -, rfl, hmarks⟩ := exists_taken_of_marks h hrest
    refine takes_of_close rfl fun rest => ?_
    obtain ⟨rest', h, hrest⟩ := hmarks rest
    exact .emptyList hstack h hrest
  | list hstack h hrest hc =>
    exact takes_of_open h hrest (Nat.le_succ _) (Nat.succ_pos _) fun h hrest =>
      .list hstack h hrest hc
  | emptyObject hstack h hrest =>
    obtain ⟨taken, -, rfl, hmarks⟩ := exists_taken_of_marks h hrest
    refine takes_of_close rfl fun rest => ?_
    obtain ⟨rest', h, hrest⟩ := hmarks rest
    exact .emptyObject hstack h hrest
  | object hstack h hrest hc =>
    exact takes_of_open h hrest (Nat.le_succ _) (Nat.succ_pos _) fun h hrest =>
      .object hstack h hrest hc
  | key h =>
    obtain ⟨taken, hne, rfl, hlocal⟩ := exists_taken_of_readKey h
    exact ⟨taken, rfl, hne, fun h => absurd h (Nat.lt_irrefl _),
      fun h => absurd h (Nat.succ_ne_zero _), fun rest' _ => .key (hlocal rest')⟩
  | closeList h =>
    obtain ⟨blanks, -, rfl, hlocal⟩ := exists_blanks h
    exact takes_of_close rfl fun rest => .closeList (hlocal rest)
  | nextItem h hrest hc =>
    exact takes_of_open h hrest (Nat.le_refl _) (Nat.succ_pos _) fun h hrest =>
      .nextItem h hrest hc
  | closeObject h =>
    obtain ⟨blanks, -, rfl, hlocal⟩ := exists_blanks h
    exact takes_of_close rfl fun rest => .closeObject (hlocal rest)
  | nextEntry h hrest hc =>
    exact takes_of_open h hrest (Nat.le_refl _) (Nat.succ_pos _) fun h hrest =>
      .nextEntry h hrest hc

end Step

/-- A reading takes `taken`, wherever a numeral that this ends with is over; a reading that begins
inside a container ends with a bracket. -/
structure Reads (st : State) (taken : List Char) (r : Node × List Char) : Prop where
  closed : 0 < st.depth → taken ≠ [] ∧ ∀ d ∈ taken.getLast?, d.isDigit = false
  ended : Over taken r.2
  run_eq : ∀ rest, Over taken rest → run st (taken ++ rest) = .ok (r.1, rest)

theorem Reads.of_end {taken : List Char} {v : Node}
    (h : Step.Takes st taken (.resume v []) rest) : Reads st taken (v, rest) := by
  refine ⟨fun hdepth => ⟨h.ne_nil, h.closes hdepth⟩, (h.ends rfl).2, fun rest' hover => ?_⟩
  rw [(h.step rest' (.inr ⟨rfl, hover⟩)).run_eq, run, resume]

theorem Reads.of_step {taken taken' : List Char} (h : Step.Takes st taken st' (taken' ++ r.2))
    (hdepth : 0 < st'.depth) (hr : Reads st' taken' r) : Reads st (taken ++ taken') r := by
  obtain ⟨hne, hlast⟩ := hr.closed hdepth
  have hlast' : ∀ d ∈ (taken ++ taken').getLast?, d.isDigit = false := by
    rwa [List.getLast?_append_of_ne_nil taken hne]
  refine ⟨fun _ => ⟨by simp [hne], hlast'⟩, over_of_getLast? hlast', fun rest' _ => ?_⟩
  have hhead : (taken' ++ rest').head? = (taken' ++ r.2).head? := by
    rw [List.head?_append_of_ne_nil taken' hne, List.head?_append_of_ne_nil taken' hne]
  rw [List.append_assoc, (h.step _ (.inl hhead)).run_eq, hr.run_eq rest' (over_of_getLast? hlast)]

theorem exists_reads (h : run st cs = .ok r) : ∃ taken, cs = taken ++ r.2 ∧ Reads st taken r := by
  refine run_induct (motive := fun st cs => ∃ taken, cs = taken ++ r.2 ∧ Reads st taken r) ?_ ?_ h
  · rintro v cs rfl
    have hlast : ∀ d ∈ ([] : List Char).getLast?, d.isDigit = false := fun _ h => by cases h
    refine ⟨[], rfl, fun h => absurd h (Nat.lt_irrefl _), over_of_getLast? hlast, fun rest _ => ?_⟩
    rw [List.nil_append, run, resume]
  · intro st cs st' cs' hstep h ih
    obtain ⟨taken, rfl, htakes⟩ := hstep.exists_taken
    by_cases hdepth : st'.depth = 0
    · obtain ⟨⟨v, rfl⟩, -⟩ := htakes.ends hdepth
      rw [run, resume] at h
      obtain rfl := Except.ok.inj h
      exact ⟨taken, rfl, .of_end htakes⟩
    · obtain ⟨taken', rfl, hr⟩ := ih
      exact ⟨taken ++ taken', by simp, .of_step htakes (Nat.pos_of_ne_zero hdepth) hr⟩

end Reader

namespace Node

variable {text document : String} {cs rest : List Char} {n : Node}

/-- A value at the beginning of a text is read from the characters that it takes. -/
theorem exists_taken_of_read (h : read cs = .ok (n, rest)) : ∃ taken, cs = taken ++ rest ∧
    Over taken rest ∧ ∀ rest, Over taken rest → read (taken ++ rest) = .ok (n, rest) := by
  obtain ⟨taken, hcs, hr⟩ := @Reader.exists_reads (.value []) cs (n, rest) h
  exact ⟨taken, hcs, hr.ended, hr.run_eq⟩

/-! ### The beginning and the whole of a text -/

theorem parse_of_read (h : read text.toList = .ok (n, rest)) : parse text = .ok n := by
  rw [parse, ofStart, h]
  rfl

theorem parseWhole_of_end (h : read text.toList = .ok (n, rest)) (hrest : skipBlanks rest = []) :
    parseWhole text = .ok n := by
  rw [parseWhole, ofText, h, Result.ok_bind]
  dsimp only
  rw [hrest]
  rfl

theorem parseWhole_of_trailing {c : Char} (h : read text.toList = .ok (n, rest))
    (hrest : skipBlanks rest = c :: cs) : parseWhole text =
      .error (.notOneDocument text (Stop.here .trailingCharacters (c :: cs))) := by
  rw [parseWhole, ofText, h, Result.ok_bind]
  dsimp only
  rw [hrest]
  rfl

theorem exists_read_of_parseWhole (h : parseWhole text = .ok n) :
    ∃ rest, read text.toList = .ok (n, rest) ∧ skipBlanks rest = [] := by
  cases hread : read text.toList with
  | error fault =>
    rw [parseWhole, ofText, hread] at h
    cases h
  | ok r =>
    obtain ⟨m, rest⟩ := r
    cases hrest : skipBlanks rest with
    | nil =>
      rw [parseWhole_of_end hread hrest] at h
      cases h
      exact ⟨rest, rfl, hrest⟩
    | cons c cs =>
      rw [parseWhole_of_trailing hread hrest] at h
      cases h

/-- The text goes on behind the document: with a character that is no blank, and that does not
continue a numeral at the end of the document. -/
structure GoesOn (text document : String) (rest : List Char) : Prop where
  split : text.toList = document.toList ++ rest
  begins : ∃ c ∈ rest.head?, isBlank c = false
  ended : Over document.toList rest

theorem ne_of_isBlank {c : Char} (h : isBlank c = true) :
    c.isDigit = false ∧ c ≠ 'e' ∧ c ≠ 'E' ∧ c ≠ '.' := by
  simp only [isBlank, Bool.or_eq_true, beq_iff_eq] at h
  rcases h with ((rfl | rfl) | rfl) | rfl <;> decide

/-- Blanks end a numeral. -/
theorem over_of_blanks {blanks : List Char} (hblanks : ∀ b ∈ blanks, isBlank b = true) :
    Over cs blanks := by
  intro _ c hc
  obtain ⟨hdigit, hlower, hupper, hpoint⟩ := ne_of_isBlank (hblanks c (List.mem_of_mem_head? hc))
  exact ⟨hdigit, .inr (.inr ⟨⟨hlower, hupper⟩, .inr hpoint⟩)⟩

theorem over_append_blanks {blanks : List Char} (hblanks : ∀ b ∈ blanks, isBlank b = true)
    (hover : Over cs (blanks ++ rest)) : Over (cs ++ blanks) rest := by
  cases hnil : blanks with
  | nil =>
    rw [hnil] at hover
    rwa [List.append_nil]
  | cons b bs =>
    rw [← hnil]
    refine over_of_getLast? fun d hd => ?_
    rw [List.getLast?_append_of_ne_nil cs (by rw [hnil]; exact List.cons_ne_nil b bs)] at hd
    exact (ne_of_isBlank (hblanks d (List.mem_of_mem_getLast? hd))).1

/-- What follows a value that has been read follows a document. -/
theorem exists_goesOn {c : Char} (h : read text.toList = .ok (n, rest))
    (hrest : skipBlanks rest = c :: cs) :
    ∃ document, GoesOn text document (c :: cs) ∧ parseWhole document = .ok n := by
  obtain ⟨taken, htext, hover, hlocal⟩ := exists_taken_of_read h
  obtain ⟨blanks, hblanks, rfl, -⟩ := exists_blanks hrest
  have hc : isBlank c = false := head_dropWhile _ c (by rw [← skipBlanks, hrest]; rfl)
  refine ⟨String.ofList (taken ++ blanks), ⟨?_, ⟨c, rfl, hc⟩, ?_⟩, ?_⟩
  · rw [htext, String.toList_ofList, List.append_assoc]
  · rw [String.toList_ofList]
    exact over_append_blanks hblanks hover
  · refine @parseWhole_of_end _ blanks n ?_ ?_
    · rw [String.toList_ofList, hlocal blanks (over_of_blanks hblanks)]
    · rw [← List.append_nil blanks, skipBlanks_append hblanks]
      rfl

theorem GoesOn.exists_read (h : GoesOn text document rest)
    (hdocument : parseWhole document = .ok n) :
    ∃ rest', read text.toList = .ok (n, rest') ∧ skipBlanks rest' = rest := by
  obtain ⟨blanks, hread, hskip⟩ := exists_read_of_parseWhole hdocument
  obtain ⟨taken, htaken, hover, hlocal⟩ := exists_taken_of_read hread
  have hblanks : ∀ b ∈ blanks, isBlank b = true := List.dropWhile_eq_nil_iff.mp hskip
  have hover' : Over taken (blanks ++ rest) := by
    cases hnil : blanks with
    | nil =>
      rw [hnil, List.append_nil] at htaken
      rw [List.nil_append, ← htaken]
      exact h.ended
    | cons b bs =>
      rw [hnil] at hover
      exact (over_congr rfl).mp hover
  refine ⟨blanks ++ rest, ?_, ?_⟩
  · rw [h.split, htaken, List.append_assoc, hlocal _ hover']
  · obtain ⟨c, hc, hblank⟩ := h.begins
    obtain ⟨cs, rfl⟩ := List.head?_eq_some_iff.mp hc
    rw [skipBlanks_append hblanks, skipBlanks_cons hblank]

/-- Reading the beginning of a text gives the value of the text as a whole, or of a document behind
which the text goes on; then the text as a whole is refused, and what is loaded from it is what is
loaded from the document. If there is no value at the beginning, then the text as a whole is refused
for the same reason. -/
theorem parse_beginning (text : String) :
    (∀ n, parse text = .ok n ↔ parseWhole text = .ok n ∨
      ∃ document rest, GoesOn text document rest ∧ parseWhole document = .ok n) ∧
    (∀ document rest n, GoesOn text document rest → parseWhole document = .ok n →
      parseWhole text = .error (.notOneDocument text (Stop.here .trailingCharacters rest)) ∧
      ∀ engine selection,
        Schema.load engine text selection = Schema.load engine document selection) ∧
    ∀ e, parse text = .error e → ∃ fault, e = .unreadable text fault ∧
      parseWhole text = .error (.notOneDocument text fault.stop) := by
  refine ⟨fun n => ⟨fun h => ?_, ?_⟩, fun document rest n hgoes hdocument => ?_, fun e h => ?_⟩
  · obtain ⟨⟨m, rest⟩, hread, rfl⟩ := Result.map_eq_ok_iff.mp (Result.mapError_eq_ok_iff.mp h)
    cases hrest : skipBlanks rest with
    | nil => exact .inl (parseWhole_of_end hread hrest)
    | cons c cs =>
      obtain ⟨document, hgoes, hdocument⟩ := exists_goesOn hread hrest
      exact .inr ⟨document, c :: cs, hgoes, hdocument⟩
  · rintro (h | ⟨document, rest, hgoes, hdocument⟩)
    · obtain ⟨rest, hread, -⟩ := exists_read_of_parseWhole h
      exact parse_of_read hread
    · obtain ⟨rest', hread, -⟩ := hgoes.exists_read hdocument
      exact parse_of_read hread
  · obtain ⟨rest', hread, hrest⟩ := hgoes.exists_read hdocument
    obtain ⟨c, hc, -⟩ := hgoes.begins
    obtain ⟨cs, rfl⟩ := List.head?_eq_some_iff.mp hc
    refine ⟨parseWhole_of_trailing hread hrest, fun engine selection => ?_⟩
    obtain ⟨blanks, hread', -⟩ := exists_read_of_parseWhole hdocument
    refine Schema.load_congr ?_
    rw [Selection.root, Selection.root, parse_of_read hread, parse_of_read hread']
  · obtain ⟨fault, hstart, rfl⟩ := Result.mapError_eq_error_iff.mp h
    have hread := Result.map_eq_error_iff.mp hstart
    refine ⟨fault, rfl, ?_⟩
    rw [parseWhole, ofText, hread]
    rfl

/-- An object that is followed by a letter. -/
def trailing : String := "\x7b\x7d x"

theorem read_trailing : read trailing.toList = .ok (.object [], [' ', 'x']) := by
  have h := @Reader.value_emptyObject [] trailing.toList [' ', 'x'] _ (skipBlanks_cons rfl)
    (skipBlanks_cons rfl) (by decide)
  rw [read, h, Reader.resume]

theorem parse_beginning_trailing : GoesOn trailing "\x7b\x7d " ['x'] ∧
    parseWhole "\x7b\x7d " = .ok (.object []) ∧
    parseWhole trailing = .error (.notOneDocument trailing (Stop.here .trailingCharacters ['x'])) ∧
    ∀ engine selection,
      Schema.load engine trailing selection = Schema.load engine "\x7b\x7d " selection := by
  have hover : Over "\x7b\x7d ".toList ['x'] := over_of_getLast? (by rintro d ⟨⟩; rfl)
  have hgoes : GoesOn trailing "\x7b\x7d " ['x'] := ⟨rfl, ⟨'x', rfl, rfl⟩, hover⟩
  have hread : read "\x7b\x7d ".toList = .ok (.object [], [' ']) := by
    have h := @Reader.value_emptyObject [] "\x7b\x7d ".toList [' '] _ (skipBlanks_cons rfl)
      (skipBlanks_cons rfl) (by decide)
    rw [read, h, Reader.resume]
  have hdocument : parseWhole "\x7b\x7d " = .ok (.object []) := parseWhole_of_end hread rfl
  obtain ⟨-, hrefused, -⟩ := parse_beginning trailing
  exact ⟨hgoes, hdocument, hrefused "\x7b\x7d " ['x'] (.object []) hgoes hdocument⟩

theorem not_parse_iff_parseWhole :
    ¬ ∀ (text : String) (n : Node), parse text = .ok n ↔ parseWhole text = .ok n := by
  intro h
  have hwhole := (h trailing (.object [])).mp (parse_of_read read_trailing)
  rw [parseWhole_of_trailing read_trailing rfl] at hwhole
  cases hwhole

end Node

end ConfigSchema
