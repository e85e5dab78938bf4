import ConfigSchema.Proofs.CommandLine.Grammar
import ConfigSchema.Proofs.Result
import Mathlib.Data.List.Nodup
import Mathlib.Data.List.TakeWhile

/-!
# Arguments are read as their grammar says

The reading accepts just the arguments of the grammar, and ends with just the options that they give
(`Options.ofArguments_eq_ok_iff`). It puts a value to use later than it takes it, which makes no
difference to what comes of the further arguments (`Reading.settle_bind_finish`); so it goes from one
option to the next with all the values put to use (`Reading.finish_spells`).
-/

namespace ConfigSchema

namespace CommandLine

namespace Options

/-- The options after one more. -/
def add (o : Options) : Given → Except Halt Options
  | .flag f => o.raise f
  | .setting s value => o.give s value

end Options

namespace Reading

variable {r : Reading} {o o' : Options} {arguments rest : List String} {argument : String}

/-- What comes of the further arguments. -/
def finish (r : Reading) (arguments : List String) : Except Halt Options := do
  let r ← arguments.foldlM take r
  return (← r.settle).options

/-- The options have all been put to use. -/
def settled (o : Options) : Reading := { options := o }

theorem finish_cons (r : Reading) (argument : String) (rest : List String) :
    r.finish (argument :: rest) = r.take argument >>= fun r => r.finish rest := by
  rw [finish, List.foldlM_cons, bind_assoc]
  rfl

/-! ### One argument -/

theorem take_long {body : List Char} (hr : r.ended = false) (hbody : body ≠ [])
    (h : argument.toList = '-' :: '-' :: body) : r.take argument = r.long body := by
  obtain ⟨c, cs, rfl⟩ := List.exists_cons_of_ne_nil hbody
  rw [take, hr, h]
  rfl

theorem take_letters {c : Char} {cs : List Char} (hr : r.ended = false) (hc : c ≠ '-')
    (h : argument.toList = '-' :: c :: cs) : r.take argument = r.letters (c :: cs) := by
  rw [take, hr, h]
  simp [hc]

theorem take_plain (hr : r.ended = false) (h : IsPlain argument) :
    r.take argument = r.plain argument := by
  rw [take, hr]
  rcases h with rfl | h
  · rfl
  · cases hcs : argument.toList with
    | nil => rfl
    | cons c cs =>
      rw [hcs] at h
      have hc : c ≠ '-' := fun heq => h (congrArg some heq)
      simp [hc]

/-- An argument is two dashes, has two dashes or one in front, or does not look like an option. -/
theorem argument_cases (argument : String) : argument = "--" ∨
    (∃ body, body ≠ [] ∧ argument.toList = '-' :: '-' :: body) ∨
    (∃ c cs, c ≠ '-' ∧ argument.toList = '-' :: c :: cs) ∨ IsPlain argument := by
  cases htext : argument.toList with
  | nil => exact .inr (.inr (.inr (.inr (by rw [htext]; simp))))
  | cons c cs =>
    by_cases hc : c = '-'
    · subst hc
      cases cs with
      | nil => exact .inr (.inr (.inr (.inl (String.toList_injective htext))))
      | cons d ds =>
        by_cases hd : d = '-'
        · subst hd
          cases ds with
          | nil => exact .inl (String.toList_injective htext)
          | cons => exact .inr (.inl ⟨_, List.cons_ne_nil _ _, rfl⟩)
        · exact .inr (.inr (.inl ⟨d, ds, hd, rfl⟩))
    · exact .inr (.inr (.inr (.inr (by rw [htext]; simpa using hc))))

/-! ### A value that waits to be put to use -/

theorem settle_eq_error {e : Halt} (h : r.settle = .error e) : e = .misuse := by
  unfold settle at h
  split at h
  · cases h
  · cases h; rfl
  · rw [Result.bind_eq_error_iff] at h
    obtain h | ⟨_, _, h⟩ := h
    · unfold Options.give at h
      split at h
      · cases h; rfl
      · cases h
    · cases h

theorem settle_eq_ok {r' : Reading} (h : r.settle = .ok r') :
    r'.pending? = none ∧ r'.ended = r.ended := by
  unfold settle at h
  split at h
  · next hnone => cases h; exact ⟨hnone, rfl⟩
  · cases h
  · obtain ⟨o, -, h⟩ := Result.bind_eq_ok_iff.mp h
    cases h
    exact ⟨rfl, rfl⟩

/-- A step that begins with putting the value to use may as well find it put to use. -/
theorem settle_bind_of_settle {α : Type} {f g : Reading → Except Halt α}
    (hf : ∀ r, f r = r.settle >>= g) (r : Reading) : (r.settle >>= f) = f r := by
  rw [hf r]
  cases hsettle : r.settle with
  | error e => rfl
  | ok r' =>
    show f r' = g r'
    have hr' : r'.settle = .ok r' := by rw [settle, (settle_eq_ok hsettle).1]
    rw [hf r', hr']
    rfl

theorem settle_bind_misuse {α : Type} (r : Reading) :
    (r.settle >>= fun _ => (.error .misuse : Except Halt α)) = .error .misuse := by
  cases hsettle : r.settle with
  | error e => rw [settle_eq_error hsettle]; rfl
  | ok r' => rfl

theorem settle_bind_flag (r : Reading) (f : Flag) : (r.settle >>= fun r => r.flag f) = r.flag f :=
  settle_bind_of_settle (fun _ => rfl) r

theorem settle_bind_setting (r : Reading) (s : Setting) (attached? : Option String) :
    (r.settle >>= fun r => r.setting s attached?) = r.setting s attached? :=
  settle_bind_of_settle (fun _ => rfl) r

theorem settle_bind_long (r : Reading) (body : List Char) :
    (r.settle >>= fun r => r.long body) = r.long body := by
  unfold long
  dsimp only
  split
  · exact settle_bind_flag ..
  · exact settle_bind_misuse r
  · exact settle_bind_setting ..
  · exact settle_bind_misuse r

theorem settle_bind_letters (r : Reading) (c : Char) (cs : List Char) :
    (r.settle >>= fun r => r.letters (c :: cs)) = r.letters (c :: cs) := by
  unfold letters
  split
  · rw [← bind_assoc, settle_bind_flag]
  · split
    · exact settle_bind_setting ..
    · exact settle_bind_setting ..
    · exact settle_bind_setting ..
  · exact settle_bind_misuse r

/-- An option is waiting for its value. -/
def IsWaiting (r : Reading) : Prop := ∃ s, r.pending? = some (s, none)

theorem plain_of_not_isWaiting (h : ¬ r.IsWaiting) : r.plain argument = .error .misuse := by
  unfold plain
  split
  · next s hpending => exact absurd ⟨s, hpending⟩ h
  · rfl

theorem settle_bind_take (h : ¬ r.IsWaiting) (hended : r.ended = false) (hne : argument ≠ "--") :
    (r.settle >>= fun r => r.take argument) = r.take argument := by
  have hstep {f : Reading → Except Halt Reading}
      (hf : ∀ r : Reading, r.ended = false → ¬ r.IsWaiting → r.take argument = f r)
      (hsettle : (r.settle >>= f) = f r) : (r.settle >>= fun r => r.take argument) = r.take argument := by
    rw [hf r hended h, ← hsettle]
    refine Result.bind_congr fun r' hr' => hf r' ((settle_eq_ok hr').2.trans hended) ?_
    rintro ⟨s, hs⟩
    rw [(settle_eq_ok hr').1] at hs
    cases hs
  obtain heq | ⟨body, hbody, htext⟩ | ⟨c, cs, hc, htext⟩ | hplain := argument_cases argument
  · exact absurd heq hne
  · exact hstep (fun r hr _ => take_long hr hbody htext) (settle_bind_long r body)
  · exact hstep (fun r hr _ => take_letters hr hc htext) (settle_bind_letters r c cs)
  · exact hstep (fun r hr hwait => (take_plain hr hplain).trans (plain_of_not_isWaiting hwait))
      (settle_bind_misuse r)

theorem take_of_ended (h : r.ended = true) : r.take argument = .error .misuse := if_pos h

theorem settle_close (r : Reading) :
    ({ r with ended := true } : Reading).settle =
      r.settle >>= fun r => .ok { r with ended := true } := by
  obtain ⟨o, pending?, ended⟩ := r
  cases pending? with
  | none => rfl
  | some pending =>
    obtain ⟨s, value?⟩ := pending
    cases value? with
    | none => rfl
    | some value =>
      show (o.give s value >>= _) = (o.give s value >>= _) >>= _
      cases o.give s value <;> rfl

/-- It makes no difference when a value is put to use. -/
theorem settle_bind_finish (h : ¬ r.IsWaiting) :
    (r.settle >>= fun r => r.finish arguments) = r.finish arguments := by
  induction arguments generalizing r with
  | nil =>
    show (r.settle >>= fun r => r.settle >>= _) = r.settle >>= _
    rw [← bind_assoc, settle_bind_of_settle (g := pure) (fun r => (bind_pure _).symm)]
  | cons argument rest ih =>
    simp only [finish_cons]
    cases hended : r.ended with
    | true =>
      rw [take_of_ended hended]
      show _ = Except.error Halt.misuse
      rw [← settle_bind_misuse r]
      refine Result.bind_congr fun r' hr' => ?_
      rw [take_of_ended ((settle_eq_ok hr').2.trans hended)]
      rfl
    | false =>
      by_cases hne : argument = "--"
      · have hclose {r : Reading} (hr : r.ended = false) :
            r.take argument = .ok { r with ended := true } := by
          rw [hne, take, hr]
          rfl
        rw [hclose hended, Result.ok_bind, ← ih (r := { r with ended := true }) h, settle_close,
          bind_assoc]
        refine Result.bind_congr fun r' hr' => ?_
        rw [hclose ((settle_eq_ok hr').2.trans hended)]
      · rw [← bind_assoc, settle_bind_take h hended hne]

/-! ### Every spelling gives its option -/

theorem finish_waiting {s : Setting} {value : String} (hvalue : IsPlain value) :
    ({ options := o, pending? := some (s, none) } : Reading).finish (value :: rest) =
      o.give s value >>= fun o => (settled o).finish rest := by
  rw [finish_cons, take_plain rfl hvalue]
  show finish { options := o, pending? := some (s, some value) } rest = _
  rw [← settle_bind_finish (by rintro ⟨_, ⟨⟩⟩)]
  show ((o.give s value >>= _) >>= _) = _
  rw [bind_assoc]
  rfl

theorem long_name (s : Setting) : (settled o).long s.name.toList =
    .ok { options := o, pending? := some (s, none) } := by
  cases s <;> rfl

theorem long_attached (s : Setting) (value : List Char) :
    (settled o).long (s.name.toList ++ '=' :: value) =
      (o.give s (String.ofList value)).map settled := by
  cases s <;> rfl

theorem letters_name {s : Setting} {c : Char} (hc : s.letter? = some c) :
    c ≠ '-' ∧ letter? c = some (.inr s) := by
  cases s <;> cases hc <;> exact ⟨by decide, rfl⟩

theorem letters_joined {s : Setting} {c : Char} {value : List Char}
    (hletter : letter? c = some (.inr s)) (hne : value ≠ []) (hvalue : value.head? ≠ some '=') :
    r.letters (c :: value) = r.setting s (some (String.ofList value)) := by
  rw [letters, hletter]
  dsimp only
  split
  · exact absurd rfl hne
  · exact absurd rfl hvalue
  · rfl

/-- An argument that gives an option on its own. -/
theorem finish_of_take_eq_add {g : Given}
    (htake : (settled o).take argument = (o.add g).map settled) :
    (settled o).finish ([argument] ++ rest) = o.add g >>= fun o => (settled o).finish rest := by
  show (settled o).finish (argument :: rest) = _
  rw [finish_cons, htake]
  cases o.add g <;> rfl

/-- An argument that waits for its value. -/
theorem finish_of_take_eq_waiting {value : String} {s : Setting} (hvalue : IsPlain value)
    (htake : (settled o).take argument = .ok { options := o, pending? := some (s, none) }) :
    (settled o).finish ([argument, value] ++ rest) =
      o.add (.setting s value) >>= fun o => (settled o).finish rest := by
  show (settled o).finish (argument :: (value :: rest)) = _
  rw [finish_cons, htake]
  exact finish_waiting hvalue

theorem finish_spells {words : List String} {g : Given} (h : Spells words g) :
    (settled o).finish (words ++ rest) = o.add g >>= fun o => (settled o).finish rest := by
  cases h with
  | docs => exact finish_of_take_eq_add rfl
  | noOp => exact finish_of_take_eq_add rfl
  | long s hvalue =>
    have htext : ("--" ++ s.name).toList = '-' :: '-' :: s.name.toList := String.toList_append
    refine finish_of_take_eq_waiting hvalue ?_
    rw [take_long rfl (by cases s <;> decide) htext, long_name]
  | longAttached s value =>
    have htext : ("--" ++ s.name ++ "=" ++ value).toList =
        '-' :: '-' :: (s.name.toList ++ '=' :: value.toList) := by
      simp only [String.toList_append, List.append_assoc]
      rfl
    refine finish_of_take_eq_add ?_
    rw [take_long rfl (by simp) htext, long_attached, String.ofList_toList]
    rfl
  | @short s c value hc hvalue =>
    obtain ⟨hdash, hletter⟩ := letters_name hc
    refine finish_of_take_eq_waiting hvalue ?_
    rw [take_letters rfl hdash String.toList_ofList, letters, hletter]
    rfl
  | @shortAttached s c hc value =>
    obtain ⟨hdash, hletter⟩ := letters_name hc
    have htext : (String.ofList ['-', c, '='] ++ value).toList =
        '-' :: c :: '=' :: value.toList := by
      rw [String.toList_append, String.toList_ofList]
      rfl
    refine finish_of_take_eq_add ?_
    rw [take_letters rfl hdash htext, letters, hletter]
    show (settled o).setting s (some (String.ofList value.toList)) = _
    rw [String.ofList_toList]
    rfl
  | @shortJoined s c value hc hne hvalue =>
    obtain ⟨hdash, hletter⟩ := letters_name hc
    have htext : (String.ofList ['-', c] ++ value).toList = '-' :: c :: value.toList := by
      rw [String.toList_append, String.toList_ofList]
      rfl
    refine finish_of_take_eq_add ?_
    rw [take_letters rfl hdash htext, letters_joined hletter (by simpa using hne) hvalue,
      String.ofList_toList]
    rfl

theorem finish_of_spellsAll {given : List Given} (h : SpellsAll arguments given) :
    (settled o).finish arguments = given.foldlM Options.add o := by
  induction h generalizing o with
  | nil => rfl
  | ended => rfl
  | cons hword _ ih =>
    rw [finish_spells hword, List.foldlM_cons]
    exact congrArg _ (funext fun o => ih)

/-! ### Only these spellings are accepted -/

theorem eq_nil_of_ended (hended : r.ended = true) (h : r.finish arguments = .ok o') :
    arguments = [] := by
  cases arguments with
  | nil => rfl
  | cons argument rest =>
    rw [finish_cons, take_of_ended hended] at h
    cases h

theorem exists_value_of_finish {s : Setting}
    (h : ({ options := o, pending? := some (s, none) } : Reading).finish arguments = .ok o') :
    ∃ value rest, arguments = value :: rest ∧ IsPlain value := by
  cases arguments with
  | nil => cases h
  | cons argument rest =>
    rw [finish_cons] at h
    obtain ⟨r, htake, h⟩ := Result.bind_eq_ok_iff.mp h
    obtain rfl | ⟨body, hbody, htext⟩ | ⟨c, cs, hc, htext⟩ | hplain := argument_cases argument
    · cases htake
      obtain rfl := eq_nil_of_ended rfl h
      cases h
    · rw [take_long rfl hbody htext, ← settle_bind_long] at htake
      cases htake
    · rw [take_letters rfl hc htext, ← settle_bind_letters] at htake
      cases htake
    · exact ⟨argument, rest, rfl, hplain⟩

theorem longName?_eq_some {name : String} {x : Flag ⊕ Setting} (h : longName? name = some x) :
    name = "docs" ∧ x = .inl .docs ∨ name = "no-op" ∧ x = .inl .noOp ∨
      (x = .inl .help ∨ x = .inl .version) ∨ ∃ s : Setting, name = s.name ∧ x = .inr s := by
  obtain ⟨before, after, htable, -⟩ := List.lookup_eq_some_iff.mp h
  have hmem : (name, x) ∈ before ++ (name, x) :: after := List.mem_append_right _ List.mem_cons_self
  rw [← htable] at hmem
  simp only [List.mem_cons, Prod.mk.injEq, List.not_mem_nil, or_false] at hmem
  rcases hmem with h | h | ⟨-, h⟩ | ⟨-, h⟩ | h | h | h | h | h | h
  · exact .inl h
  · exact .inr (.inl h)
  · exact .inr (.inr (.inl (.inl h)))
  · exact .inr (.inr (.inl (.inr h)))
  · exact .inr (.inr (.inr ⟨.input, h⟩))
  · exact .inr (.inr (.inr ⟨.output, h⟩))
  · exact .inr (.inr (.inr ⟨.pointer, h⟩))
  · exact .inr (.inr (.inr ⟨.filter, h⟩))
  · exact .inr (.inr (.inr ⟨.version, h⟩))
  · exact .inr (.inr (.inr ⟨.title, h⟩))

theorem letter?_eq_some {c : Char} {x : Flag ⊕ Setting} (h : letter? c = some x) :
    (x = .inl .help ∨ x = .inl .version) ∨ ∃ s : Setting, s.letter? = some c ∧ x = .inr s := by
  unfold letter? at h
  split at h
  · cases h; exact .inl (.inl rfl)
  · cases h; exact .inl (.inr rfl)
  · cases h; exact .inr ⟨.input, rfl, rfl⟩
  · cases h; exact .inr ⟨.output, rfl, rfl⟩
  · cases h

/-- What is asked for by help or version ends the reading. -/
theorem flag_settled_ne_ok {f : Flag} (hf : f = .help ∨ f = .version) :
    (settled o).flag f ≠ .ok r := by
  rcases hf with rfl | rfl <;> exact nofun

theorem longName?_eq_setting {name : String} {s : Setting} (h : longName? name = some (.inr s)) :
    name = s.name := by
  obtain ⟨-, hs⟩ | ⟨-, hs⟩ | hf | ⟨s', hname, hs⟩ := longName?_eq_some h
  · cases hs
  · cases hs
  · simp at hf
  · cases hs
    exact hname

/-- A long option is a name, or a name and a value with the first equals sign between them. -/
theorem exists_name_of_long (body : List Char) :
    ∃ name : String, String.ofList (body.takeWhile (· != '=')) = name ∧
      (body.dropWhile (· != '=') = [] ∧ body = name.toList ∨
        ∃ value, body.dropWhile (· != '=') = '=' :: value ∧
          body = name.toList ++ '=' :: value) := by
  have hbody := List.takeWhile_append_dropWhile (p := (· != '=')) (l := body)
  refine ⟨_, rfl, ?_⟩
  rw [String.toList_ofList]
  cases hdrop : body.dropWhile (· != '=') with
  | nil =>
    rw [hdrop, List.append_nil] at hbody
    exact .inl ⟨rfl, hbody.symm⟩
  | cons d value =>
    have hd : d = '=' := by
      have := List.head?_dropWhile_not (· != '=') body
      rw [hdrop] at this
      simpa using this
    rw [hdrop, hd] at hbody
    exact .inr ⟨value, by rw [hd], hbody.symm⟩

/-- A long option that is taken is a flag, or a setting that waits for its value or has it. -/
theorem long_eq_ok {body : List Char} (h : (settled o).long body = .ok r) :
    body = "docs".toList ∨ body = "no-op".toList ∨ ∃ s : Setting,
      body = s.name.toList ∧ r = { options := o, pending? := some (s, none) } ∨
        ∃ value, body = s.name.toList ++ '=' :: value := by
  obtain ⟨name, hname, ⟨hdrop, hbody⟩ | ⟨value, hdrop, hbody⟩⟩ := exists_name_of_long body
  · simp only [long, hname, hdrop] at h
    split at h
    · next f hlong _ =>
      obtain ⟨rfl, -⟩ | ⟨rfl, -⟩ | hf | ⟨s, -, hs⟩ := longName?_eq_some hlong
      · exact .inl hbody
      · exact .inr (.inl hbody)
      · exact absurd h (flag_settled_ne_ok (by simpa using hf))
      · cases hs
    · next hsome => cases hsome
    · next s hlong =>
      cases h
      exact .inr (.inr ⟨s, .inl ⟨longName?_eq_setting hlong ▸ hbody, rfl⟩⟩)
    · cases h
  · simp only [long, hname, hdrop] at h
    split at h
    · next hnone => cases hnone
    · cases h
    · next s hlong => exact .inr (.inr ⟨s, .inr ⟨value, longName?_eq_setting hlong ▸ hbody⟩⟩)
    · cases h

theorem exists_spells_of_long {body : List Char} (htext : argument.toList = '-' :: '-' :: body)
    (htake : (settled o).long body = .ok r) (h : r.finish rest = .ok o') :
    ∃ words g rest', Spells words g ∧ argument :: rest = words ++ rest' := by
  have hargument : argument = "--" ++ String.ofList body := by
    refine String.toList_injective ?_
    rw [htext, String.toList_append, @String.toList_ofList body]
    rfl
  obtain rfl | rfl | ⟨s, ⟨rfl, rfl⟩ | ⟨value, rfl⟩⟩ := long_eq_ok htake
  · exact ⟨_, _, rest, .docs, by rw [hargument]; rfl⟩
  · exact ⟨_, _, rest, .noOp, by rw [hargument]; rfl⟩
  · obtain ⟨value, rest, rfl, hvalue⟩ := exists_value_of_finish h
    exact ⟨_, _, rest, .long s hvalue, by rw [hargument, String.ofList_toList]; rfl⟩
  · have hattached : argument = "--" ++ s.name ++ "=" ++ String.ofList value := by
      refine String.toList_injective ?_
      rw [htext]
      simp only [String.toList_append, String.toList_ofList, List.append_assoc]
      rfl
    exact ⟨_, _, rest, .longAttached s (String.ofList value), by rw [hattached]; rfl⟩

theorem exists_spells_of_letters {c : Char} {cs : List Char}
    (htext : argument.toList = '-' :: c :: cs)
    (htake : (settled o).letters (c :: cs) = .ok r) (h : r.finish rest = .ok o') :
    ∃ words g rest', Spells words g ∧ argument :: rest = words ++ rest' := by
  unfold letters at htake
  split at htake
  · next f hletter =>
    obtain ⟨r', hflag, -⟩ := Result.bind_eq_ok_iff.mp htake
    obtain hf | ⟨s, -, hs⟩ := letter?_eq_some hletter
    · exact absurd hflag (flag_settled_ne_ok (by simpa using hf))
    · cases hs
  · next s hletter =>
    obtain hf | ⟨s', hc, hs⟩ := letter?_eq_some hletter
    · simp at hf
    cases hs
    split at htake
    · cases htake
      obtain ⟨value, rest, rfl, hvalue⟩ := exists_value_of_finish h
      have hargument : argument = String.ofList ['-', c] :=
        String.toList_injective (htext.trans String.toList_ofList.symm)
      exact ⟨_, _, rest, .short hc hvalue, by rw [hargument]; rfl⟩
    · next value =>
      have hargument : argument = String.ofList ['-', c, '='] ++ String.ofList value :=
        String.toList_injective (by rw [htext, String.toList_append]; simp)
      exact ⟨_, _, rest, .shortAttached hc (String.ofList value), by rw [hargument]; rfl⟩
    · next hnil hequals =>
      have hargument : argument = String.ofList ['-', c] ++ String.ofList cs :=
        String.toList_injective (by rw [htext, String.toList_append]; simp)
      have hne : String.ofList cs ≠ "" := fun hempty => hnil (by simpa using hempty)
      have hhead : (String.ofList cs).toList.head? ≠ some '=' := by
        rw [String.toList_ofList]
        intro hhead
        obtain ⟨value, rfl⟩ := List.head?_eq_some_iff.mp hhead
        exact hequals value rfl
      exact ⟨_, _, rest, .shortJoined hc hne hhead, by rw [hargument]; rfl⟩
  · cases htake

theorem exists_spells_of_finish (h : (settled o).finish (argument :: rest) = .ok o') :
    argument = "--" ∧ rest = [] ∨
      ∃ words g rest', Spells words g ∧ argument :: rest = words ++ rest' := by
  rw [finish_cons] at h
  obtain ⟨r, htake, h⟩ := Result.bind_eq_ok_iff.mp h
  obtain rfl | ⟨body, hbody, htext⟩ | ⟨c, cs, hc, htext⟩ | hplain := argument_cases argument
  · cases htake
    exact .inl ⟨rfl, eq_nil_of_ended rfl h⟩
  · rw [take_long rfl hbody htext] at htake
    exact .inr (exists_spells_of_long htext htake h)
  · rw [take_letters rfl hc htext] at htake
    exact .inr (exists_spells_of_letters htext htake h)
  · rw [take_plain rfl hplain] at htake
    cases htake

theorem exists_spellsAll_of_finish {o o' : Options} {arguments : List String}
    (h : (settled o).finish arguments = .ok o') : ∃ given, SpellsAll arguments given := by
  cases arguments with
  | nil => exact ⟨[], .nil⟩
  | cons argument rest =>
    obtain ⟨rfl, rfl⟩ | ⟨words, g, rest', hword, harguments⟩ := exists_spells_of_finish h
    · exact ⟨[], .ended⟩
    · have hlt : rest'.length < (argument :: rest).length := by
        have := List.length_pos_of_ne_nil hword.ne_nil
        rw [harguments, List.length_append]
        omega
      rw [harguments, finish_spells hword] at h
      obtain ⟨o₁, -, h⟩ := Result.bind_eq_ok_iff.mp h
      obtain ⟨given, hgiven⟩ := exists_spellsAll_of_finish h
      exact ⟨g :: given, harguments ▸ .cons hword hgiven⟩
termination_by arguments.length

end Reading

namespace Options

variable {o o' : Options} {g : Given} {given : List Given} {arguments : List String} {s : Setting}
  {value : String}

/-- The options put to use. -/
def options (o : Options) : List (Flag ⊕ Setting) :=
  o.flags.map .inl ++ o.values.map fun e => .inr e.1

/-- What is put to use with one option more. -/
def more (o : Options) : Given → Options
  | .flag f => { o with flags := o.flags ++ [f] }
  | .setting s value => { o with values := o.values ++ [(s, value)] }

/-- The options that are given. -/
def ofGiven (given : List Given) : Options := given.foldl more ⟨[], []⟩

theorem mem_options_more {x : Flag ⊕ Setting} :
    x ∈ (o.more g).options ↔ x = g.option ∨ x ∈ o.options := by
  cases g <;> simp [Options.more, options, Given.option, or_comm, or_left_comm]

theorem value?_isSome_iff : (o.value? s).isSome = true ↔ .inr s ∈ o.options := by
  rw [value?, List.lookup_isSome_iff, options, List.mem_append, List.mem_map, List.mem_map]
  simp only [reduceCtorEq, and_false, exists_false, false_or, Sum.inr.injEq, beq_iff_eq]
  exact exists_congr fun e => and_congr_right fun _ => eq_comm

theorem raise_eq_ok_iff {f : Flag} (hhelp : f ≠ .help) (hversion : f ≠ .version) :
    o.raise f = .ok o' ↔ .inl f ∉ o.options ∧ o' = o.more (.flag f) := by
  have hmem : .inl f ∈ o.options ↔ f ∈ o.flags := by simp [options]
  unfold raise
  split
  · exact absurd rfl hhelp
  · exact absurd rfl hversion
  · rw [hmem]
    split
    · next h => simp [h]
    · next h => simp [h, Options.more, eq_comm]

theorem give_eq_ok_iff : o.give s value = .ok o' ↔
    .inr s ∉ o.options ∧ ¬ (s = .output ∧ value = "") ∧ o' = o.more (.setting s value) := by
  unfold give
  split
  · next h =>
    rw [value?_isSome_iff] at h
    refine iff_of_false nofun ?_
    rintro ⟨hnew, hnamed, -⟩
    exact h.elim hnew hnamed
  · next h =>
    rw [value?_isSome_iff] at h
    obtain ⟨hnew, hnamed⟩ := not_or.mp h
    rw [and_iff_right hnew, and_iff_right hnamed, Except.ok.injEq]
    exact eq_comm

theorem add_eq_ok_iff (hg : g.option ≠ .inl .help ∧ g.option ≠ .inl .version) :
    o.add g = .ok o' ↔ g.option ∉ o.options ∧ g ≠ .setting .output "" ∧ o' = o.more g := by
  cases g with
  | flag f =>
    rw [add, raise_eq_ok_iff (fun h => hg.1 (congrArg _ h)) (fun h => hg.2 (congrArg _ h))]
    exact and_congr_right fun _ => (and_iff_right nofun).symm
  | setting s value =>
    rw [add, give_eq_ok_iff, ne_eq, Given.setting.injEq]
    rfl

theorem foldlM_add_eq_ok_iff
    (hgiven : ∀ g ∈ given, g.option ≠ .inl .help ∧ g.option ≠ .inl .version) :
    given.foldlM add o = .ok o' ↔ (∀ g ∈ given, g.option ∉ o.options) ∧
      (given.map Given.option).Nodup ∧ .setting .output "" ∉ given ∧ o' = given.foldl more o := by
  induction given generalizing o with
  | nil => simp [pure, Except.pure, eq_comm]
  | cons g given ih =>
    obtain ⟨hg, hgiven⟩ := List.forall_mem_cons.mp hgiven
    rw [List.foldlM_cons, Result.bind_eq_ok_iff, List.forall_mem_cons, List.map_cons,
      List.nodup_cons, List.mem_cons, not_or, List.foldl_cons]
    simp only [add_eq_ok_iff hg, ih hgiven]
    constructor
    · rintro ⟨_, ⟨hnew, hnamed, rfl⟩, hothers, honce, hnames, rfl⟩
      refine ⟨⟨hnew, fun g' h => ?_⟩, ⟨fun h => ?_, honce⟩, ⟨Ne.symm hnamed, hnames⟩, rfl⟩
      · exact fun hold => hothers g' h (mem_options_more.mpr (.inr hold))
      · obtain ⟨g', hg', heq⟩ := List.mem_map.mp h
        exact hothers g' hg' (mem_options_more.mpr (.inl heq))
    · rintro ⟨⟨hnew, hothers⟩, ⟨hdifferent, honce⟩, ⟨hnamed, hnames⟩, rfl⟩
      refine ⟨_, ⟨hnew, Ne.symm hnamed, rfl⟩, fun g' hg' h => ?_, honce, hnames, rfl⟩
      rcases mem_options_more.mp h with heq | hold
      · exact hdifferent (List.mem_map.mpr ⟨g', hg', heq⟩)
      · exact hothers g' hg' hold

/-- The reading ends with options exactly if the arguments give them. -/
theorem ofArguments_eq_ok_iff : ofArguments arguments = .ok o ↔
    ∃ given, Accepts arguments given ∧ o = ofGiven given := by
  have hfold {given : List Given} (h : SpellsAll arguments given) :
      ofArguments arguments = .ok o ↔ (given.map Given.option).Nodup ∧
        .setting .output "" ∉ given ∧ o = ofGiven given := by
    have hfinish : ofArguments arguments = given.foldlM add ⟨[], []⟩ :=
      Reading.finish_of_spellsAll h
    rw [hfinish, foldlM_add_eq_ok_iff h.flags]
    exact and_iff_right fun g _ => List.not_mem_nil
  constructor
  · intro h
    obtain ⟨given, hgiven⟩ := Reading.exists_spellsAll_of_finish h
    obtain ⟨honce, hnamed, ho⟩ := (hfold hgiven).mp h
    exact ⟨given, ⟨hgiven, honce, hnamed⟩, ho⟩
  · rintro ⟨given, ⟨hgiven, honce, hnamed⟩, ho⟩
    exact (hfold hgiven).mpr ⟨honce, hnamed, ho⟩

/-! ### What is given can be looked up -/

theorem mem_flags_foldl {f : Flag} :
    f ∈ (given.foldl more o).flags ↔ f ∈ o.flags ∨ .flag f ∈ given := by
  induction given generalizing o with
  | nil => simp
  | cons g given ih =>
    rw [List.foldl_cons, ih]
    cases g <;> simp [Options.more, or_assoc]

theorem mem_flags_ofGiven {f : Flag} : f ∈ (ofGiven given).flags ↔ .flag f ∈ given := by
  rw [ofGiven, mem_flags_foldl]
  simp

theorem mem_values_foldl {e : Setting × String} :
    e ∈ (given.foldl more o).values ↔ e ∈ o.values ∨ .setting e.1 e.2 ∈ given := by
  induction given generalizing o with
  | nil => simp
  | cons g given ih =>
    rw [List.foldl_cons, ih]
    obtain ⟨s, value⟩ := e
    cases g <;> simp [Options.more, or_assoc]

theorem mem_values_ofGiven : (s, value) ∈ (ofGiven given).values ↔ .setting s value ∈ given := by
  rw [ofGiven, mem_values_foldl]
  simp

/-- What is looked up is one of the values, and there is only one for each setting. -/
theorem value?_eq_some_iff (honce : (given.map Given.option).Nodup) :
    (ofGiven given).value? s = some value ↔ .setting s value ∈ given := by
  have hmem {value : String} (h : (ofGiven given).value? s = some value) :
      .setting s value ∈ given := by
    obtain ⟨before, after, hvalues, -⟩ := List.lookup_eq_some_iff.mp h
    exact mem_values_ofGiven.mp (hvalues ▸ List.mem_append_right _ List.mem_cons_self)
  refine ⟨hmem, fun h => ?_⟩
  have hsome : ((ofGiven given).value? s).isSome = true :=
    List.lookup_isSome_iff.mpr ⟨_, mem_values_ofGiven.mpr h, beq_self_eq_true s⟩
  obtain ⟨value', hvalue'⟩ := Option.isSome_iff_exists.mp hsome
  cases List.inj_on_of_nodup_map honce (hmem hvalue') h rfl
  exact hvalue'

theorem value?_eq_iff (honce : (given.map Given.option).Nodup) {value? : Option String} :
    (ofGiven given).value? s = value? ↔ Gives given s value? := by
  cases value? with
  | some value => exact value?_eq_some_iff honce
  | none =>
    rw [Option.eq_none_iff_forall_ne_some]
    exact forall_congr' fun value => not_congr (value?_eq_some_iff honce)

end Options

end CommandLine

end ConfigSchema
